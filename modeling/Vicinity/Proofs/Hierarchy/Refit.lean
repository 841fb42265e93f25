import Mathlib
import Vicinity.Proofs.Hierarchy.Overlap
import Vicinity.Proofs.Hierarchy.Walks

/-!
# Refitting

A refit touches one branch, so with children before parents every branch gets
the union of boxes that are final. Each branch box is then the union of the
leaf boxes below it and no larger, although nested boxes would be enough for
every query.
-/

set_option autoImplicit false

namespace Vicinity.Hierarchy

open Radix

section Fold

variable {α ι : Type} {d : Nat} [Coord α] {keys : Array UInt64} {nodes : Array (Node α ι d)}

theorem refitNode_ne {i j : Nat} (h : i ≠ j) : (refitNode nodes i)[j]? = nodes[j]? := by
  rcases refitNode_cases nodes i with hsame | ⟨box, left, right, l, r, -, -, -, hset⟩
  · rw [hsame]
  · rw [hset, Array.getElem?_setIfInBounds_ne h]

theorem refitNode_self {i left right : Nat} {box : Box α d} {l r : Node α ι d}
    (hi : nodes[i]? = some ⟨box, .branch left right⟩) (hl : nodes[left]? = some l)
    (hr : nodes[right]? = some r) :
    (refitNode nodes i)[i]? = some ⟨l.box.union r.box, .branch left right⟩ := by
  obtain ⟨hlt, -⟩ := Array.getElem?_eq_some_iff.mp hi
  simp only [refitNode, hi, hl, hr, Array.getElem?_setIfInBounds_self_of_lt hlt]

theorem foldl_refitNode_ne {order : List Nat} {j : Nat} (h : j ∉ order) :
    (order.foldl refitNode nodes)[j]? = nodes[j]? := by
  induction order generalizing nodes with
  | nil => rfl
  | cons i order ih =>
    rw [List.mem_cons, not_or] at h
    rw [List.foldl_cons, ih h.2, refitNode_ne (Ne.symm h.1)]

variable {order : List Nat}

/-- When the turn of a branch comes, its children have their last boxes. -/
theorem child_final (nodes : Array (Node α ι d)) (hperm : order.Perm (List.range (keys.size - 1)))
    (hup : BottomUp keys order.reverse) {done rest : List Nat} {i : Nat}
    (horder : order = done ++ i :: rest) (side : Bool) :
    (done.foldl refitNode nodes)[child keys i side]? =
      (order.foldl refitNode nodes)[child keys i side]? := by
  have hnodup : order.Nodup := hperm.nodup_iff.mpr List.nodup_range
  have hlater : child keys i side ∉ i :: rest := by
    intro hmem
    have horder' : child keys i side ∈ order := by
      rw [horder]
      exact List.mem_append_right done hmem
    have hlt := List.mem_range.mp (hperm.mem_iff.mp horder')
    have hearlier := hup.mem_done horder (show child keys i side + 1 < keys.size by omega)
    rw [horder] at hnodup
    exact (List.nodup_append.mp hnodup).2.2 _ hearlier _ hmem rfl
  rw [horder, List.foldl_append, foldl_refitNode_ne hlater]

def Tight (nodes : Array (Node α ι d)) : Prop :=
  ∀ (i : Nat) (box : Box α d) (left right : Nat), nodes[i]? = some ⟨box, .branch left right⟩ →
    ∃ l r, nodes[left]? = some l ∧ nodes[right]? = some r ∧ box = l.box.union r.box

theorem tight_of_bottomUp (hs : Sorted keys) (h : Linked keys nodes)
    (hperm : order.Perm (List.range (keys.size - 1))) (hup : BottomUp keys order.reverse) :
    Tight (order.foldl refitNode nodes) := by
  intro i box left right hi
  have hfinal := foldl_refitNode_induction h (fun _ j hj => hj.refitNode j) order
  have hbranch : i + 1 < keys.size := (hfinal.isChild_iff.mp ⟨box, left, right, hi, .inl rfl⟩).1
  obtain ⟨box', hbox'⟩ := hfinal.branch i hbranch
  rw [hi] at hbox'
  cases hbox'
  have hmem : i ∈ order := hperm.mem_iff.mpr (List.mem_range.mpr (by omega))
  obtain ⟨done, rest, horder⟩ := List.append_of_mem hmem
  -- Its turn came after that of its children, and it was not touched again.
  have hbefore := foldl_refitNode_induction h (fun _ j hj => hj.refitNode j) done
  obtain ⟨first, hfirst⟩ := hbefore.branch i hbranch
  obtain ⟨-, hleft, -, hright⟩ := children_bounds hs hbranch
  rw [← hbefore.size] at hleft hright
  have hl := Array.getElem?_eq_getElem hleft
  have hr := Array.getElem?_eq_getElem hright
  have hnodup : order.Nodup := hperm.nodup_iff.mpr List.nodup_range
  have hlater : i ∉ rest := by
    rw [horder] at hnodup
    exact (List.nodup_cons.mp (List.nodup_append.mp hnodup).2.1).1
  have hown : (order.foldl refitNode nodes)[i]? =
      (refitNode (done.foldl refitNode nodes) i)[i]? := by
    rw [horder, List.foldl_append, List.foldl_cons, foldl_refitNode_ne hlater]
  rw [refitNode_self hfirst hl hr, hi] at hown
  have hl' := child_final nodes hperm hup horder false
  have hr' := child_final nodes hperm hup horder true
  refine ⟨_, _, hl'.symm.trans hl, hr'.symm.trans hr, ?_⟩
  cases hown
  rfl

end Fold

section Union

variable {α ι : Type} {d : Nat} [Coord α] {nodes : Array (Node α ι d)}

def leafBoxes (nodes : Array (Node α ι d)) (leaves : List Nat) : List (Box α d) :=
  leaves.flatMap (atLeaf (fun box _ => [box]) nodes)

omit [Coord α] in
theorem mem_leafBoxes {leaves : List Nat} {b : Box α d} :
    b ∈ leafBoxes nodes leaves ↔ ∃ leaf ∈ leaves, ∃ id, nodes[leaf]? = some ⟨b, .leaf id⟩ := by
  rw [leafBoxes, mem_flatMap_atLeaf]
  constructor
  · rintro ⟨leaf, hmem, box, id, hleaf, hb⟩
    rw [List.mem_singleton] at hb
    subst hb
    exact ⟨leaf, hmem, id, hleaf⟩
  · rintro ⟨leaf, hmem, id, hleaf⟩
    exact ⟨leaf, hmem, b, id, hleaf, List.mem_singleton_self b⟩

omit [Coord α] in
theorem Spans.leafBoxes_ne_nil {i : Nat} {leaves : List Nat} (h : Spans nodes i leaves) :
    leafBoxes nodes leaves ≠ [] := by
  induction h with
  | leaf hleaf => simp [leafBoxes, atLeaf, hleaf]
  | branch _ _ _ ihl _ =>
    rw [leafBoxes, List.flatMap_append]
    exact List.append_ne_nil_of_left_ne_nil ihl _

/-- What covers the leaves below a node covers the node. -/
theorem Tight.covered (h : Tight nodes) {i : Nat} {leaves : List Nat} (hs : Spans nodes i leaves)
    {c : Box α d} (hc : ∀ b ∈ leafBoxes nodes leaves, c.Covers b) {node : Node α ι d}
    (hi : nodes[i]? = some node) : c.Covers node.box := by
  induction hs generalizing node with
  | @leaf i box id hleaf =>
    rw [hleaf] at hi
    cases hi
    exact hc box (mem_leafBoxes.mpr ⟨i, List.mem_singleton_self i, id, hleaf⟩)
  | branch hbranch hl hr ihl ihr =>
    rw [hbranch] at hi
    cases hi
    obtain ⟨l, r, hl', hr', rfl⟩ := h _ _ _ _ hbranch
    rw [leafBoxes, List.flatMap_append] at hc
    exact (ihl (fun b hb => hc b (List.mem_append_left _ hb)) hl').union
      (ihr (fun b hb => hc b (List.mem_append_right _ hb)) hr')

variable [OrderedCoord α]

/-- The box of a node is the union of the leaves below it, whatever the order
and the number of times in which the union takes them. -/
theorem Tight.same_unionAll (h : Tight nodes) (hnested : Nested nodes) {i : Nat}
    {leaves : List Nat} (hs : Spans nodes i leaves) {node : Node α ι d}
    (hi : nodes[i]? = some node) {bs : List (Box α d)}
    (hbs : ∀ b, b ∈ bs ↔ b ∈ leafBoxes nodes leaves) {union : Box α d}
    (hunion : Box.unionAll bs = some union) : node.box.same union = true := by
  have hleaf : ∀ b ∈ bs, b.Numbers ∧ node.box.Covers b := by
    intro b hb
    obtain ⟨leaf, hmem, id, hleaf⟩ := mem_leafBoxes.mp ((hbs b).mp hb)
    obtain ⟨below, hbelow, hcovers⟩ := hnested.covers_leaf hs hi leaf hmem
    rw [hleaf] at hbelow
    cases hbelow
    exact ⟨hnested.numbers leaf _ hleaf, hcovers⟩
  rw [Box.same_iff]
  constructor
  · exact Box.unionAll_of (P := fun b => node.box.Covers b) (fun _ _ => .union) hunion
      fun b hb => (hleaf b hb).2
  · have hcovers := (Box.unionAll_covers hunion fun b hb => (hleaf b hb).1).2
    exact h.covered hs (fun b hb => hcovers b ((hbs b).mpr hb)) hi

end Union

section Built

variable {α ι : Type} {d : Nat} [Coord α] {scene : Box α d} {items : List (ι × Box α d)}

def builtOrder (scene : Box α d) (items : List (ι × Box α d)) : List Nat :=
  refitOrder (branchLinks (leafKeys scene items))

theorem built_eq_foldl :
    built scene items = (builtOrder scene items).foldl refitNode (laidOut scene items) := rfl

theorem builtOrder_spec (scene : Box α d) (hne : items ≠ []) (hsize : items.length ≤ 2 ^ 64) :
    (builtOrder scene items).Perm (List.range ((leafKeys scene items).size - 1)) ∧
      BottomUp (leafKeys scene items) (builtOrder scene items).reverse := by
  refine refitOrder_spec (leafKeys_sorted hsize) ?_
  rw [size_leafKeys]
  exact List.length_pos_iff.mpr hne

theorem built_tight (hne : items ≠ []) (hsize : items.length ≤ 2 ^ 64) :
    Tight (built scene items) :=
  tight_of_bottomUp (leafKeys_sorted hsize) laidOut_linked (builtOrder_spec scene hne hsize).1
    (builtOrder_spec scene hne hsize).2

theorem mem_leafBoxes_built {order : List Nat} {nodes : Array (Node α ι d)}
    (h : IsRadixTree scene items order nodes) (b : Box α d) : b ∈ items.map (·.2) ↔
      b ∈ leafBoxes nodes (List.range' (items.length - 1) items.length) := by
  have hperm := h.flatMap_leaves fun box _ => [box]
  rw [leafBoxes, hperm.mem_iff, List.map_eq_flatMap]

variable [OrderedCoord α]

/-- Building gives every branch the union of the leaf boxes below it, and the
root that of all items. It refits every branch once, and by then the children
of the branch are what they are in the end. -/
theorem refit_is_exact (items : List (ι × Box α d)) (htwo : 2 ≤ items.length)
    (hsize : items.length ≤ 2 ^ 64) (hvalid : ∀ item ∈ items, item.2.isValid = true) :
    ∃ scene tree, Box.unionAll (items.map (·.2)) = some scene ∧ build items = .ok tree ∧
      (∀ i, i < items.length - 1 → ∃ box left right leaves union,
        tree.nodes[i]? = some ⟨box, .branch left right⟩ ∧ Spans tree.nodes i leaves ∧
        Box.unionAll (leafBoxes tree.nodes leaves) = some union ∧ box.same union = true) ∧
      (∃ box, tree.bounds = some box ∧ box.same scene = true) ∧
      tree.nodes = (builtOrder scene items).foldl refitNode (laidOut scene items) ∧
      (builtOrder scene items).Perm (List.range (items.length - 1)) ∧
      ∀ done i rest, builtOrder scene items = done ++ i :: rest → ∀ c, IsChild tree.nodes i c →
        (done.foldl refitNode (laidOut scene items))[c]? = tree.nodes[c]? := by
  have hne : items ≠ [] := List.ne_nil_of_length_pos (by omega)
  obtain ⟨scene, hscene, hbuild⟩ := build_eq_built hne hvalid
  have htree : IsRadixTree scene items (leafOrder scene items) (built scene items) :=
    built_isRadixTree hne hsize
  have hnested := built_nested hscene hvalid hsize
  have htight : Tight (built scene items) := built_tight hne hsize
  obtain ⟨hperm, hup⟩ := builtOrder_spec scene hne hsize
  refine ⟨scene, _, hscene, hbuild, fun i hi => ?_, ?_, built_eq_foldl, ?_, ?_⟩
  · obtain ⟨box, left, right, hbranch⟩ := htree.branch i hi
    obtain ⟨leaves, hspans⟩ := htree.below i (Array.getElem?_eq_some_iff.mp hbranch).1
    obtain ⟨union, hunion⟩ := Box.exists_unionAll hspans.leafBoxes_ne_nil
    exact ⟨box, left, right, leaves, union, hbranch, hspans, hunion,
      htight.same_unionAll hnested hspans hbranch (fun _ => .rfl) hunion⟩
  · obtain ⟨box, left, right, hroot⟩ := htree.branch 0 (by omega)
    have hbounds : bounds ⟨built scene items⟩ = some box := by
      rw [bounds, hroot]
      rfl
    exact ⟨box, hbounds,
      htight.same_unionAll hnested htree.spans hroot (mem_leafBoxes_built htree) hscene⟩
  · rwa [size_leafKeys] at hperm
  · intro done i rest horder c hchild
    have hlinked : Linked (leafKeys scene items) (built scene items) := built_linked
    obtain ⟨-, side, rfl⟩ := hlinked.isChild_iff.mp hchild
    exact child_final (laidOut scene items) hperm hup horder side

theorem refit_three_boxes : ∃ scene tree box,
    Box.unionAll [Box.ofPoint #v[(0 : Float)], ⟨#v[1], #v[Float.inf]⟩, ⟨#v[-2], #v[-1]⟩] =
      some scene ∧
    build [(7, Box.ofPoint #v[0]), (7, ⟨#v[1], #v[Float.inf]⟩), (3, ⟨#v[-2], #v[-1]⟩)] = .ok tree ∧
      tree.bounds = some box ∧ box.same scene = true := by
  obtain ⟨scene, tree, hscene, hbuild, -, ⟨box, hbounds, hsame⟩, -⟩ := refit_is_exact
    [(7, Box.ofPoint #v[(0 : Float)]), (7, ⟨#v[1], #v[Float.inf]⟩), (3, ⟨#v[-2], #v[-1]⟩)]
    (by simp) (by simp) (by decide +kernel)
  exact ⟨scene, tree, box, hscene, hbuild, hbounds, hsame⟩

end Built

end Vicinity.Hierarchy
