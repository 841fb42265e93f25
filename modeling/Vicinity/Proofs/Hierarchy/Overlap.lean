import Mathlib
import Vicinity.Hierarchy.Query
import Vicinity.Proofs.Coord.Float
import Vicinity.Proofs.Hierarchy.Build

/-!
# Overlap

Every branch box covers the boxes of its children, before refitting because it
starts out with the scene and afterwards because it is their union. A test that
passes on a box then passes on every branch above it, so a query that leaves
out failing subtrees finds each item whose box passes, once.
-/

set_option autoImplicit false

namespace Vicinity.Hierarchy

open Radix

variable {α ι : Type} {d : Nat} [Coord α]

structure Nested (nodes : Array (Node α ι d)) : Prop where
  numbers : ∀ (i : Nat) (node : Node α ι d), nodes[i]? = some node → node.box.Numbers
  covers : ∀ (i : Nat) (box : Box α d) (left right : Nat), nodes[i]? = some ⟨box, .branch left right⟩ →
    ∃ l r, nodes[left]? = some l ∧ nodes[right]? = some r ∧ box.Covers l.box ∧ box.Covers r.box

variable [OrderedCoord α]

theorem Nested.refitNode {nodes : Array (Node α ι d)} (h : Nested nodes) (i : Nat) :
    Nested (refitNode nodes i) := by
  rcases refitNode_cases nodes i with hsame | ⟨box, left, right, l, r, hi, hl, hr, hset⟩
  · rwa [hsame]
  · obtain ⟨hlt, -⟩ := Array.getElem?_eq_some_iff.mp hi
    obtain ⟨l', r', hl', hr', hcl, hcr⟩ := h.covers i box left right hi
    rw [hl] at hl'
    rw [hr] at hr'
    cases hl'
    cases hr'
    have hunion := Box.union_covers (h.numbers left l hl) (h.numbers right r hr)
    -- What covers a box still covers it: the box at `i` only becomes smaller.
    have shrinks : ∀ (c : Nat) (child : Node α ι d), nodes[c]? = some child → ∃ child',
        (Hierarchy.refitNode nodes i)[c]? = some child' ∧
          ∀ b : Box α d, b.Covers child.box → b.Covers child'.box := by
      intro c child hc
      by_cases hci : i = c
      · subst hci
        rw [hi] at hc
        cases hc
        refine ⟨_, by rw [hset, Array.getElem?_setIfInBounds_self_of_lt hlt], ?_⟩
        intro b hb
        exact hb.trans (hcl.union hcr)
      · exact ⟨child, by rw [hset, Array.getElem?_setIfInBounds_ne hci, hc], fun b hb => hb⟩
    constructor
    · intro j node hj
      by_cases hji : i = j
      · subst hji
        rw [hset, Array.getElem?_setIfInBounds_self_of_lt hlt] at hj
        cases hj
        exact (h.numbers left l hl).union (h.numbers right r hr)
      · rw [hset, Array.getElem?_setIfInBounds_ne hji] at hj
        exact h.numbers j node hj
    · intro j box' left' right' hj
      by_cases hji : i = j
      · subst hji
        rw [hset, Array.getElem?_setIfInBounds_self_of_lt hlt] at hj
        cases hj
        obtain ⟨l', hl', hcovers⟩ := shrinks left l hl
        obtain ⟨r', hr', hcovers'⟩ := shrinks right r hr
        exact ⟨l', r', hl', hr', hcovers _ hunion.1, hcovers' _ hunion.2⟩
      · rw [hset, Array.getElem?_setIfInBounds_ne hji] at hj
        obtain ⟨lo, ro, hlo, hro, hcl', hcr'⟩ := h.covers j box' left' right' hj
        obtain ⟨l', hl', hcovers⟩ := shrinks left' lo hlo
        obtain ⟨r', hr', hcovers'⟩ := shrinks right' ro hro
        exact ⟨l', r', hl', hr', hcovers _ hcl', hcovers' _ hcr'⟩

theorem Nested.covers_leaf {nodes : Array (Node α ι d)} (h : Nested nodes) {i : Nat}
    {leaves : List Nat} (hs : Spans nodes i leaves) {node : Node α ι d}
    (hi : nodes[i]? = some node) :
    ∀ leaf ∈ leaves, ∃ below, nodes[leaf]? = some below ∧ node.box.Covers below.box := by
  induction hs generalizing node with
  | leaf hleaf =>
    intro leaf hmem
    rw [List.mem_singleton] at hmem
    subst hmem
    exact ⟨node, hi, .refl (h.numbers _ _ hi)⟩
  | branch hbranch hl hr ihl ihr =>
    rw [hbranch] at hi
    cases hi
    obtain ⟨l, r, hl', hr', hcl, hcr⟩ := h.covers _ _ _ _ hbranch
    intro leaf hmem
    rcases List.mem_append.mp hmem with hmem | hmem
    · obtain ⟨below, hbelow, hcovers⟩ := ihl hl' leaf hmem
      exact ⟨below, hbelow, hcl.trans hcovers⟩
    · obtain ⟨below, hbelow, hcovers⟩ := ihr hr' leaf hmem
      exact ⟨below, hbelow, hcr.trans hcovers⟩

def EachBox (P : Box α d → Prop) (nodes : Array (Node α ι d)) : Prop :=
  ∀ (i : Nat) (node : Node α ι d), nodes[i]? = some node → P node.box

omit [OrderedCoord α] in
theorem EachBox.refitNode {P : Box α d → Prop} (hunion : ∀ a b : Box α d, P a → P b → P (a.union b))
    {nodes : Array (Node α ι d)} (h : EachBox P nodes) (i : Nat) :
    EachBox P (refitNode nodes i) := by
  rcases refitNode_cases nodes i with hsame | ⟨box, left, right, l, r, hi, hl, hr, hset⟩
  · rwa [hsame]
  · intro j node hj
    by_cases hji : i = j
    · subst hji
      obtain ⟨hlt, -⟩ := Array.getElem?_eq_some_iff.mp hi
      rw [hset, Array.getElem?_setIfInBounds_self_of_lt hlt] at hj
      cases hj
      exact hunion _ _ (h left l hl) (h right r hr)
    · rw [hset, Array.getElem?_setIfInBounds_ne hji] at hj
      exact h j node hj

def atLeaf {τ : Type} (f : Box α d → ι → List τ) (nodes : Array (Node α ι d)) (leaf : Nat) :
    List τ :=
  match nodes[leaf]? with
  | some ⟨box, .leaf id⟩ => f box id
  | _ => []

omit [Coord α] [OrderedCoord α] in
theorem mem_flatMap_atLeaf {τ : Type} {f : Box α d → ι → List τ} {nodes : Array (Node α ι d)}
    {leaves : List Nat} {x : τ} : x ∈ leaves.flatMap (atLeaf f nodes) ↔
      ∃ leaf ∈ leaves, ∃ box id, nodes[leaf]? = some ⟨box, .leaf id⟩ ∧ x ∈ f box id := by
  rw [List.mem_flatMap]
  apply exists_congr
  intro leaf
  apply and_congr_right
  intro _
  rw [atLeaf]
  constructor
  · intro hx
    split at hx
    · next box id hleaf => exact ⟨box, id, hleaf, hx⟩
    · cases hx
  · rintro ⟨box, id, hleaf, hx⟩
    rwa [hleaf]

omit [Coord α] [OrderedCoord α] in
theorem Spans.length_pos {nodes : Array (Node α ι d)} {i : Nat} {leaves : List Nat}
    (h : Spans nodes i leaves) : 0 < leaves.length := by
  induction h with
  | leaf => simp
  | branch _ _ _ ihl _ => simp only [List.length_append]; omega

/-- Collecting visits exactly the leaves that the test lets through, provided
that the test passes on whatever covers a box on which it passes. -/
theorem collect_spans {nodes : Array (Node α ι d)} (h : Nested nodes) {P : Box α d → Prop}
    (hboxes : EachBox P nodes) {keep : Box α d → Bool}
    (hkeep : ∀ c b : Box α d, P c → P b → c.Covers b → keep b = true → keep c = true)
    {i depth : Nat} {leaves : List Nat} (hs : Spans nodes i leaves)
    (hdepth : leaves.length ≤ depth) :
    collect nodes keep depth i =
      leaves.flatMap (atLeaf (fun box id => if keep box then [id] else []) nodes) := by
  induction hs generalizing depth with
  | leaf hleaf =>
    cases depth with
    | zero => simp at hdepth
    | succ depth => simp [collect, atLeaf, hleaf]
  | @branch i left right box ls rs hbranch hl hr ihl ihr =>
    have hlpos := hl.length_pos
    have hrpos := hr.length_pos
    rw [List.length_append] at hdepth
    cases depth with
    | zero => omega
    | succ depth =>
      have hleft := ihl (by omega : ls.length ≤ depth)
      have hright := ihr (by omega : rs.length ≤ depth)
      simp only [collect, hbranch, hleft, hright, ← List.flatMap_append]
      split
      · rfl
      · next hfails =>
        have none : ∀ leaf ∈ ls ++ rs,
            atLeaf (fun box id => if keep box then [id] else []) nodes leaf = [] := by
          intro leaf hmem
          obtain ⟨below, hbelow, hcovers⟩ := h.covers_leaf (hl.branch hbranch hr) hbranch leaf hmem
          have hbelow' : keep below.box ≠ true := fun hb =>
            hfails (hkeep _ _ (hboxes _ _ hbranch) (hboxes _ _ hbelow) hcovers hb)
          obtain ⟨b, kind⟩ := below
          cases kind <;> simp_all [atLeaf]
        exact (List.flatMap_eq_nil_iff.mpr none).symm

omit [Coord α] [OrderedCoord α] in
/-- Whatever the test, what is collected below a node are ids of leaves there. -/
theorem collect_subset {nodes : Array (Node α ι d)} (keep : Box α d → Bool) {i : Nat}
    {leaves : List Nat} (hs : Spans nodes i leaves) (depth : Nat) :
    collect nodes keep depth i ⊆ leaves.flatMap (atLeaf (fun _ id => [id]) nodes) := by
  induction hs generalizing depth with
  | leaf hleaf =>
    cases depth with
    | zero => simp [collect]
    | succ depth =>
      simp only [collect, hleaf]
      split <;> simp [atLeaf, hleaf]
  | branch hbranch _ _ ihl ihr =>
    cases depth with
    | zero => simp [collect]
    | succ depth =>
      simp only [collect, hbranch, List.flatMap_append]
      split
      · exact List.append_subset.mpr ⟨List.subset_append_of_subset_left _ (ihl depth),
          List.subset_append_of_subset_right _ (ihr depth)⟩
      · simp

section Built

variable {scene : Box α d} {items : List (ι × Box α d)}

omit [OrderedCoord α] in
theorem laidOut_box {i : Nat} {node : Node α ι d} (h : (laidOut scene items)[i]? = some node) :
    node.box = scene ∨ ∃ item ∈ items, node.box = item.2 := by
  have hmem := Array.mem_of_getElem? h
  rcases Array.mem_append.mp hmem with hmem | hmem
  · obtain ⟨link, -, rfl⟩ := Array.mem_map.mp hmem
    exact .inl rfl
  · obtain ⟨item, hitem, rfl⟩ := List.mem_map.mp (List.mem_toArray.mp hmem)
    obtain ⟨kp, -, hkp⟩ := List.mem_filterMap.mp hitem
    exact .inr ⟨item, List.mem_of_getElem? (by simpa using hkp), rfl⟩

theorem laidOut_nested (hscene : scene.Numbers) (hitems : ∀ item ∈ items, item.2.Numbers)
    (hcovers : ∀ item ∈ items, scene.Covers item.2) (hsize : items.length ≤ 2 ^ 64) :
    Nested (laidOut scene items) := by
  have hs : Sorted (leafKeys scene items) := leafKeys_sorted hsize
  have hlinked : Linked (leafKeys scene items) (laidOut scene items) := laidOut_linked
  have all : ∀ (i : Nat) (node : Node α ι d), (laidOut scene items)[i]? = some node →
      node.box.Numbers ∧ scene.Covers node.box := by
    intro i node hi
    rcases laidOut_box hi with hbox | ⟨item, hitem, hbox⟩
    · rw [hbox]
      exact ⟨hscene, .refl hscene⟩
    · rw [hbox]
      exact ⟨hitems item hitem, hcovers item hitem⟩
  constructor
  · intro i node hi
    exact (all i node hi).1
  · intro i box left right hi
    have hbranch : i + 1 < (leafKeys scene items).size :=
      (hlinked.isChild_iff.mp ⟨box, left, right, hi, .inl rfl⟩).1
    obtain ⟨box', hbox'⟩ := hlinked.branch i hbranch
    rw [hbox'] at hi
    cases hi
    obtain ⟨-, hleft, -, hright⟩ := children_bounds hs hbranch
    rw [← hlinked.size] at hleft hright
    have hscene' : box = scene := by
      rw [laidOut, arena, Array.getElem?_append_left (by simp; omega)] at hbox'
      simp only [Array.getElem?_map, Option.map_eq_some_iff] at hbox'
      obtain ⟨link, -, hnode⟩ := hbox'
      exact (congrArg Node.box hnode).symm
    rw [hscene']
    exact ⟨_, _, Array.getElem?_eq_getElem hleft, Array.getElem?_eq_getElem hright,
      (all _ _ (Array.getElem?_eq_getElem hleft)).2, (all _ _ (Array.getElem?_eq_getElem hright)).2⟩

theorem built_nested (hscene : Box.unionAll (items.map (·.2)) = some scene)
    (hvalid : ∀ item ∈ items, item.2.isValid = true) (hsize : items.length ≤ 2 ^ 64) :
    Nested (built scene items) := by
  have hitems : ∀ item ∈ items, item.2.Numbers := fun item h =>
    Box.numbers_of_isValid (hvalid item h)
  obtain ⟨hnumbers, hcovers⟩ := Box.unionAll_covers hscene (List.forall_mem_map.mpr hitems)
  have hcovers' : ∀ item ∈ items, scene.Covers item.2 := fun item h =>
    hcovers item.2 (List.mem_map_of_mem h)
  exact refit_induction (laidOut_nested hnumbers hitems hcovers' hsize) fun _ i h => h.refitNode i

omit [OrderedCoord α] in
theorem built_eachBox {P : Box α d → Prop} (hunion : ∀ a b : Box α d, P a → P b → P (a.union b))
    (hscene : Box.unionAll (items.map (·.2)) = some scene) (hitems : ∀ item ∈ items, P item.2) :
    EachBox P (built scene items) := by
  have hlaid : EachBox P (laidOut scene items) := by
    intro i node hi
    rcases laidOut_box hi with hbox | ⟨item, hitem, hbox⟩
    · rw [hbox]
      exact Box.unionAll_of hunion hscene (List.forall_mem_map.mpr hitems)
    · rw [hbox]
      exact hitems item hitem
  exact refit_induction hlaid fun _ i h => h.refitNode hunion i

end Built

section Built

variable {items : List (ι × Box α d)} {tree : Hierarchy α ι d}

omit [OrderedCoord α] in
theorem build_ok (h : build items = .ok tree) (hne : items ≠ []) :
    (∀ item ∈ items, item.2.isValid = true) ∧ ∃ scene,
      Box.unionAll (items.map (·.2)) = some scene ∧ tree = ⟨built scene items⟩ := by
  have hvalid : ∀ item ∈ items, item.2.isValid = true := by
    unfold build at h
    split at h
    · cases h
    · next hfind =>
      intro item hitem
      simpa using List.findIdx?_eq_none_iff.mp hfind item hitem
  obtain ⟨scene, hscene, hbuild⟩ := build_eq_built hne hvalid
  rw [hbuild] at h
  cases h
  exact ⟨hvalid, scene, hscene, rfl⟩

theorem flatMap_range {τ σ : Type} (xs : List τ) (f : τ → List σ) (g : Nat → List σ)
    (h : ∀ (j : Nat) (x : τ), xs[j]? = some x → g j = f x) :
    (List.range xs.length).flatMap g = xs.flatMap f := by
  have hpositions : (List.range xs.length).flatMap g = xs.zipIdx.flatMap fun xj => g xj.2 := by
    rw [List.range_eq_range', ← List.zipIdx_map_snd 0 xs, List.flatMap_map]
  have helements : xs.flatMap f = xs.zipIdx.flatMap fun xj => f xj.1 := by
    conv_lhs => rw [← List.zipIdx_map_fst 0 xs, List.flatMap_map]
  rw [hpositions, helements]
  apply List.flatMap_congr
  intro xj hxj
  exact h xj.2 xj.1 (List.mk_mem_zipIdx_iff_getElem?.mp hxj)

omit [OrderedCoord α] in
/-- The leaves of a radix tree give what its items give, in another order. -/
theorem IsRadixTree.flatMap_leaves {scene : Box α d} {order : List Nat}
    {nodes : Array (Node α ι d)} (h : IsRadixTree scene items order nodes) {τ : Type}
    (f : Box α d → ι → List τ) :
    ((List.range' (items.length - 1) items.length).flatMap (atLeaf f nodes)).Perm
      (items.flatMap fun item => f item.2 item.1) := by
  have hlength : order.length = items.length := by simpa using h.perm.length_eq
  let valueAt : Nat → List τ := fun p => (items[p]?.map fun item => f item.2 item.1).getD []
  have hleaves : (List.range items.length).flatMap
      (fun j => atLeaf f nodes (items.length - 1 + j)) = order.flatMap valueAt := by
    conv_lhs => rw [← hlength]
    apply flatMap_range
    intro j p hj
    obtain ⟨item, hitem, hleaf⟩ := h.leaf j p hj
    rw [hlength, atLeaf, hleaf]
    simp [valueAt, hitem]
  have hvalues : (List.range items.length).flatMap valueAt =
      items.flatMap fun item => f item.2 item.1 := by
    apply flatMap_range
    intro p item hitem
    simp [valueAt, hitem]
  rw [List.range'_eq_map_range, List.flatMap_map, hleaves]
  exact (h.perm.flatMap_right valueAt).trans (.of_eq hvalues)

theorem flatMap_guard {τ σ : Type} (xs : List τ) (p : τ → Bool) (f : τ → σ) :
    (xs.flatMap fun x => if p x then [f x] else []) = (xs.filter p).map f := by
  induction xs with
  | nil => rfl
  | cons x xs ih => cases hp : p x <;> simp [hp, ih]

omit [OrderedCoord α] in
/-- There are no more leaves than nodes, which bounds the depth of a traversal. -/
theorem IsRadixTree.length_leaves_le {scene : Box α d} {order : List Nat}
    {nodes : Array (Node α ι d)} (h : IsRadixTree scene items order nodes) (hne : items ≠ []) :
    (List.range' (items.length - 1) items.length).length ≤ nodes.size := by
  have hpos := List.length_pos_iff.mpr hne
  rw [h.size, List.length_range']
  omega

/-- A traversal of a built tree finds each item whose box passes the test,
once. The test need only be sound on boxes with a property that unions keep. -/
theorem collectWhere_perm (hbuild : build items = .ok tree) (hsize : items.length ≤ 2 ^ 64)
    {P : Box α d → Prop} (hunion : ∀ a b : Box α d, P a → P b → P (a.union b))
    (hitems : ∀ item ∈ items, P item.2) {keep : Box α d → Bool}
    (hkeep : ∀ c b : Box α d, P c → P b → c.Covers b → keep b = true → keep c = true) :
    (tree.collectWhere keep).Perm ((items.filter fun item => keep item.2).map (·.1)) := by
  by_cases hne : items = []
  · subst hne
    cases hbuild
    exact .refl []
  obtain ⟨hvalid, scene, hscene, rfl⟩ := build_ok hbuild hne
  have htree : IsRadixTree scene items (leafOrder scene items) (built scene items) :=
    built_isRadixTree hne hsize
  have hcollect := collect_spans (built_nested hscene hvalid hsize)
    (built_eachBox hunion hscene hitems) hkeep htree.spans (htree.length_leaves_le hne)
  rw [collectWhere, hcollect, ← flatMap_guard]
  exact htree.flatMap_leaves fun box id => if keep box then [id] else []

omit [OrderedCoord α] in
theorem collectWhere_subset (hbuild : build items = .ok tree) (hsize : items.length ≤ 2 ^ 64)
    (keep : Box α d → Bool) : tree.collectWhere keep ⊆ items.map (·.1) := by
  by_cases hne : items = []
  · subst hne
    cases hbuild
    simp [collectWhere, empty, collect]
  obtain ⟨-, scene, -, rfl⟩ := build_ok hbuild hne
  have htree : IsRadixTree scene items (leafOrder scene items) (built scene items) :=
    built_isRadixTree hne hsize
  have hleaves := htree.flatMap_leaves fun _ id => [id]
  rw [List.map_eq_flatMap]
  exact List.Subset.trans (collect_subset keep htree.spans _) hleaves.subset

/-- An overlap query finds exactly the items whose box meets the box asked
for, each once. -/
theorem query_perm (hbuild : build items = .ok tree) (hsize : items.length ≤ 2 ^ 64)
    (box : Box α d) :
    (tree.query box).Perm ((items.filter fun item => item.2.meets box).map (·.1)) :=
  collectWhere_perm hbuild hsize (P := fun _ => True) (fun _ _ _ _ => trivial)
    (fun _ _ => trivial) fun _ _ _ _ hcovers hmeets => hcovers.meets hmeets

/-- Building never fails over well-formed boxes, and whatever box is asked for,
a malformed one included, the answer is that of a scan over all items. -/
theorem query_matches_scan (items : List (ι × Box α d)) (hsize : items.length ≤ 2 ^ 64)
    (hvalid : ∀ item ∈ items, item.2.isValid = true) :
    ∃ tree, build items = .ok tree ∧ ∀ box : Box α d,
      (tree.query box).Perm ((items.filter fun item => item.2.meets box).map (·.1)) := by
  obtain ⟨tree, hbuild⟩ := exists_build hvalid
  exact ⟨tree, hbuild, query_perm hbuild hsize⟩

theorem query_inverted_box : ∃ tree,
    build [(7, ⟨#v[-Float.inf], #v[Float.inf]⟩), (7, Box.ofPoint #v[0])] = .ok tree ∧
      tree.query ⟨#v[1], #v[-1]⟩ = [7] ∧ tree.query ⟨#v[Float.nan], #v[1]⟩ = [] := by
  obtain ⟨tree, hbuild, hquery⟩ := query_matches_scan
    [(7, ⟨#v[-Float.inf], #v[Float.inf]⟩), (7, Box.ofPoint #v[0])] (by simp) (by decide +kernel)
  refine ⟨tree, hbuild, List.perm_singleton.mp ?_, List.perm_nil.mp ?_⟩
  · exact (hquery ⟨#v[1], #v[-1]⟩).trans (.of_eq (by decide +kernel))
  · exact (hquery ⟨#v[Float.nan], #v[1]⟩).trans (.of_eq (by decide +kernel))

theorem bounds_covers (hbuild : build items = .ok tree) (hsize : items.length ≤ 2 ^ 64) :
    ∀ item ∈ items, ∃ box, tree.bounds = some box ∧ box.Covers item.2 := by
  intro item hitem
  obtain ⟨hvalid, scene, hscene, rfl⟩ := build_ok hbuild (List.ne_nil_of_mem hitem)
  have hne := List.ne_nil_of_mem hitem
  have htree : IsRadixTree scene items (leafOrder scene items) (built scene items) :=
    built_isRadixTree hne hsize
  have hlength : (leafOrder scene items).length = items.length := length_leafOrder
  have hnested := built_nested hscene hvalid hsize
  have hpos := List.length_pos_iff.mpr hne
  obtain ⟨p, hp⟩ := List.getElem?_of_mem hitem
  have hmem : p ∈ leafOrder scene items := by
    rw [htree.perm.mem_iff, List.mem_range]
    exact (List.getElem?_eq_some_iff.mp hp).1
  obtain ⟨j, hj⟩ := List.getElem?_of_mem hmem
  obtain ⟨item', hitem', hleaf⟩ := htree.leaf j p hj
  rw [hp] at hitem'
  cases hitem'
  have hroot : 0 < (built scene items).size := by
    rw [htree.size]
    omega
  have hjlt : j < items.length := by
    rw [← hlength]
    exact (List.getElem?_eq_some_iff.mp hj).1
  obtain ⟨below, hbelow, hcovers⟩ := hnested.covers_leaf htree.spans
    (Array.getElem?_eq_getElem hroot) (items.length - 1 + j)
    (by rw [List.mem_range'_1]; omega)
  rw [hleaf] at hbelow
  cases hbelow
  refine ⟨_, ?_, hcovers⟩
  simp [bounds, Array.getElem?_eq_getElem hroot]

end Built

end Vicinity.Hierarchy
