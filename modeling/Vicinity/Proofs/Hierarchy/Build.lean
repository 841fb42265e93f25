import Mathlib
import Vicinity.Proofs.Hierarchy.Shape

/-!
# What building gives

Building names the first malformed box or gives a radix tree over all items:
branches before leaves, the root in front, one parent for every other
position, the leaves in the order of keys and positions, and a common prefix
that grows on the way down. Refitting changes boxes of branches only, so the
shape is read off the arena as it is laid out.
-/

set_option autoImplicit false

namespace Vicinity.Hierarchy

open Radix

variable {α ι : Type} {d : Nat} [Coord α]

theorem refitNode_cases (nodes : Array (Node α ι d)) (i : Nat) :
    refitNode nodes i = nodes ∨ ∃ box left right l r,
      nodes[i]? = some ⟨box, .branch left right⟩ ∧ nodes[left]? = some l ∧
      nodes[right]? = some r ∧
      refitNode nodes i = nodes.setIfInBounds i ⟨l.box.union r.box, .branch left right⟩ := by
  unfold refitNode
  split
  · next box left right hi =>
    split
    · next l r hl hr => exact .inr ⟨box, left, right, l, r, hi, hl, hr, rfl⟩
    · exact .inl rfl
  · exact .inl rfl

/-- What every single refit keeps is kept by a sequence of them. -/
theorem foldl_refitNode_induction {P : Array (Node α ι d) → Prop} {nodes : Array (Node α ι d)}
    (h : P nodes) (step : ∀ nodes i, P nodes → P (refitNode nodes i)) (order : List Nat) :
    P (order.foldl refitNode nodes) := by
  induction order generalizing nodes with
  | nil => exact h
  | cons i order ih => exact ih (step nodes i h)

theorem refit_induction {P : Array (Node α ι d) → Prop} {links : Array (Nat × Nat)}
    {nodes : Array (Node α ι d)} (h : P nodes) (step : ∀ nodes i, P nodes → P (refitNode nodes i)) :
    P (refit links nodes) :=
  foldl_refitNode_induction h step (refitOrder links)

theorem refitNode_size (nodes : Array (Node α ι d)) (i : Nat) :
    (refitNode nodes i).size = nodes.size := by
  rcases refitNode_cases nodes i with h | ⟨box, left, right, l, r, -, -, -, h⟩ <;> simp [h]

theorem refitNode_leaf {nodes : Array (Node α ι d)} {j : Nat} {box : Box α d} {id : ι}
    (h : nodes[j]? = some ⟨box, .leaf id⟩) (i : Nat) :
    (refitNode nodes i)[j]? = some ⟨box, .leaf id⟩ := by
  rcases refitNode_cases nodes i with hr | ⟨b, left, right, l, r, hi, -, -, hr⟩
  · rwa [hr]
  · have hne : i ≠ j := by
      rintro rfl
      rw [hi] at h
      cases h
    rw [hr, Array.getElem?_setIfInBounds_ne hne, h]

theorem refitNode_branch {nodes : Array (Node α ι d)} {j left right : Nat} {box : Box α d}
    (h : nodes[j]? = some ⟨box, .branch left right⟩) (i : Nat) :
    ∃ box', (refitNode nodes i)[j]? = some ⟨box', .branch left right⟩ := by
  rcases refitNode_cases nodes i with hr | ⟨b, left', right', l, r, hi, -, -, hr⟩
  · exact ⟨box, by rwa [hr]⟩
  · by_cases hij : i = j
    · subst hij
      rw [hi] at h
      cases h
      obtain ⟨hlt, -⟩ := Array.getElem?_eq_some_iff.mp hi
      exact ⟨l.box.union r.box, by rw [hr, Array.getElem?_setIfInBounds_self_of_lt hlt]⟩
    · exact ⟨box, by rw [hr, Array.getElem?_setIfInBounds_ne hij, h]⟩

theorem Linked.refitNode {keys : Array UInt64} {nodes : Array (Node α ι d)}
    (h : Linked keys nodes) (i : Nat) : Linked keys (refitNode nodes i) where
  size := (refitNode_size nodes i).trans h.size
  branch j hj := by
    obtain ⟨box, hb⟩ := h.branch j hj
    exact refitNode_branch hb i
  leaf j hj := by
    obtain ⟨box, id, hl⟩ := h.leaf j hj
    exact ⟨box, id, refitNode_leaf hl i⟩

def keyLE (a b : UInt64 × Nat) : Bool :=
  decide (a.1 < b.1) || (a.1 == b.1 && decide (a.2 ≤ b.2))

theorem keyLE_iff (a b : UInt64 × Nat) :
    keyLE a b = true ↔ a.1 < b.1 ∨ a.1 = b.1 ∧ a.2 ≤ b.2 := by
  simp [keyLE]

theorem keyLE_trans (a b c : UInt64 × Nat) (hab : keyLE a b = true) (hbc : keyLE b c = true) :
    keyLE a c = true := by
  rw [keyLE_iff] at *
  rcases hab with h | ⟨h, h'⟩ <;> rcases hbc with k | ⟨k, k'⟩
  · exact .inl (UInt64.lt_trans h k)
  · exact .inl (k ▸ h)
  · exact .inl (h ▸ k)
  · exact .inr ⟨h.trans k, h'.trans k'⟩

theorem keyLE_total (a b : UInt64 × Nat) : (keyLE a b || keyLE b a) = true := by
  rw [Bool.or_eq_true, keyLE_iff, keyLE_iff]
  rcases lt_trichotomy a.1.toNat b.1.toNat with h | h | h
  · exact .inl (.inl (UInt64.lt_iff_toNat_lt.mpr h))
  · have he := UInt64.toNat_inj.mp h
    rcases le_total a.2 b.2 with k | k
    · exact .inl (.inr ⟨he, k⟩)
    · exact .inr (.inr ⟨he.symm, k⟩)
  · exact .inr (.inl (UInt64.lt_iff_toNat_lt.mpr h))

section Keyed

variable (scene : Box α d) (boxes : List (Box α d))

theorem keyed_perm : (keyed scene boxes).Perm
    (boxes.zipIdx.map fun (b, i) => (Morton.key scene b.centroid, i)) :=
  List.mergeSort_perm _ _

theorem length_keyed : (keyed scene boxes).length = boxes.length := by
  rw [(keyed_perm scene boxes).length_eq, List.length_map, List.length_zipIdx]

theorem keyed_pairwise : (keyed scene boxes).Pairwise (fun a b => keyLE a b = true) :=
  List.pairwise_mergeSort keyLE_trans keyLE_total _

theorem keyed_positions : ((keyed scene boxes).map (·.2)).Perm (List.range boxes.length) := by
  have h := (keyed_perm scene boxes).map (·.2)
  rw [List.map_map] at h
  rw [List.range_eq_range', ← List.zipIdx_map_snd 0 boxes]
  exact h

variable {scene boxes}

theorem mem_keyed {k : UInt64} {p : Nat} (h : (k, p) ∈ keyed scene boxes) :
    ∃ b, boxes[p]? = some b ∧ k = Morton.key scene b.centroid := by
  obtain ⟨⟨b, i⟩, hb, he⟩ := List.mem_map.mp ((keyed_perm scene boxes).mem_iff.mp h)
  cases he
  exact ⟨b, List.mk_mem_zipIdx_iff_getElem?.mp hb, rfl⟩

theorem keyed_sorted (hsize : boxes.length ≤ 2 ^ 64) :
    Sorted ((keyed scene boxes).map (·.1)).toArray where
  size_le := by simpa [length_keyed] using hsize
  key_le i j hij hj := by
    have hj' : j < (keyed scene boxes).length := by simpa using hj
    have hi' : i < (keyed scene boxes).length := hij.trans_lt hj'
    simp only [keyAt, Array.getD_eq_getD_getElem?, List.getElem?_toArray, List.getElem?_map,
      List.getElem?_eq_getElem hj', List.getElem?_eq_getElem hi', Option.map_some,
      Option.getD_some]
    rcases hij.eq_or_lt with rfl | hlt
    · exact UInt64.le_refl _
    · have hrel := List.pairwise_iff_getElem.mp (keyed_pairwise scene boxes) i j hi' hj' hlt
      rcases (keyLE_iff _ _).mp hrel with h | ⟨h, -⟩
      · exact UInt64.le_of_lt h
      · exact UInt64.le_of_eq h

end Keyed

def itemKey (scene : Box α d) (items : List (ι × Box α d)) (p : Nat) : UInt64 :=
  (items[p]?.map fun item => Morton.key scene item.2.centroid).getD 0

def leafWord (scene : Box α d) (items : List (ι × Box α d)) (order : List Nat) (leaf : Nat) :
    Nat :=
  (itemKey scene items (order.getD (leaf - (items.length - 1)) 0)).toNat * 2 ^ 64 +
    (leaf - (items.length - 1))

/-- A radix tree over items, in one arena. The list `order` holds the position
of the item at every leaf. -/
structure IsRadixTree (scene : Box α d) (items : List (ι × Box α d)) (order : List Nat)
    (nodes : Array (Node α ι d)) : Prop where
  perm : order.Perm (List.range items.length)
  ascending : order.Pairwise fun p q => itemKey scene items p < itemKey scene items q ∨
    itemKey scene items p = itemKey scene items q ∧ p < q
  size : nodes.size = 2 * items.length - 1
  branch : ∀ i, i < items.length - 1 →
    ∃ box left right, nodes[i]? = some ⟨box, .branch left right⟩
  leaf : ∀ j p, order[j]? = some p → ∃ item, items[p]? = some item ∧
    nodes[items.length - 1 + j]? = some ⟨item.2, .leaf item.1⟩
  root : ∀ i, ¬ IsChild nodes i 0
  parent : ∀ c, 0 < c → c < nodes.size → ∃! i, IsChild nodes i c
  spans : Spans nodes 0 (List.range' (items.length - 1) items.length)
  below : ∀ i, i < nodes.size → ∃ leaves, Spans nodes i leaves
  grows : ∀ i c leaves leaves', IsChild nodes i c → c < items.length - 1 →
    Spans nodes i leaves → Spans nodes c leaves' →
    sharedBits (leaves.map (leafWord scene items order)) <
      sharedBits (leaves'.map (leafWord scene items order))
  short : ∀ path : List Nat, path.IsChain (IsChild nodes) →
    (∀ i ∈ path, i < items.length - 1) → path.length ≤ 128

section Built

variable {scene : Box α d} {items : List (ι × Box α d)}

def leafOrder (scene : Box α d) (items : List (ι × Box α d)) : List Nat :=
  (keyed scene (items.map (·.2))).map (·.2)

def leafKeys (scene : Box α d) (items : List (ι × Box α d)) : Array UInt64 :=
  ((keyed scene (items.map (·.2))).map (·.1)).toArray

def laidOut (scene : Box α d) (items : List (ι × Box α d)) : Array (Node α ι d) :=
  arena scene ((Array.range ((leafKeys scene items).size - 1)).map (children (leafKeys scene items)))
    ((keyed scene (items.map (·.2))).filterMap fun (_, position) => items.toArray[position]?)

theorem size_leafKeys : (leafKeys scene items).size = items.length := by
  simp [leafKeys, length_keyed]

theorem leafKeys_sorted (hsize : items.length ≤ 2 ^ 64) : Sorted (leafKeys scene items) :=
  keyed_sorted (by simpa using hsize)

theorem leafOrder_perm : (leafOrder scene items).Perm (List.range items.length) := by
  simpa [leafOrder] using keyed_positions scene (items.map (·.2))

theorem length_leafOrder : (leafOrder scene items).length = items.length := by
  have hperm : (leafOrder scene items).Perm (List.range items.length) := leafOrder_perm
  simpa using hperm.length_eq

theorem keyed_item {kp : UInt64 × Nat} (h : kp ∈ keyed scene (items.map (·.2))) :
    ∃ item, items[kp.2]? = some item ∧ kp.1 = itemKey scene items kp.2 := by
  obtain ⟨b, hb, hk⟩ := mem_keyed h
  rw [List.getElem?_map] at hb
  obtain ⟨item, hitem, rfl⟩ := Option.map_eq_some_iff.mp hb
  exact ⟨item, hitem, by simp [itemKey, hitem, hk]⟩

theorem leafKeys_at {j : Nat} (hj : j < items.length) :
    keyAt (leafKeys scene items) j = itemKey scene items ((leafOrder scene items).getD j 0) := by
  have hj' : j < (keyed scene (items.map (·.2))).length := by simpa [length_keyed] using hj
  obtain ⟨item, -, hk⟩ := keyed_item (List.getElem_mem hj')
  simp [keyAt, leafKeys, leafOrder, List.getD_eq_getElem?_getD, hj', hk]

theorem leafOrder_ascending : (leafOrder scene items).Pairwise fun p q =>
    itemKey scene items p < itemKey scene items q ∨
      itemKey scene items p = itemKey scene items q ∧ p < q := by
  have hnodup : (leafOrder scene items).Nodup :=
    leafOrder_perm.nodup_iff.mpr List.nodup_range
  rw [leafOrder, List.Nodup, List.pairwise_map] at hnodup
  rw [leafOrder, List.pairwise_map]
  apply ((keyed_pairwise scene (items.map (·.2))).and hnodup).imp_of_mem
  rintro a b ha hb ⟨hle, hne⟩
  obtain ⟨-, -, hka⟩ := keyed_item ha
  obtain ⟨-, -, hkb⟩ := keyed_item hb
  rw [← hka, ← hkb]
  rcases (keyLE_iff a b).mp hle with h | ⟨h, h'⟩
  · exact .inl h
  · exact .inr ⟨h, h'.lt_of_ne hne⟩

theorem leaves_getElem? {j p : Nat} (hj : (leafOrder scene items)[j]? = some p) :
    ∃ item, items[p]? = some item ∧
      ((keyed scene (items.map (·.2))).filterMap fun kp => items[kp.2]?)[j]? = some item := by
  rw [leafOrder, List.getElem?_map] at hj
  obtain ⟨kp, hkp, rfl⟩ := Option.map_eq_some_iff.mp hj
  obtain ⟨first, hfirst, -⟩ := keyed_item (List.mem_of_getElem? hkp)
  have hsome : ∀ x ∈ keyed scene (items.map (·.2)),
      items[x.2]? = some ((items[x.2]?).getD first) := by
    intro x hx
    obtain ⟨item, hitem, -⟩ := keyed_item hx
    simp [hitem]
  refine ⟨first, hfirst, ?_⟩
  rw [List.filterMap_congr hsome, List.filterMap_eq_map', List.getElem?_map, hkp,
    Option.map_some, hfirst, Option.getD_some]

theorem laidOut_leaf {j p : Nat} (hj : (leafOrder scene items)[j]? = some p) :
    ∃ item, items[p]? = some item ∧
      (laidOut scene items)[items.length - 1 + j]? = some ⟨item.2, .leaf item.1⟩ := by
  obtain ⟨item, hitem, hleaf⟩ := leaves_getElem? hj
  refine ⟨item, hitem, ?_⟩
  simp [laidOut, arena, size_leafKeys, Array.getElem?_append, hleaf]

theorem laidOut_linked : Linked (leafKeys scene items) (laidOut scene items) where
  size := by
    have hall : ∀ kp ∈ keyed scene (items.map (·.2)), (items.toArray[kp.2]?).isSome := by
      intro kp hkp
      obtain ⟨item, hitem, -⟩ := keyed_item hkp
      simp [hitem]
    have hlen : ((keyed scene (items.map (·.2))).filterMap fun (_, position) =>
        items.toArray[position]?).length = items.length := by
      rw [List.length_filterMap_eq_countP, List.countP_eq_length.mpr hall, length_keyed,
        List.length_map]
    simp only [laidOut, arena, Array.size_append, Array.size_map, Array.size_range,
      List.size_toArray, List.length_map, hlen, size_leafKeys]
    omega
  branch i hi := by
    rw [size_leafKeys] at hi
    have hlt : i < items.length - 1 := by omega
    refine ⟨scene, ?_⟩
    simp [laidOut, arena, size_leafKeys, Array.getElem?_append, hlt]
  leaf j hj := by
    rw [size_leafKeys] at hj
    have hj' : j < (leafOrder scene items).length := by rwa [length_leafOrder]
    obtain ⟨item, -, hleaf⟩ := laidOut_leaf (List.getElem?_eq_getElem hj')
    exact ⟨item.2, item.1, by rw [size_leafKeys]; exact hleaf⟩

def built (scene : Box α d) (items : List (ι × Box α d)) : Array (Node α ι d) :=
  refit ((Array.range ((leafKeys scene items).size - 1)).map (children (leafKeys scene items)))
    (laidOut scene items)

theorem built_linked : Linked (leafKeys scene items) (built scene items) :=
  refit_induction laidOut_linked fun _ i h => h.refitNode i

theorem built_leaf {j p : Nat} (hj : (leafOrder scene items)[j]? = some p) :
    ∃ item, items[p]? = some item ∧
      (built scene items)[items.length - 1 + j]? = some ⟨item.2, .leaf item.1⟩ := by
  obtain ⟨item, hitem, hleaf⟩ := laidOut_leaf hj
  exact ⟨item, hitem, refit_induction (P := fun nodes => nodes[items.length - 1 + j]? = _) hleaf
    fun _ i h => refitNode_leaf h i⟩

theorem leafWord_eq {leaf : Nat} (h : leaf - (items.length - 1) < items.length) :
    leafWord scene items (leafOrder scene items) leaf =
      word (leafKeys scene items) (leaf - (items.length - 1)) := by
  rw [leafWord, word, leafKeys_at h]

/-- The words below a branch share as many bits as its depth says. -/
theorem sharedBits_built (hsize : items.length ≤ 2 ^ 64) {i : Nat} (hi : i < items.length - 1)
    {leaves : List Nat} (h : Spans (built scene items) i leaves) :
    (sharedBits (leaves.map (leafWord scene items (leafOrder scene items))) : Int) =
      depth (leafKeys scene items) i := by
  have hs : Sorted (leafKeys scene items) := leafKeys_sorted hsize
  have hlinked : Linked (leafKeys scene items) (built scene items) := built_linked
  have hkeys : (leafKeys scene items).size = items.length := size_leafKeys
  have hi' : i + 1 < (leafKeys scene items).size := by omega
  have hwords : leaves.map (leafWord scene items (leafOrder scene items)) =
      leaves.map fun leaf => word (leafKeys scene items) (leaf - (items.length - 1)) := by
    apply List.map_congr_left
    intro leaf hleaf
    apply leafWord_eq
    have hspan := hlinked.spans_cover hs (c := i) (by have := hlinked.size; omega)
    rw [cover, if_pos hi'] at hspan
    rw [h.unique hspan, List.mem_range'_1] at hleaf
    have hb := (range_covers hs hi').block
    have hl := hb.lt
    have hn := hb.bound
    omega
  rw [hwords, ← hlinked.sharedBits_spans hs hi' h, hkeys]

theorem built_isRadixTree (hne : items ≠ []) (hsize : items.length ≤ 2 ^ 64) :
    IsRadixTree scene items (leafOrder scene items) (built scene items) := by
  have hs : Sorted (leafKeys scene items) := leafKeys_sorted hsize
  have hlinked : Linked (leafKeys scene items) (built scene items) := built_linked
  have hkeys : (leafKeys scene items).size = items.length := size_leafKeys
  have hpos := List.length_pos_iff.mpr hne
  constructor
  case perm => exact leafOrder_perm
  case ascending => exact leafOrder_ascending
  case size =>
    rw [← hkeys]
    exact hlinked.size
  case branch =>
    intro i hi
    obtain ⟨box, hbox⟩ := hlinked.branch i (by omega)
    exact ⟨box, _, _, hbox⟩
  case leaf =>
    intro j p hj
    exact built_leaf hj
  case root => exact hlinked.root_no_child hs
  case parent =>
    intro c h0 hc
    exact hlinked.parent_unique hs h0 hc
  case spans =>
    have hspan := hlinked.spans_root hs (by omega)
    rwa [hkeys] at hspan
  case below =>
    intro i hi
    exact ⟨_, hlinked.spans_cover hs hi⟩
  case grows =>
    intro i c leaves leaves' hc hlt hi hspan
    have hparent := (hlinked.isChild_iff.mp hc).1
    have hdepth := hlinked.depth_lt_child hs hc (by omega)
    rw [← sharedBits_built hsize (by omega) hi, ← sharedBits_built hsize hlt hspan] at hdepth
    exact_mod_cast hdepth
  case short =>
    intro path hpath hall
    cases path with
    | nil => simp
    | cons i path =>
      have hlength := hlinked.chain_length hs hpath fun c hc => by have := hall c hc; omega
      have hdepth := (depth_bounds hs (i := i) (by have := hall i (by simp); omega)).1
      rw [List.length_cons]
      omega

theorem build_eq_built (hne : items ≠ []) (hv : ∀ item ∈ items, item.2.isValid = true) :
    ∃ scene, Box.unionAll (items.map (·.2)) = some scene ∧
      build items = .ok ⟨built scene items⟩ := by
  have hfind : items.findIdx? (fun item => !item.2.isValid) = none := by
    rw [List.findIdx?_eq_none_iff]
    intro item hitem
    simp [hv item hitem]
  obtain ⟨scene, hscene⟩ : ∃ scene, Box.unionAll (items.map (·.2)) = some scene := by
    cases items with
    | nil => exact absurd rfl hne
    | cons item items => exact ⟨_, rfl⟩
  refine ⟨scene, hscene, ?_⟩
  simp only [build, hfind, hscene]
  rfl

theorem exists_build (h : ∀ item ∈ items, item.2.isValid = true) :
    ∃ tree, build items = .ok tree := by
  by_cases hne : items = []
  · subst hne
    exact ⟨empty, rfl⟩
  · obtain ⟨scene, -, hbuild⟩ := build_eq_built hne h
    exact ⟨_, hbuild⟩

theorem build_error_iff {position : Nat} :
    build items = .error (.invalidVolume position) ↔
      ∃ h : position < items.length, items[position].2.isValid = false ∧
        ∀ j, ∀ hj : j < position, items[j].2.isValid = true := by
  have hfind : build items = .error (.invalidVolume position) ↔
      items.findIdx? (fun item => !item.2.isValid) = some position := by
    unfold build
    split
    · next p hp => simp [hp]
    · next hp => rw [hp]; split <;> simp
  rw [hfind, List.findIdx?_eq_some_iff_getElem]
  simp

end Built

/-- Building over items that fit in memory names the first malformed box, or
gives a radix tree over the scene when there is none. -/
theorem build_gives_radix_tree (items : List (ι × Box α d)) (hne : items ≠ [])
    (hsize : items.length ≤ 2 ^ 64) :
    (∀ position, build items = .error (.invalidVolume position) ↔
      ∃ h : position < items.length, items[position].2.isValid = false ∧
        ∀ j, ∀ hj : j < position, items[j].2.isValid = true) ∧
    ((∀ item ∈ items, item.2.isValid = true) → ∃ scene order tree,
      Box.unionAll (items.map (·.2)) = some scene ∧ build items = .ok tree ∧
        IsRadixTree scene items order tree.nodes) := by
  constructor
  · intro position
    exact build_error_iff
  · intro hvalid
    obtain ⟨scene, hscene, hbuild⟩ := build_eq_built hne hvalid
    exact ⟨scene, _, _, hscene, hbuild, built_isRadixTree hne hsize⟩

/-- Two coinciding points with the same id are two leaves all the same. -/
theorem build_coinciding_points : ∃ scene order tree,
    build [(7, Box.ofPoint #v[(0.5 : Float), 1]), (7, Box.ofPoint #v[0.5, 1])] = .ok tree ∧
      tree.nodes.size = 3 ∧ IsRadixTree scene
        [(7, Box.ofPoint #v[(0.5 : Float), 1]), (7, Box.ofPoint #v[0.5, 1])] order tree.nodes := by
  obtain ⟨-, hvalid⟩ := build_gives_radix_tree
    [(7, Box.ofPoint #v[(0.5 : Float), 1]), (7, Box.ofPoint #v[0.5, 1])] (by simp) (by simp)
  obtain ⟨scene, order, tree, -, hbuild, htree⟩ := hvalid (by decide +kernel)
  exact ⟨scene, order, tree, hbuild, htree.size, htree⟩

end Vicinity.Hierarchy
