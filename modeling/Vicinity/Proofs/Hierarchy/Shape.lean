import Mathlib
import Vicinity.Hierarchy.Basic
import Vicinity.Proofs.Hierarchy.Range

/-!
# The shape of the tree

Every branch finds its children on its own. Put together they form one tree:
a child covers one side of the split of its parent, so what a position covers
tells its parent and on which side it hangs, and counting gives a parent to
every position but the root. Read from left to right below a branch, the
leaves are the range that it covers.
-/

set_option autoImplicit false

namespace Vicinity

namespace Radix

variable {keys : Array UInt64}

def cover (keys : Array UInt64) (c : Nat) : Nat × Nat :=
  if c + 1 < keys.size then range keys c else (c + 1 - keys.size, c + 1 - keys.size)

def cut (keys : Array UInt64) (i : Nat) : Nat := split keys (range keys i).1 (range keys i).2

def depth (keys : Array UInt64) (i : Nat) : Int :=
  commonPrefix keys (range keys i).1 (range keys i).2

theorem children_eq (keys : Array UInt64) (i : Nat) : children keys i =
    (if cut keys i = (range keys i).1 then keys.size - 1 + cut keys i else cut keys i,
      if cut keys i + 1 = (range keys i).2 then keys.size - 1 + (cut keys i + 1)
      else cut keys i + 1) := rfl

theorem cut_divides (hs : Sorted keys) {i : Nat} (hi : i + 1 < keys.size) :
    Divides keys (range keys i).1 (range keys i).2 (cut keys i) :=
  split_divides hs (range_covers hs hi).block.lt (range_covers hs hi).block.bound

theorem cover_left (hs : Sorted keys) {i : Nat} (hi : i + 1 < keys.size) :
    cover keys (children keys i).1 = ((range keys i).1, cut keys i) := by
  have hb := (range_covers hs hi).block
  have hd := cut_divides hs hi
  have hn := hb.bound
  have hf := hd.first_le
  have hl := hd.lt_last
  rw [children_eq]
  split
  · next h => rw [cover, if_neg (by omega)]; ext <;> simp only <;> omega
  · next h =>
    rw [cover, if_pos (by omega)]
    exact (hd.covers_left hs hb (by omega)).eq_range hs

theorem cover_right (hs : Sorted keys) {i : Nat} (hi : i + 1 < keys.size) :
    cover keys (children keys i).2 = (cut keys i + 1, (range keys i).2) := by
  have hb := (range_covers hs hi).block
  have hd := cut_divides hs hi
  have hn := hb.bound
  have hl := hd.lt_last
  rw [children_eq]
  simp only
  split
  · next h => rw [cover, if_neg (by omega)]; ext <;> simp only <;> omega
  · next h =>
    rw [cover, if_pos (by omega)]
    exact (hd.covers_right hs hb (by omega)).eq_range hs

theorem children_bounds (hs : Sorted keys) {i : Nat} (hi : i + 1 < keys.size) :
    0 < (children keys i).1 ∧ (children keys i).1 < 2 * keys.size - 1 ∧
      0 < (children keys i).2 ∧ (children keys i).2 < 2 * keys.size - 1 := by
  have hn := (range_covers hs hi).block.bound
  have hf := (cut_divides hs hi).first_le
  have hl := (cut_divides hs hi).lt_last
  rw [children_eq]
  refine ⟨?_, ?_, ?_, ?_⟩ <;> simp only <;> split <;> omega

/-- Below a branch that is a child more bits are shared than below its parent. -/
theorem depth_lt_left (hs : Sorted keys) {i : Nat} (hi : i + 1 < keys.size)
    (hc : (children keys i).1 + 1 < keys.size) :
    depth keys i < depth keys (children keys i).1 := by
  have hcover := cover_left hs hi
  have hblock := (range_covers hs hc).block
  rw [cover, if_pos hc] at hcover
  have hlt := hblock.lt
  rw [depth, depth, hcover]
  rw [hcover] at hlt
  exact (cut_divides hs hi).inside hlt

theorem depth_lt_right (hs : Sorted keys) {i : Nat} (hi : i + 1 < keys.size)
    (hc : (children keys i).2 + 1 < keys.size) :
    depth keys i < depth keys (children keys i).2 := by
  have hcover := cover_right hs hi
  have hblock := (range_covers hs hc).block
  rw [cover, if_pos hc] at hcover
  have hlt := hblock.lt
  rw [depth, depth, hcover]
  rw [hcover] at hlt
  exact (cut_divides hs hi).inside_right hs (range_covers hs hi).block.bound hlt

theorem depth_bounds (hs : Sorted keys) {i : Nat} (hi : i + 1 < keys.size) :
    0 ≤ depth keys i ∧ depth keys i < 128 := by
  have hb := (range_covers hs hi).block
  exact ⟨commonPrefix_nonneg (hb.lt.trans hb.bound) hb.bound, commonPrefix_lt hs hb.lt hb.bound⟩

theorem Block.last_unique (hs : Sorted keys) {first last last' : Nat} (b : Block keys first last)
    (b' : Block keys first last')
    (h : commonPrefix keys first last = commonPrefix keys first last') : last = last' := by
  have noLonger : ∀ {l l' : Nat}, Block keys first l → Block keys first l' →
      commonPrefix keys first l = commonPrefix keys first l' → ¬ l < l' := by
    intro l l' b b' h hlt
    have hn := b'.bound
    have h1 := b'.le_inner hs b.lt.le (Nat.le_add_right l 1) hlt
    have h2 := b.after_lt
    rw [after_eq] at h2
    omega
  have h1 := noLonger b b' h
  have h2 := noLonger b' b h.symm
  omega

theorem Block.first_unique (hs : Sorted keys) {first first' last : Nat}
    (b : Block keys first last) (b' : Block keys first' last)
    (h : commonPrefix keys first last = commonPrefix keys first' last) : first = first' := by
  have noLonger : ∀ {f f' : Nat}, Block keys f last → Block keys f' last →
      commonPrefix keys f last = commonPrefix keys f' last → ¬ f' < f := by
    intro f f' b b' h hlt
    have hl := b.lt
    have hn := b.bound
    obtain ⟨g, rfl⟩ := Nat.exists_eq_add_of_lt hlt
    have h1 := b'.le_inner hs (by omega : f' ≤ f' + g) (Nat.le_add_right _ 1) (by omega)
    have h2 := b.before_lt
    rw [before_succ (by omega)] at h2
    omega
  have h1 := noLonger b b' h
  have h2 := noLonger b' b h.symm
  omega

/-- Where the children of a branch stand: the left one for `false`, the right
one for `true`. -/
def child (keys : Array UInt64) (i : Nat) (side : Bool) : Nat :=
  if side then (children keys i).2 else (children keys i).1

theorem child_sides (hs : Sorted keys) {i j : Nat} (hi : i + 1 < keys.size)
    (hj : j + 1 < keys.size) : (children keys i).1 ≠ (children keys j).2 := by
  intro h
  have hcover := (cover_left hs hi).symm.trans ((congrArg (cover keys) h).trans (cover_right hs hj))
  obtain ⟨hfirst, hlast⟩ := Prod.ext_iff.mp hcover
  have hbi := (range_covers hs hi).block
  have hbj := (range_covers hs hj).block
  have hati := (cut_divides hs hi).at_split hs hbi.bound
  have hatj := (cut_divides hs hj).at_split hs hbj.bound
  have h1 := hbi.before_lt
  have h2 := hbj.after_lt
  have hl := (cut_divides hs hj).lt_last
  have hn := hbj.bound
  simp only at hfirst hlast
  have hbefore : before keys (range keys i).1 = after keys (cut keys j) := by
    rw [hfirst, before_succ (by omega), after_eq]
  rw [hlast] at hati
  omega

theorem child_injective (hs : Sorted keys) {i j : Nat} (hi : i + 1 < keys.size)
    (hj : j + 1 < keys.size) {side side' : Bool} (h : child keys i side = child keys j side') :
    i = j ∧ side = side' := by
  have hci := range_covers hs hi
  have hcj := range_covers hs hj
  have hati := (cut_divides hs hi).at_split hs hci.block.bound
  have hatj := (cut_divides hs hj).at_split hs hcj.block.bound
  cases side <;> cases side' <;> simp only [child, if_true, if_false, Bool.false_eq_true] at h
  · have hcover := (cover_left hs hi).symm.trans ((congrArg (cover keys) h).trans (cover_left hs hj))
    obtain ⟨hfirst, hcut⟩ := Prod.ext_iff.mp hcover
    simp only at hfirst hcut
    refine ⟨?_, rfl⟩
    rw [hfirst] at hci hati
    have hlast := hci.block.last_unique hs hcj.block (by rw [← hati, ← hatj, hcut])
    rw [hlast] at hci
    exact hci.unique hs hi hj hcj
  · exact (child_sides hs hi hj h).elim
  · exact (child_sides hs hj hi h.symm).elim
  · have hcover := (cover_right hs hi).symm.trans
      ((congrArg (cover keys) h).trans (cover_right hs hj))
    obtain ⟨hcut, hlast⟩ := Prod.ext_iff.mp hcover
    simp only at hcut hlast
    refine ⟨?_, rfl⟩
    rw [hlast] at hci hati
    have hfirst := hci.block.first_unique hs hcj.block (by
      rw [← hati, ← hatj, show cut keys i = cut keys j by omega])
    rw [hfirst] at hci
    exact hci.unique hs hi hj hcj

theorem child_bounds (hs : Sorted keys) {i : Nat} (hi : i + 1 < keys.size) (side : Bool) :
    0 < child keys i side ∧ child keys i side < 2 * keys.size - 1 := by
  obtain ⟨h1, h2, h3, h4⟩ := children_bounds hs hi
  cases side
  · exact ⟨h1, h2⟩
  · exact ⟨h3, h4⟩

theorem child_ne (hs : Sorted keys) {i j : Nat} (hi : i + 1 < keys.size) (hj : j + 1 < keys.size)
    (h : j ≠ i) (side side' : Bool) : child keys j side' ≠ child keys i side := by
  intro heq
  exact h (child_injective hs hj hi heq).1

theorem depth_lt_side (hs : Sorted keys) {i : Nat} (hi : i + 1 < keys.size) {side : Bool}
    (hbranch : child keys i side + 1 < keys.size) :
    depth keys i < depth keys (child keys i side) := by
  cases side
  · exact depth_lt_left hs hi hbranch
  · exact depth_lt_right hs hi hbranch

/-- Children fill all positions but the root: there are as many of them. -/
theorem exists_child (hs : Sorted keys) {c : Nat} (h0 : 0 < c) (hc : c < 2 * keys.size - 1) :
    ∃ i side, i + 1 < keys.size ∧ child keys i side = c := by
  -- There is one slot for each side of a branch and one for each position but the root.
  let slot : Fin (keys.size - 1) × Bool → Fin (2 * (keys.size - 1)) := fun x =>
    ⟨child keys x.1 x.2 - 1, by
      have hbounds := child_bounds hs (show x.1.val + 1 < keys.size by omega) x.2
      omega⟩
  have hinj : Function.Injective slot := by
    intro x y hxy
    have hx := child_bounds hs (show x.1.val + 1 < keys.size by omega) x.2
    have hy := child_bounds hs (show y.1.val + 1 < keys.size by omega) y.2
    have hsame := congrArg Fin.val hxy
    simp only [slot] at hsame
    obtain ⟨h1, h2⟩ := child_injective hs (by omega) (by omega)
      (show child keys x.1 x.2 = child keys y.1 y.2 by omega)
    exact Prod.ext (Fin.ext h1) h2
  have hsurj : Function.Surjective slot :=
    ((Fintype.bijective_iff_injective_and_card slot).mpr ⟨hinj, by simp; omega⟩).2
  obtain ⟨x, hx⟩ := hsurj ⟨c - 1, by omega⟩
  have hb := child_bounds hs (show x.1.val + 1 < keys.size by omega) x.2
  have hval := congrArg Fin.val hx
  simp only [slot] at hval
  exact ⟨x.1, x.2, by omega, by omega⟩

end Radix

namespace Hierarchy

open Radix

variable {α ι : Type} {d : Nat}

inductive Spans (nodes : Array (Node α ι d)) : Nat → List Nat → Prop where
  | leaf {i : Nat} {box : Box α d} {id : ι} (h : nodes[i]? = some ⟨box, .leaf id⟩) :
      Spans nodes i [i]
  | branch {i left right : Nat} {box : Box α d} {ls rs : List Nat}
      (h : nodes[i]? = some ⟨box, .branch left right⟩)
      (hl : Spans nodes left ls) (hr : Spans nodes right rs) : Spans nodes i (ls ++ rs)

theorem Spans.unique {nodes : Array (Node α ι d)} {i : Nat} {ls ls' : List Nat}
    (h : Spans nodes i ls) (h' : Spans nodes i ls') : ls = ls' := by
  induction h generalizing ls' with
  | leaf hi =>
    cases h' with
    | leaf hi' => rfl
    | branch hi' hl hr => rw [hi] at hi'; cases hi'
  | branch hi hl hr ihl ihr =>
    cases h' with
    | leaf hi' => rw [hi] at hi'; cases hi'
    | branch hi' hl' hr' =>
      rw [hi] at hi'
      cases hi'
      rw [ihl hl', ihr hr']

def IsChild (nodes : Array (Node α ι d)) (parent child : Nat) : Prop :=
  ∃ box left right, nodes[parent]? = some ⟨box, .branch left right⟩ ∧
    (child = left ∨ child = right)

def sharedBits (words : List Nat) : Nat :=
  Nat.findGreatest (fun m => ∀ a ∈ words, ∀ b ∈ words, a / 2 ^ (128 - m) = b / 2 ^ (128 - m)) 128

structure Linked (keys : Array UInt64) (nodes : Array (Node α ι d)) : Prop where
  size : nodes.size = 2 * keys.size - 1
  branch : ∀ i, i + 1 < keys.size →
    ∃ box, nodes[i]? = some ⟨box, .branch (children keys i).1 (children keys i).2⟩
  leaf : ∀ j, j < keys.size → ∃ box id, nodes[keys.size - 1 + j]? = some ⟨box, .leaf id⟩

namespace Linked

variable {keys : Array UInt64} {nodes : Array (Node α ι d)}

theorem isChild_iff (h : Linked keys nodes) {i c : Nat} :
    IsChild nodes i c ↔ i + 1 < keys.size ∧ ∃ side, child keys i side = c := by
  constructor
  · rintro ⟨box, left, right, hi, hc⟩
    have hlt : i + 1 < keys.size := by
      by_contra hge
      obtain ⟨hin, -⟩ := Array.getElem?_eq_some_iff.mp hi
      have hsize := h.size
      obtain ⟨b, id, hl⟩ := h.leaf (i - (keys.size - 1)) (by omega)
      rw [show keys.size - 1 + (i - (keys.size - 1)) = i by omega, hi] at hl
      cases hl
    obtain ⟨b, hb⟩ := h.branch i hlt
    rw [hb] at hi
    cases hi
    refine ⟨hlt, ?_⟩
    rcases hc with rfl | rfl
    · exact ⟨false, rfl⟩
    · exact ⟨true, rfl⟩
  · rintro ⟨hi, side, rfl⟩
    obtain ⟨b, hb⟩ := h.branch i hi
    refine ⟨b, _, _, hb, ?_⟩
    cases side
    · exact .inl rfl
    · exact .inr rfl

theorem parent_unique (h : Linked keys nodes) (hs : Sorted keys) {c : Nat} (h0 : 0 < c)
    (hc : c < nodes.size) : ∃! i, IsChild nodes i c := by
  obtain ⟨i, side, hi, hside⟩ := exists_child hs h0 (h.size ▸ hc)
  refine ⟨i, h.isChild_iff.mpr ⟨hi, side, hside⟩, fun j hj => ?_⟩
  obtain ⟨hj, side', hside'⟩ := h.isChild_iff.mp hj
  exact (child_injective hs hj hi (hside'.trans hside.symm)).1

theorem root_no_child (h : Linked keys nodes) (hs : Sorted keys) (i : Nat) :
    ¬ IsChild nodes i 0 := by
  intro hc
  obtain ⟨hi, side, hside⟩ := h.isChild_iff.mp hc
  exact (child_bounds hs hi side).1.ne' hside

/-- Below every position stand the leaves of the words that it covers. -/
theorem spans_cover (h : Linked keys nodes) (hs : Sorted keys) {c : Nat} (hc : c < nodes.size) :
    Spans nodes c (List.range' (keys.size - 1 + (cover keys c).1)
      ((cover keys c).2 + 1 - (cover keys c).1)) := by
  have hsize := h.size
  -- Both children cover less than their parent.
  induction hlen : (cover keys c).2 - (cover keys c).1 using Nat.strong_induction_on
    generalizing c with
  | _ len ih =>
    by_cases hi : c + 1 < keys.size
    · obtain ⟨box, hnode⟩ := h.branch c hi
      have hb := (range_covers hs hi).block
      have hd := cut_divides hs hi
      have hf := hd.first_le
      have hl := hd.lt_last
      have hbounds := children_bounds hs hi
      have hleft := cover_left hs hi
      have hright := cover_right hs hi
      rw [cover, if_pos hi] at hlen ⊢
      have spanL := ih _ (by rw [hleft]; simp only; omega) (c := (children keys c).1) (by omega) rfl
      have spanR := ih _ (by rw [hright]; simp only; omega) (c := (children keys c).2) (by omega) rfl
      rw [hleft] at spanL
      rw [hright] at spanR
      have happ := Spans.branch hnode spanL spanR
      simp only at happ
      rw [show keys.size - 1 + (cut keys c + 1) =
          keys.size - 1 + (range keys c).1 + (cut keys c + 1 - (range keys c).1) by omega,
        List.range'_append_1] at happ
      rwa [show cut keys c + 1 - (range keys c).1 + ((range keys c).2 + 1 - (cut keys c + 1)) =
        (range keys c).2 + 1 - (range keys c).1 by omega] at happ
    · obtain ⟨box, id, hnode⟩ := h.leaf (c + 1 - keys.size) (by omega)
      rw [show keys.size - 1 + (c + 1 - keys.size) = c by omega] at hnode
      rw [cover, if_neg hi]
      simp only
      rw [show keys.size - 1 + (c + 1 - keys.size) = c by omega, Nat.add_sub_cancel_left]
      exact .leaf hnode

theorem spans_root (h : Linked keys nodes) (hs : Sorted keys) (hn : 0 < keys.size) :
    Spans nodes 0 (List.range' (keys.size - 1) keys.size) := by
  have hspan := h.spans_cover hs (c := 0) (by have := h.size; omega)
  have hcover : cover keys 0 = (0, keys.size - 1) := by
    by_cases h1 : 0 + 1 < keys.size
    · rw [cover, if_pos h1]
      exact (covers_root h1).eq_range hs
    · rw [cover, if_neg h1]
      ext <;> simp only <;> omega
  rw [hcover] at hspan
  simp only at hspan
  rwa [show keys.size - 1 + 1 - 0 = keys.size by omega] at hspan

/-- What the words below a branch have in common is what the ends of its
range have in common. -/
theorem sharedBits_spans (h : Linked keys nodes) (hs : Sorted keys) {i : Nat}
    (hi : i + 1 < keys.size) {ls : List Nat} (hls : Spans nodes i ls) :
    (sharedBits (ls.map fun leaf => word keys (leaf - (keys.size - 1))) : Int) = depth keys i := by
  have hb := (range_covers hs hi).block
  have hl := hb.lt
  have hn := hb.bound
  obtain ⟨h0, h128⟩ := depth_bounds hs hi
  have hspan := h.spans_cover hs (c := i) (by have := h.size; omega)
  rw [cover, if_pos hi] at hspan
  rw [hls.unique hspan]
  obtain ⟨m, hm⟩ := Int.eq_ofNat_of_zero_le h0
  rw [hm, Int.natCast_inj, sharedBits, Nat.findGreatest_eq_iff]
  have hmem : ∀ j, (range keys i).1 ≤ j → j ≤ (range keys i).2 → word keys j ∈
      (List.range' (keys.size - 1 + (range keys i).1)
        ((range keys i).2 + 1 - (range keys i).1)).map
          fun leaf => word keys (leaf - (keys.size - 1)) := by
    intro j h1 h2
    refine List.mem_map.mpr ⟨keys.size - 1 + j, ?_, by rw [Nat.add_sub_cancel_left]⟩
    rw [List.mem_range'_1]
    omega
  refine ⟨by omega, fun _ => ?_, fun more hmore hle hall => ?_⟩
  · -- Everything in between agrees with the first word as far as the last one does.
    have agree : ∀ a ∈ (List.range' (keys.size - 1 + (range keys i).1)
        ((range keys i).2 + 1 - (range keys i).1)).map
          fun leaf => word keys (leaf - (keys.size - 1)),
        a / 2 ^ (128 - m) = word keys (range keys i).1 / 2 ^ (128 - m) := by
      intro a ha
      obtain ⟨leaf, hleaf, rfl⟩ := List.mem_map.mp ha
      rw [List.mem_range'_1] at hleaf
      have hin := hb.le_inner hs (le_refl _) (by omega : (range keys i).1 ≤ leaf - (keys.size - 1))
        (by omega)
      exact ((le_commonPrefix_iff hs (by omega) (by omega) (by omega)).mp
        (by rw [← hm]; exact hin)).symm
    intro a ha b hb
    rw [agree a ha, agree b hb]
  · have hends := hall _ (hmem _ (le_refl _) hl.le) _ (hmem _ hl.le (le_refl _))
    have hpre := (le_commonPrefix_iff hs (by omega) hn hle).mpr hends
    have : depth keys i = commonPrefix keys (range keys i).1 (range keys i).2 := rfl
    omega

theorem depth_lt_child (h : Linked keys nodes) (hs : Sorted keys) {i c : Nat}
    (hc : IsChild nodes i c) (hbranch : c + 1 < keys.size) : depth keys i < depth keys c := by
  obtain ⟨hi, side, rfl⟩ := h.isChild_iff.mp hc
  exact depth_lt_side hs hi hbranch

/-- A chain of branches is no longer than the bits that are left to share. -/
theorem chain_length (h : Linked keys nodes) (hs : Sorted keys) {i : Nat} {path : List Nat}
    (hpath : (i :: path).IsChain (IsChild nodes)) (hall : ∀ c ∈ i :: path, c + 1 < keys.size) :
    (path.length : Int) + depth keys i < 128 := by
  induction path generalizing i with
  | nil =>
    have := (depth_bounds hs (hall i (by simp))).2
    simpa using this
  | cons c path ih =>
    rw [List.isChain_cons_cons] at hpath
    have hstep := h.depth_lt_child hs hpath.1 (hall c (by simp))
    have hrest := ih hpath.2 fun x hx => hall x (by simp [hx])
    rw [List.length_cons]
    push_cast
    omega

end Linked

end Hierarchy

end Vicinity
