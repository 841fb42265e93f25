import Mathlib
import Vicinity.Proofs.Hierarchy.Build

/-!
# Walks towards the root

One walk starts at each leaf and tells every branch it reaches that a child is
finished. A branch that learns of its first finished child marks itself and
ends the walk; one that learns of its second is finished, and the walk goes on.
While a walk is under way the news of one node has not reached its parent yet;
but for this node, marks and completed branches say exactly which nodes are
finished. After the last leaf every branch is complete, once and after its
children.
-/

set_option autoImplicit false

namespace Vicinity.Hierarchy

open Radix

variable {keys : Array UInt64}

def branchLinks (keys : Array UInt64) : Array (Nat × Nat) :=
  (Array.range (keys.size - 1)).map (children keys)

theorem size_branchLinks : (branchLinks keys).size = keys.size - 1 := by
  simp [branchLinks]

theorem toList_zipIdx_branchLinks : (branchLinks keys).zipIdx.toList =
    (List.range (keys.size - 1)).map fun i => (children keys i, i) := by
  rw [Array.toList_zipIdx, branchLinks, Array.toList_map, Array.toList_range]
  apply List.ext_getElem
  · simp
  · intro i h h'
    simp

structure Named (keys : Array UInt64) (count : Nat) (ps : Array (Option Nat)) : Prop where
  size : ps.size = 2 * (keys.size - 1) + 1
  parent : ∀ c i, ps.getD c none = some i ↔ i < count ∧ ∃ side, child keys i side = c

theorem Named.start (keys : Array UInt64) :
    Named keys 0 (Array.replicate (2 * (keys.size - 1) + 1) none) where
  size := Array.size_replicate
  parent c i := by
    simp only [Array.getD_eq_getD_getElem?, Array.getElem?_replicate, Nat.not_lt_zero, false_and,
      iff_false]
    split_ifs <;> simp

/-- The next branch tells its children. Nobody overwrites what it said, since
no two branches share a child. -/
theorem Named.step (hs : Sorted keys) {count : Nat} (hcount : count + 1 < keys.size)
    {ps : Array (Option Nat)} (h : Named keys count ps) :
    Named keys (count + 1) ((ps.setIfInBounds (children keys count).1 (some count)).setIfInBounds
      (children keys count).2 (some count)) where
  size := by simpa using h.size
  parent c i := by
    obtain ⟨-, hleft, -, hright⟩ := children_bounds hs hcount
    have hsize := h.size
    have hset : ((ps.setIfInBounds (children keys count).1 (some count)).setIfInBounds
        (children keys count).2 (some count)).getD c none =
          if ∃ side, child keys count side = c then some count else ps.getD c none := by
      simp only [Array.getD_eq_getD_getElem?, Array.getElem?_setIfInBounds, child, Bool.exists_bool]
      grind
    rw [hset]
    split
    · next hchild =>
      obtain ⟨side, hside⟩ := hchild
      constructor
      · intro heq
        cases heq
        exact ⟨count.lt_succ_self, side, hside⟩
      · rintro ⟨hi, side', hside'⟩
        have hsame := child_injective hs hcount (show i + 1 < keys.size by omega)
          (hside.trans hside'.symm)
        rw [hsame.1]
    · next hother =>
      rw [h.parent]
      constructor
      · rintro ⟨hi, hchild⟩
        exact ⟨by omega, hchild⟩
      · rintro ⟨hi, hchild⟩
        rcases Nat.lt_succ_iff_lt_or_eq.mp hi with hi | rfl
        · exact ⟨hi, hchild⟩
        · exact absurd hchild hother

theorem parents_named (hs : Sorted keys) :
    Named keys (keys.size - 1) (parents (branchLinks keys)) := by
  have hfirst : ∀ count ≤ keys.size - 1,
      Named keys count (((List.range count).map fun i => (children keys i, i)).foldl
        (fun ps link => (ps.setIfInBounds link.1.1 (some link.2)).setIfInBounds link.1.2
          (some link.2)) (Array.replicate (2 * (keys.size - 1) + 1) none)) := by
    intro count hcount
    induction count with
    | zero => exact .start keys
    | succ count ih =>
      rw [List.range_succ, List.map_append, List.foldl_append]
      exact (ih (by omega)).step hs (by omega)
  rw [parents, ← Array.foldl_toList, toList_zipIdx_branchLinks, size_branchLinks]
  exact hfirst (keys.size - 1) le_rfl

/-- The parent of a node is the branch that has it as a child. -/
theorem parents_spec (hs : Sorted keys) {c i : Nat} :
    (parents (branchLinks keys)).getD c none = some i ↔
      i + 1 < keys.size ∧ ∃ side, child keys i side = c := by
  rw [(parents_named hs).parent]
  apply and_congr_left
  intro _
  omega

theorem parents_none (hs : Sorted keys) {c : Nat} (hc : c < 2 * keys.size - 1)
    (h : (parents (branchLinks keys)).getD c none = none) : c = 0 := by
  by_contra hne
  obtain ⟨i, side, hi, hside⟩ := exists_child hs (Nat.pos_of_ne_zero hne) hc
  rw [(parents_spec hs).mpr ⟨hi, side, hside⟩] at h
  cases h

def Finished (keys : Array UInt64) (leaves : Nat) (order : List Nat) (c : Nat) : Prop :=
  (keys.size - 1 ≤ c ∧ c < keys.size - 1 + leaves) ∨ c ∈ order

/-- Every branch comes before the branches among its children, so that the
list read from its end has children first. -/
def BottomUp (keys : Array UInt64) : List Nat → Prop
  | [] => True
  | i :: order => (∀ side, child keys i side + 1 < keys.size → child keys i side ∈ order) ∧
      BottomUp keys order

theorem Finished.complete {leaves : Nat} {order : List Nat} {c i : Nat} :
    Finished keys leaves (i :: order) c ↔ c = i ∨ Finished keys leaves order c := by
  rw [Finished, Finished, List.mem_cons, or_left_comm]

theorem Finished.nextLeaf {leaves : Nat} {order : List Nat} {c : Nat} :
    Finished keys (leaves + 1) order c ↔
      c = keys.size - 1 + leaves ∨ Finished keys leaves order c := by
  have hleaf : keys.size - 1 ≤ c ∧ c < keys.size - 1 + (leaves + 1) ↔
      c = keys.size - 1 + leaves ∨ keys.size - 1 ≤ c ∧ c < keys.size - 1 + leaves := by omega
  rw [Finished, Finished, hleaf, or_assoc]

def Known (keys : Array UInt64) (leaves pending : Nat) (order : List Nat) (c : Nat) : Prop :=
  c ≠ pending ∧ Finished keys leaves order c

/-- When one more node is finished, nothing is known that was not finished before. -/
theorem known_iff {leaves leaves' c new : Nat} {order order' : List Nat}
    (hfresh : ¬ Finished keys leaves order new)
    (h : Finished keys leaves' order' c ↔ c = new ∨ Finished keys leaves order c) :
    Known keys leaves' new order' c ↔ Finished keys leaves order c := by
  rw [Known, h]
  constructor
  · rintro ⟨hne, hc⟩
    exact hc.resolve_left hne
  · intro hc
    exact ⟨fun heq => hfresh (heq ▸ hc), .inr hc⟩

/-- What the walks keep while the news that `pending` is finished is on its way
to its parent: a branch is marked when it knows of one finished child, and
complete when it knows of both. The root is nobody's child, so with the root
pending nothing is on its way. -/
structure Climbing (keys : Array UInt64) (leaves pending : Nat) (visited : Array Bool)
    (order : List Nat) : Prop where
  size : visited.size = keys.size - 1
  nodup : order.Nodup
  branches : ∀ i ∈ order, i + 1 < keys.size
  marked : ∀ i, i + 1 < keys.size →
    (visited.getD i true = true ↔ ∃ side, Known keys leaves pending order (child keys i side))
  complete : ∀ i, i + 1 < keys.size →
    (i ∈ order ↔ ∀ side, Known keys leaves pending order (child keys i side))
  bottomUp : BottomUp keys order

/-- Whoever is not the parent of the pending node knows what is finished. -/
theorem known_other (hs : Sorted keys) {leaves : Nat} {order : List Nat} {i j : Nat}
    (hi : i + 1 < keys.size) (hj : j + 1 < keys.size) (hne : j ≠ i) (side side' : Bool) :
    Known keys leaves (child keys i side) order (child keys j side') ↔
      Finished keys leaves order (child keys j side') :=
  and_iff_right (child_ne hs hi hj hne side side')

theorem known_all (hs : Sorted keys) {leaves : Nat} {order : List Nat} {i : Nat}
    (hi : i + 1 < keys.size) (side : Bool) :
    Known keys leaves 0 order (child keys i side) ↔
      Finished keys leaves order (child keys i side) :=
  and_iff_right (child_bounds hs hi side).1.ne'

namespace Climbing

variable {leaves pending : Nat} {visited : Array Bool} {order : List Nat}

theorem length_le (h : Climbing keys leaves pending visited order) :
    order.length ≤ keys.size - 1 := by
  have hsub : order ⊆ List.range (keys.size - 1) := by
    intro i hi
    have := h.branches i hi
    rw [List.mem_range]
    omega
  simpa using (h.nodup.subperm hsub).length_le

/-- The parent learns of its first finished child. -/
theorem mark (hs : Sorted keys) {i : Nat} {side : Bool} (hi : i + 1 < keys.size)
    (h : Climbing keys leaves (child keys i side) visited order)
    (hchild : Finished keys leaves order (child keys i side))
    (hfirst : visited.getD i true = false) :
    Climbing keys leaves 0 (visited.setIfInBounds i true) order := by
  have hnone := fun hmarked => Bool.eq_false_iff.mp hfirst ((h.marked i hi).mpr hmarked)
  have hlt : i < visited.size := by
    rw [h.size]
    omega
  refine ⟨by simpa using h.size, h.nodup, h.branches, fun j hj => ?_, fun j hj => ?_, h.bottomUp⟩
  · simp only [known_all hs hj]
    by_cases hji : j = i
    · subst hji
      simp only [Array.getD_eq_getD_getElem?, Array.getElem?_setIfInBounds_self_of_lt hlt,
        Option.getD_some, true_iff]
      exact ⟨side, hchild⟩
    · rw [Array.getD_eq_getD_getElem?, Array.getElem?_setIfInBounds_ne (Ne.symm hji),
        ← Array.getD_eq_getD_getElem?, h.marked j hj]
      simp only [known_other hs hi hj hji]
  · simp only [known_all hs hj]
    by_cases hji : j = i
    · subst hji
      constructor
      · intro hmem
        exact absurd rfl ((h.complete j hj).mp hmem side).1
      · intro hboth
        refine absurd ⟨!side, fun heq => ?_, hboth !side⟩ hnone
        exact Bool.not_ne_self side (child_injective hs hj hj heq).2
    · rw [h.complete j hj]
      simp only [known_other hs hi hj hji]

/-- The parent learns of its second finished child, and is finished itself. -/
theorem finish (hs : Sorted keys) {i : Nat} {side : Bool} (hi : i + 1 < keys.size)
    (h : Climbing keys leaves (child keys i side) visited order)
    (hchild : Finished keys leaves order (child keys i side))
    (hsecond : visited.getD i true = true) :
    Climbing keys leaves i visited (i :: order) := by
  obtain ⟨other, hother, hfinished⟩ := (h.marked i hi).mp hsecond
  have hboth : ∀ side', Finished keys leaves order (child keys i side') := by
    intro side'
    have hne : other ≠ side := fun heq => hother (heq ▸ rfl)
    by_cases hsame : side' = side
    · rwa [hsame]
    · rwa [Bool.eq_not_of_ne hsame, ← Bool.eq_not_of_ne hne]
  have hfresh : ¬ Finished keys leaves order i := by
    rintro (⟨hleaf, -⟩ | hmem)
    · omega
    · exact ((h.complete i hi).mp hmem side).1 rfl
  refine ⟨h.size, ?_, ?_, fun j hj => ?_, fun j hj => ?_, ?_, h.bottomUp⟩
  · exact List.nodup_cons.mpr ⟨fun hmem => hfresh (.inr hmem), h.nodup⟩
  · intro j hj
    rcases List.mem_cons.mp hj with rfl | hmem
    · exact hi
    · exact h.branches j hmem
  · simp only [known_iff hfresh Finished.complete]
    by_cases hji : j = i
    · subst hji
      exact iff_of_true hsecond ⟨side, hboth side⟩
    · rw [h.marked j hj]
      simp only [known_other hs hi hj hji]
  · simp only [known_iff hfresh Finished.complete, List.mem_cons]
    by_cases hji : j = i
    · subst hji
      exact iff_of_true (.inl rfl) hboth
    · rw [h.complete j hj]
      simp only [hji, false_or, known_other hs hi hj hji]
  · intro side' hbranch
    rcases hboth side' with ⟨hleaf, -⟩ | hmem
    · omega
    · exact hmem

/-- A walk passes the news on until it reaches a branch that did not know of
any finished child, or the root. -/
theorem climb (h : Climbing keys leaves pending visited order) (hs : Sorted keys)
    (hpending : Finished keys leaves order pending) (hbound : pending < 2 * keys.size - 1)
    {steps : Nat} (hsteps : keys.size ≤ steps + order.length) {state : Array Bool × List Nat}
    (hclimb : Hierarchy.climb (parents (branchLinks keys)) steps
      ((parents (branchLinks keys)).getD pending none) (visited, order) = state) :
    Climbing keys leaves 0 state.1 state.2 := by
  induction steps generalizing pending visited order with
  | zero =>
    have := h.length_le
    omega
  | succ steps ih =>
    cases hparent : (parents (branchLinks keys)).getD pending none with
    | none =>
      simp only [hparent, Hierarchy.climb] at hclimb
      subst hclimb
      rwa [parents_none hs hbound hparent] at h
    | some i =>
      obtain ⟨hi, side, rfl⟩ := (parents_spec hs).mp hparent
      rw [hparent, Hierarchy.climb] at hclimb
      split at hclimb
      · next hsecond =>
        have hsteps' : keys.size ≤ steps + (i :: order).length := by
          rw [List.length_cons]
          omega
        exact ih (h.finish hs hi hpending hsecond) (.inr List.mem_cons_self) (by omega) hsteps' hclimb
      · next hfirst =>
        subst hclimb
        exact h.mark hs hi hpending (Bool.eq_false_iff.mpr hfirst)

theorem start (keys : Array UInt64) :
    Climbing keys 0 0 (Array.replicate (keys.size - 1) false) [] := by
  have hnone : ∀ c, ¬ Finished keys 0 [] c := by
    rintro c (⟨h, h'⟩ | h)
    · omega
    · cases h
  refine ⟨Array.size_replicate, .nil, by simp, fun i hi => ?_, fun i hi => ?_, trivial⟩
  · have hlt : i < keys.size - 1 := by omega
    simp [Known, hnone, Array.getD_eq_getD_getElem?, hlt]
  · simp [Known, hnone]

/-- The next leaf is finished, and nobody knows yet. -/
theorem nextLeaf (h : Climbing keys leaves 0 visited order) (hs : Sorted keys) :
    Climbing keys (leaves + 1) (keys.size - 1 + leaves) visited order := by
  have hfresh : ¬ Finished keys leaves order (keys.size - 1 + leaves) := by
    rintro (⟨-, hlt⟩ | hmem)
    · omega
    · have := h.branches _ hmem
      omega
  refine ⟨h.size, h.nodup, h.branches, fun i hi => ?_, fun i hi => ?_, h.bottomUp⟩
  · rw [h.marked i hi]
    simp only [known_all hs hi, known_iff hfresh Finished.nextLeaf]
  · rw [h.complete i hi]
    simp only [known_all hs hi, known_iff hfresh Finished.nextLeaf]

/-- When every leaf is finished, every branch is: below a branch that is not
complete there would be a deeper one. -/
theorem mem_of_all (h : Climbing keys keys.size 0 visited order) (hs : Sorted keys) {i : Nat}
    (hi : i + 1 < keys.size) : i ∈ order := by
  induction hrest : (128 - depth keys i).toNat using Nat.strong_induction_on generalizing i with
  | _ rest ih =>
    rw [h.complete i hi]
    intro side
    rw [known_all hs hi]
    have hlt := (child_bounds hs hi side).2
    by_cases hbranch : child keys i side + 1 < keys.size
    · have hdeeper := depth_lt_side hs hi hbranch
      have hlimit := (depth_bounds hs hbranch).2
      exact .inr (ih _ (by omega) hbranch rfl)
    · exact .inl ⟨by omega, by omega⟩

end Climbing

def walked (keys : Array UInt64) (leaves : Nat) : Array Bool × List Nat :=
  (List.range leaves).foldl
    (fun state leaf => climb (parents (branchLinks keys)) (keys.size - 1 + 1)
      ((parents (branchLinks keys)).getD (keys.size - 1 + leaf) none) state)
    (Array.replicate (keys.size - 1) false, [])

theorem walked_succ (leaves : Nat) : walked keys (leaves + 1) =
    climb (parents (branchLinks keys)) (keys.size - 1 + 1)
      ((parents (branchLinks keys)).getD (keys.size - 1 + leaves) none) (walked keys leaves) := by
  rw [walked, List.range_succ, List.foldl_append]
  rfl

theorem walked_climbing (hs : Sorted keys) {leaves : Nat} (hleaves : leaves ≤ keys.size) :
    Climbing keys leaves 0 (walked keys leaves).1 (walked keys leaves).2 := by
  induction leaves with
  | zero => exact .start keys
  | succ leaves ih =>
    have hbefore := (ih (by omega)).nextLeaf hs
    have hleaf : Finished keys (leaves + 1) (walked keys leaves).2 (keys.size - 1 + leaves) :=
      .inl ⟨by omega, by omega⟩
    exact hbefore.climb hs hleaf (by omega) (by omega) (walked_succ leaves).symm

/-- Refitting takes every branch once, children first. -/
theorem refitOrder_spec (hs : Sorted keys) (hn : 0 < keys.size) :
    (refitOrder (branchLinks keys)).Perm (List.range (keys.size - 1)) ∧
      BottomUp keys (refitOrder (branchLinks keys)).reverse := by
  have horder : refitOrder (branchLinks keys) = (walked keys keys.size).2.reverse := by
    have hcount : keys.size - 1 + 1 = keys.size := by omega
    simp only [refitOrder, walked, size_branchLinks, hcount]
  have hwalked := walked_climbing hs le_rfl
  rw [horder, List.reverse_reverse]
  refine ⟨(List.reverse_perm _).trans ?_, hwalked.bottomUp⟩
  rw [List.perm_ext_iff_of_nodup hwalked.nodup List.nodup_range]
  intro i
  rw [List.mem_range]
  constructor
  · intro hmem
    have := hwalked.branches i hmem
    omega
  · intro hi
    exact hwalked.mem_of_all hs (by omega)

theorem BottomUp.mem_done {order done rest : List Nat} {i : Nat}
    (h : BottomUp keys order.reverse) (horder : order = done ++ i :: rest) {side : Bool}
    (hbranch : child keys i side + 1 < keys.size) : child keys i side ∈ done := by
  subst horder
  induction rest using List.reverseRecOn with
  | nil =>
    rw [List.reverse_append] at h
    exact List.mem_reverse.mp (h.1 side hbranch)
  | append_singleton rest j ih =>
    apply ih
    rw [← List.cons_append, ← List.append_assoc, List.reverse_append] at h
    exact h.2

end Vicinity.Hierarchy
