import Mathlib
import Vicinity.Proofs.Hierarchy.Split

/-!
# Exact ranges

The range of a branch is all that shares more with the word of the branch than
the lesser of its two neighbours does. The search for its far end needs no
bound: the words that still pass the test lie within the list. Ranges of
different branches differ, and no two of them overlap without one holding the
other.
-/

set_option autoImplicit false

namespace Vicinity.Radix

open Hierarchy (sharedBits)

variable {keys : Array UInt64} {i : Nat}

/-- The doubling as a loop that nothing but its own test ends. -/
inductive Doubles (keys : Array UInt64) (i : Nat) (direction least : Int) : Nat → Nat → Prop where
  | stop {step : Nat} (h : commonPrefix keys i (i + step * direction) ≤ least) :
      Doubles keys i direction least step step
  | double {step final : Nat} (h : least < commonPrefix keys i (i + step * direction))
      (rest : Doubles keys i direction least (2 * step) final) :
      Doubles keys i direction least step final

theorem step_le_size {step : Nat} {direction : Int} (hi : i < keys.size)
    (hd : direction = 1 ∨ direction = -1) {least : Int} (hl : -1 ≤ least)
    (h : least < commonPrefix keys i (i + step * direction)) : step ≤ keys.size := by
  by_contra hlong
  rw [commonPrefix_outside (by rcases hd with rfl | rfl <;> omega)] at h
  omega

/-- Doubling needs no bound. -/
theorem reach_doubles (hi : i < keys.size) {direction least : Int}
    (hd : direction = 1 ∨ direction = -1) (hl : -1 ≤ least) {step : Nat} (hpos : 0 < step) :
    Doubles keys i direction least step (reach keys i direction least step) := by
  fun_induction reach keys i direction least step with
  | case1 step h ih => exact .double h.2.2 (ih (by omega))
  | case2 step h =>
    apply Doubles.stop
    by_contra hmore
    exact h ⟨hpos, step_le_size hi hd hl (not_le.mp hmore), not_le.mp hmore⟩

theorem Doubles.le_twice {direction least : Int} {step final : Nat}
    (h : Doubles keys i direction least step final) (hi : i < keys.size)
    (hd : direction = 1 ∨ direction = -1) (hl : -1 ≤ least) (hstep : step ≤ 2 * keys.size) :
    final ≤ 2 * keys.size := by
  induction h with
  | stop => exact hstep
  | double h _ ih => exact ih (by have := step_le_size hi hd hl h; omega)

theorem exists_offset {direction : Int} (hd : direction = 1 ∨ direction = -1) (i j : Int) :
    (∃ t : Nat, j = i + t * direction) ∨ ∃ t : Nat, 1 ≤ t ∧ j = i + t * -direction := by
  have hside : 0 ≤ (j - i) * direction ∨ 1 ≤ (i - j) * direction := by
    rcases hd with rfl | rfl <;> omega
  rcases hside with h | h
  · exact .inl ⟨((j - i) * direction).toNat, by rcases hd with rfl | rfl <;> omega⟩
  · exact .inr ⟨((i - j) * direction).toNat, by omega, by rcases hd with rfl | rfl <;> omega⟩

/-- The words that share more with a word than its neighbour on one side does
are those on the other side, up to the far end. -/
theorem lt_commonPrefix_iff (hs : Sorted keys) (hi : i < keys.size) {direction : Int}
    (hd : direction = 1 ∨ direction = -1) (hl : commonPrefix keys i (i - direction) < 128)
    (j : Int) : commonPrefix keys i (i - direction) < commonPrefix keys i j ↔
      ∃ t : Nat, t ≤ farEnd keys i direction (commonPrefix keys i (i - direction)) ∧
        j = i + t * direction := by
  obtain ⟨hin, hout⟩ := farEnd_spec hi hd (neg_one_le_commonPrefix hi _) hl
  constructor
  · intro hshares
    rcases exists_offset hd i j with ⟨t, rfl⟩ | ⟨t, ht, rfl⟩
    · refine ⟨t, ?_, rfl⟩
      by_contra hbeyond
      have hless := commonPrefix_antitone hs hi hd (Nat.lt_of_not_le hbeyond)
      exact (hshares.trans_le hless).not_ge hout
    · have hless := commonPrefix_antitone hs hi (show -direction = 1 ∨ -direction = -1 by omega) ht
      rw [Nat.cast_one, one_mul, ← sub_eq_add_neg] at hless
      omega
  · rintro ⟨t, ht, rfl⟩
    exact hin.trans_le (commonPrefix_antitone hs hi hd ht)

/-- A branch covers the words that share more with its own than the neighbour
does that shares less. -/
theorem mem_range_iff (hs : Sorted keys) (hi : i + 1 < keys.size) (j : Int) :
    min (before keys i) (after keys i) < commonPrefix keys i j ↔
      ((range keys i).1 : Int) ≤ j ∧ j ≤ (range keys i).2 := by
  have hi' : i < keys.size := by omega
  by_cases h : before keys i < after keys i
  · have hshares := lt_commonPrefix_iff hs hi' (.inl rfl)
      (h.trans_le (commonPrefix_le hi' hi)) j
    rw [range_forward h, min_eq_left h.le]
    apply hshares.trans
    change (∃ t : Nat, t ≤ farEnd keys i 1 (before keys i) ∧ j = i + t * 1) ↔
      (i : Int) ≤ j ∧ j ≤ (i + farEnd keys i 1 (before keys i) : Nat)
    constructor
    · rintro ⟨t, ht, rfl⟩
      omega
    · intro hj
      exact ⟨(j - i).toNat, by omega, by omega⟩
  · obtain ⟨hle, -⟩ := covers_backward hs hi h
    have hshares := lt_commonPrefix_iff hs hi' (.inr rfl)
      (by rw [sub_neg_eq_add]; exact commonPrefix_lt hs (Nat.lt_succ_self i) hi) j
    rw [range_backward h hle, min_eq_right (not_lt.mp h)]
    apply hshares.trans
    change (∃ t : Nat, t ≤ farEnd keys i (-1) (after keys i) ∧ j = i + t * -1) ↔
      (i - farEnd keys i (-1) (after keys i) : Nat) ≤ j ∧ j ≤ (i : Int)
    constructor
    · rintro ⟨t, ht, rfl⟩
      omega
    · intro hj
      exact ⟨(i - j).toNat, by omega, by omega⟩

theorem Block.not_overlapping (hs : Sorted keys) {first last first' last' : Nat}
    (b : Block keys first last) (b' : Block keys first' last') (h : first < first')
    (hmeet : first' ≤ last) : last' ≤ last := by
  by_contra hlonger
  obtain ⟨f, rfl⟩ := Nat.exists_eq_add_of_lt h
  have hn := b'.bound
  have hbefore := b'.before_lt
  have hafter := b.after_lt
  -- Each block goes on where the other one ends, so each shares less than the other.
  have h1 := b.le_inner hs (Nat.le_add_right first f) (Nat.le_add_right _ 1) hmeet
  have h2 := b'.le_inner hs hmeet (Nat.le_add_right last 1) (by omega)
  rw [before_succ (by omega)] at hbefore
  rw [after_eq] at hafter
  omega

/-- Blocks are nested or disjoint. -/
theorem Block.nested_or_disjoint (hs : Sorted keys) {first last first' last' : Nat}
    (b : Block keys first last) (b' : Block keys first' last') :
    Set.Icc first last ⊆ Set.Icc first' last' ∨ Set.Icc first' last' ⊆ Set.Icc first last ∨
      Disjoint (Set.Icc first last) (Set.Icc first' last') := by
  have h1 := b.not_overlapping hs b'
  have h2 := b'.not_overlapping hs b
  have hlt := b.lt
  have hlt' := b'.lt
  rw [Set.Icc_subset_Icc_iff hlt.le, Set.Icc_subset_Icc_iff hlt'.le, Set.disjoint_left]
  simp only [Set.mem_Icc, not_and, not_le]
  by_cases hdisjoint : last < first' ∨ last' < first
  · exact .inr (.inr fun j hj hj' => by omega)
  · omega

def heading (keys : Array UInt64) (i : Nat) : Int :=
  if before keys i < after keys i then 1 else -1

def threshold (keys : Array UInt64) (i : Nat) : Int := commonPrefix keys i (i - heading keys i)

theorem heading_cases (keys : Array UInt64) (i : Nat) :
    heading keys i = 1 ∨ heading keys i = -1 := by
  unfold heading
  split
  · exact .inl rfl
  · exact .inr rfl

/-- The search of a branch ends with a range. Its step doubles until the test
fails, and halving the step again finds the other end. -/
def SearchEnds (keys : Array UInt64) (i : Nat) (r : Nat × Nat) : Prop :=
  ∃ limit, Doubles keys i (heading keys i) (threshold keys i) 2 limit ∧ limit ≤ 2 * keys.size ∧
    ∃ j, j = ((i : Int) + farthest keys i (heading keys i) (threshold keys i) 0 limit *
      heading keys i).natAbs ∧ r = (min i j, max i j)

theorem range_searchEnds (hi : i < keys.size) (htwo : 2 ≤ keys.size) :
    SearchEnds keys i (range keys i) := by
  have hd := heading_cases keys i
  have hl : -1 ≤ threshold keys i := neg_one_le_commonPrefix hi _
  have hdoubles := reach_doubles hi hd hl (show 0 < 2 by decide)
  exact ⟨_, hdoubles, hdoubles.le_twice hi hd hl (by omega), _, rfl, rfl⟩

def shared (keys : Array UInt64) (i : Nat) (j : Int) : Int :=
  if 0 ≤ j ∧ j < keys.size then sharedBits [word keys i, word keys j.toNat] else -1

theorem commonPrefix_eq_shared (hs : Sorted keys) (hi : i < keys.size) (j : Int) :
    commonPrefix keys i j = shared keys i j := by
  unfold shared
  split
  · next hj =>
    obtain ⟨m, rfl⟩ := Int.eq_ofNat_of_zero_le hj.1
    exact commonPrefix_eq_sharedBits hs hi (by omega)
  · next hj => exact commonPrefix_outside (by omega)

structure Delimits (keys : Array UInt64) (i : Nat) (r : Nat × Nat) : Prop where
  lt : r.1 < r.2
  at_end : i = r.1 ∨ i = r.2
  exact : ∀ j : Int, min (shared keys i (i - 1)) (shared keys i (i + 1)) < shared keys i j ↔
    (r.1 : Int) ≤ j ∧ j ≤ r.2

theorem range_delimits (hs : Sorted keys) (hi : i + 1 < keys.size) :
    Delimits keys i (range keys i) := by
  have hcovers := range_covers hs hi
  refine ⟨hcovers.block.lt, hcovers.side.imp And.left And.left, fun j => ?_⟩
  simp only [← commonPrefix_eq_shared hs (by omega : i < keys.size)]
  exact mem_range_iff hs hi j

def extent (r : Nat × Nat) : Set Nat := Set.Icc r.1 r.2

/-- Every branch of two or more sorted keys finds all that shares more with its
own word than the lesser of its neighbours does, from its own position on in one
direction. The doubling ends without being stopped, at no more than twice the
number of keys. The first branch covers everything, different branches have
different ranges, and any two of them are nested or disjoint. -/
theorem ranges_are_exact (hs : Sorted keys) (htwo : 2 ≤ keys.size) :
    (∀ i : Nat, i < keys.size → ∀ j, commonPrefix keys i j = shared keys i j) ∧
    (∀ i, i < keys.size - 1 → SearchEnds keys i (range keys i) ∧ Delimits keys i (range keys i)) ∧
    range keys 0 = (0, keys.size - 1) ∧
    ∀ i j, i < keys.size - 1 → j < keys.size - 1 → i ≠ j → range keys i ≠ range keys j ∧
      (extent (range keys i) ⊆ extent (range keys j) ∨
        extent (range keys j) ⊆ extent (range keys i) ∨
        Disjoint (extent (range keys i)) (extent (range keys j))) := by
  refine ⟨fun i hi => commonPrefix_eq_shared hs hi, fun i hi => ⟨?_, ?_⟩,
    (covers_root htwo).eq_range hs, fun i j hi hj hne => ⟨fun hsame => ?_, ?_⟩⟩
  · exact range_searchEnds (by omega) htwo
  · exact range_delimits hs (by omega)
  · exact hne (range_injective hs (by omega) (by omega) hsame)
  · exact (range_covers hs (by omega)).block.nested_or_disjoint hs
      (range_covers hs (by omega)).block

theorem ranges_pairedKeys : Sorted pairedKeys ∧ 2 ≤ pairedKeys.size ∧
    range pairedKeys 0 = (0, 4) ∧ range pairedKeys 2 = (2, 4) := by
  obtain ⟨-, hbranches, hroot, -⟩ := ranges_are_exact pairedKeys_sorted (by decide)
  have hexact := (hbranches 2 (by decide)).2.exact
  have hbelow := mt (hexact 1).mpr (by decide +kernel)
  have hown := (hexact 2).mp (by decide +kernel)
  have hlast := (hexact 4).mp (by decide +kernel)
  have houtside := mt (hexact 5).mpr (by decide +kernel)
  exact ⟨pairedKeys_sorted, by decide, hroot, by ext <;> simp only <;> omega⟩

end Vicinity.Radix
