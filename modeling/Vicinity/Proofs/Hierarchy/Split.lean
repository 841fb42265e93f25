import Mathlib
import Vicinity.Proofs.Hierarchy.Shape
import Vicinity.Proofs.Morton.Interleave

/-!
# Splits at the first difference

A split search looks at nothing but the lengths of common prefixes. In sorted
words these single out one position, and the bits at which the first and the
last word part ways single out the same one: below this position the words have
a zero there and above it a one.
-/

set_option autoImplicit false

namespace Vicinity.Radix

open Hierarchy (sharedBits)
open Morton (exists_testBit_of_lt)

variable {keys : Array UInt64} {first last : Nat}

/-- A common prefix of positions is that of their words. -/
theorem commonPrefix_eq_sharedBits (hs : Sorted keys) {i j : Nat} (hi : i < keys.size)
    (hj : j < keys.size) : commonPrefix keys i j = sharedBits [word keys i, word keys j] := by
  have hpair : ∀ m : Nat, m ≤ 128 → ((m : Int) ≤ commonPrefix keys i j ↔
      ∀ a ∈ [word keys i, word keys j], ∀ b ∈ [word keys i, word keys j],
        a / 2 ^ (128 - m) = b / 2 ^ (128 - m)) := by
    intro m hm
    rw [le_commonPrefix_iff hs hi hj hm]
    simp [eq_comm]
  have h128 := commonPrefix_le hi hj
  obtain ⟨m, hm⟩ := Int.eq_ofNat_of_zero_le (commonPrefix_nonneg hi hj)
  rw [hm, Int.natCast_inj, eq_comm, sharedBits, Nat.findGreatest_eq_iff]
  refine ⟨by omega, fun _ => ?_, fun more hmore hle hall => ?_⟩
  · exact (hpair m (by omega)).mp hm.ge
  · have := (hpair more hle).mpr hall
    omega

structure PartsAt (a b bit : Nat) : Prop where
  differ : a.testBit bit ≠ b.testBit bit
  agree : ∀ higher, bit < higher → a.testBit higher = b.testBit higher

namespace PartsAt

variable {a b bit : Nat}

theorem exists_of_lt (h : a < b) : ∃ bit, PartsAt a b bit := by
  obtain ⟨bit, hlacks, hhas, habove⟩ := exists_testBit_of_lt h
  exact ⟨bit, by simp [hlacks, hhas], habove⟩

theorem div_eq (h : PartsAt a b bit) : a / 2 ^ (bit + 1) = b / 2 ^ (bit + 1) := by
  apply Nat.eq_of_testBit_eq
  intro k
  rw [Nat.testBit_div_two_pow, Nat.testBit_div_two_pow]
  exact h.agree _ (by omega)

theorem lt (h : PartsAt a b bit) (ha : a < 2 ^ 128) (hb : b < 2 ^ 128) : bit < 128 := by
  by_contra hge
  have hhigh : 2 ^ 128 ≤ 2 ^ bit := Nat.pow_le_pow_right (by decide) (not_lt.mp hge)
  apply h.differ
  rw [Nat.testBit_lt_two_pow (ha.trans_le hhigh), Nat.testBit_lt_two_pow (hb.trans_le hhigh)]

/-- Of two words in order the first has a zero where they part. -/
theorem bits (h : PartsAt a b bit) (hab : a ≤ b) :
    a.testBit bit = false ∧ b.testBit bit = true := by
  cases ha : a.testBit bit with
  | false =>
    have hb := h.differ
    rw [ha] at hb
    exact ⟨rfl, by simpa using hb.symm⟩
  | true =>
    have hb : b.testBit bit = false := by
      have hne := h.differ
      rw [ha] at hne
      simpa using hne.symm
    have hlt := Nat.lt_of_testBit bit hb ha fun j hj => (h.agree j hj).symm
    exact absurd hab hlt.not_ge

end PartsAt

theorem div_two_pow_eq (x bit : Nat) :
    x / 2 ^ bit = 2 * (x / 2 ^ (bit + 1)) + (x.testBit bit).toNat := by
  rw [Nat.toNat_testBit, pow_succ, ← Nat.div_div_eq_div_mul]
  omega

theorem word_lt_two_pow (hs : Sorted keys) {i : Nat} (hi : i < keys.size) :
    word keys i < 2 ^ 128 := by
  have hkey := (keyAt keys i).toNat_lt
  have hpos := hi.trans_le hs.size_le
  unfold word
  omega

/-- Between two words that part at a bit, a word shares more with the first one
exactly if it has a zero at this bit. -/
theorem PartsAt.longer_iff {bit : Nat} (h : PartsAt (word keys first) (word keys last) bit)
    (hs : Sorted keys) (hn : last < keys.size) {j : Nat} (hf : first ≤ j) (hl : j ≤ last) :
    commonPrefix keys first last < commonPrefix keys first j ↔
      (word keys j).testBit bit = false := by
  have hfirst : first < keys.size := by omega
  have hj : j < keys.size := by omega
  have hbit := h.lt (word_lt_two_pow hs hfirst) (word_lt_two_pow hs hn)
  have hbelow := word_le hs hf hj
  have habove := word_le hs hl hn
  obtain ⟨hzero, hone⟩ := h.bits (hbelow.trans habove)
  have hsame := h.div_eq
  have hsame' : word keys j / 2 ^ (bit + 1) = word keys first / 2 ^ (bit + 1) := by
    have h1 := Nat.div_le_div_right (c := 2 ^ (bit + 1)) hbelow
    have h2 := Nat.div_le_div_right (c := 2 ^ (bit + 1)) habove
    omega
  have hshared : ((127 - bit : Nat) : Int) ≤ commonPrefix keys first last := by
    rw [le_commonPrefix_iff hs hfirst hn (by omega), show 128 - (127 - bit) = bit + 1 by omega]
    exact hsame
  have hno : ¬ ((128 - bit : Nat) : Int) ≤ commonPrefix keys first last := by
    rw [le_commonPrefix_iff hs hfirst hn (by omega), show 128 - (128 - bit) = bit by omega,
      div_two_pow_eq, div_two_pow_eq (word keys last), hzero, hone, hsame]
    simp
  have hyes : ((128 - bit : Nat) : Int) ≤ commonPrefix keys first j ↔
      (word keys j).testBit bit = false := by
    rw [le_commonPrefix_iff hs hfirst hj (by omega), show 128 - (128 - bit) = bit by omega,
      div_two_pow_eq, div_two_pow_eq (word keys j), hzero, hsame']
    cases (word keys j).testBit bit <;> simp
  rw [← hyes]
  omega

theorem Divides.longer_iff {s : Nat} (h : Divides keys first last s) (hs : Sorted keys)
    (hn : last < keys.size) {j : Nat} (hf : first ≤ j) (hl : j ≤ last) :
    commonPrefix keys first last < commonPrefix keys first j ↔ j ≤ s := by
  have hfirst := h.first_le
  have hlast := h.lt_last
  constructor
  · intro hlonger
    by_contra hbeyond
    have hall := commonPrefix_min hs (by omega : first ≤ s + 1) (by omega : s + 1 ≤ j) (by omega)
    have hno := h.beyond
    omega
  · intro hle
    rcases hf.eq_or_lt with rfl | hlt
    · rw [commonPrefix_self (by omega)]
      exact commonPrefix_lt hs (by omega) hn
    · have hall := commonPrefix_min hs hf hle (by omega)
      have hyes := h.inside (by omega)
      omega

/-- Up to `s`, which is not the last position of a range, all positions of the
range pass a test, and none beyond does. -/
structure SplitsAt (test : Nat → Prop) (first last s : Nat) : Prop where
  first_le : first ≤ s
  lt_last : s < last
  upTo : ∀ j, first ≤ j → j ≤ s → test j
  beyond : ∀ j, s < j → j ≤ last → ¬ test j

theorem splitsAt_iff {test : Nat → Prop} {s : Nat} (hf : first ≤ s) (hl : s < last)
    (h : ∀ j, first ≤ j → j ≤ last → (test j ↔ j ≤ s)) (s' : Nat) :
    SplitsAt test first last s' ↔ s' = s := by
  constructor
  · intro h'
    have hf' := h'.first_le
    have hl' := h'.lt_last
    have hle : s' ≤ s := (h s' hf' (by omega)).mp (h'.upTo s' hf' (le_refl _))
    by_contra hne
    exact h'.beyond (s' + 1) (by omega) (by omega) ((h _ (by omega) (by omega)).mpr (by omega))
  · rintro rfl
    refine ⟨hf, hl, fun j hfj hj => ?_, fun j hj hlj htest => ?_⟩
    · exact (h j hfj (by omega)).mpr hj
    · have := (h j (by omega) hlj).mp htest
      omega

/-- Of any range of sorted keys the split is the only position up to which the
words share more with the first word than the last one does, and beyond which
none does. Where the first and the last word part, it is also the only position
up to which the words have a zero and beyond which they have a one. -/
theorem split_at_first_difference (hs : Sorted keys) (hlt : first < last)
    (hn : last < keys.size) :
    (∀ s, SplitsAt (fun j => sharedBits [word keys first, word keys last] <
        sharedBits [word keys first, word keys j]) first last s ↔ s = split keys first last) ∧
    (∃ bit, PartsAt (word keys first) (word keys last) bit) ∧
    ∀ bit, PartsAt (word keys first) (word keys last) bit → ∀ s,
      SplitsAt (fun j => (word keys j).testBit bit = false) first last s ↔
        s = split keys first last := by
  have hdivides := split_divides hs hlt hn
  have hlonger := fun j => hdivides.longer_iff hs hn (j := j)
  refine ⟨splitsAt_iff hdivides.first_le hdivides.lt_last fun j hf hl => ?_,
    PartsAt.exists_of_lt (word_lt hs hlt hn), fun bit hparts =>
      splitsAt_iff hdivides.first_le hdivides.lt_last fun j hf hl => ?_⟩
  · rw [← hlonger j hf hl, commonPrefix_eq_sharedBits hs (by omega) hn,
      commonPrefix_eq_sharedBits hs (by omega) (by omega), Int.ofNat_lt]
  · rw [← hlonger j hf hl, hparts.longer_iff hs hn hf hl]

def pairedKeys : Array UInt64 := #[3, 3, 8, 9, 9]

theorem pairedKeys_sorted : Sorted pairedKeys := by
  refine ⟨by decide, fun i j hij hj => ?_⟩
  have hj' : j < 5 := hj
  interval_cases j <;> interval_cases i <;> decide

/-- The words of the outer keys part at the bit that 9 has and 3 has not. -/
theorem split_pairedKeys : Sorted pairedKeys ∧
    PartsAt (word pairedKeys 0) (word pairedKeys 4) 67 ∧ split pairedKeys 0 4 = 1 := by
  obtain ⟨-, -, hbits⟩ := split_at_first_difference pairedKeys_sorted
    (show 0 < 4 by decide) (show 4 < pairedKeys.size by decide)
  have hparts : PartsAt (word pairedKeys 0) (word pairedKeys 4) 67 := by
    refine ⟨by decide, fun higher hhigher => ?_⟩
    have hhigh : 2 ^ 68 ≤ 2 ^ higher := Nat.pow_le_pow_right (by decide) hhigher
    have hfirst : word pairedKeys 0 < 2 ^ 68 := by decide
    have hlast : word pairedKeys 4 < 2 ^ 68 := by decide
    rw [Nat.testBit_lt_two_pow (hfirst.trans_le hhigh), Nat.testBit_lt_two_pow (hlast.trans_le hhigh)]
  have hone : SplitsAt (fun j => (word pairedKeys j).testBit 67 = false) 0 4 1 := by
    refine ⟨by decide, by decide, fun j _ hj => ?_, fun j hj hlast => ?_⟩
    · interval_cases j <;> decide
    · interval_cases j <;> decide
  exact ⟨pairedKeys_sorted, hparts, ((hbits 67 hparts 1).mp hone).symm⟩

end Vicinity.Radix
