import Mathlib
import Vicinity.Proofs.Hierarchy.Prefix

/-!
# What a branch covers and where it divides

The two searches of a branch find the far end of its range and the last
position before its split. Both look for the place where a test that was
passed stops being passed, and the tests only ever change once. A block is a
range whose words share more bits with each other than with the words next to
it; branches cover blocks, and the two halves of a block at its split are
blocks or single words.
-/

set_option autoImplicit false

namespace Vicinity.Radix

variable {keys : Array UInt64}

def before (keys : Array UInt64) (i : Nat) : Int := commonPrefix keys i (i - 1)

def after (keys : Array UInt64) (i : Nat) : Int := commonPrefix keys i (i + 1)

theorem before_zero : before keys 0 = -1 := commonPrefix_outside (by omega)

theorem before_succ {i : Nat} (hi : i + 1 < keys.size) :
    before keys (i + 1) = commonPrefix keys i (i + 1 : Nat) := by
  rw [commonPrefix_comm (by omega) hi]
  unfold before
  congr 1
  omega

theorem after_last {i : Nat} (hi : keys.size ≤ i + 1) : after keys i = -1 :=
  commonPrefix_outside (by omega)

theorem after_eq (i : Nat) : after keys i = commonPrefix keys i (i + 1 : Nat) := rfl

theorem neg_one_le_commonPrefix {i : Nat} (hi : i < keys.size) (j : Int) :
    -1 ≤ commonPrefix keys i j := by
  by_cases hj : j < 0 ∨ keys.size ≤ j
  · exact (commonPrefix_outside hj).ge
  · obtain ⟨m, rfl⟩ := Int.eq_ofNat_of_zero_le (show 0 ≤ j by omega)
    have := commonPrefix_nonneg hi (j := m) (by omega)
    omega

/-- Words share less the farther they are apart, in either direction. -/
theorem commonPrefix_antitone (hs : Sorted keys) {i : Nat} (hi : i < keys.size)
    {direction : Int} (hd : direction = 1 ∨ direction = -1) {t u : Nat} (htu : t ≤ u) :
    commonPrefix keys i (i + u * direction) ≤ commonPrefix keys i (i + t * direction) := by
  by_cases hout : (i : Int) + u * direction < 0 ∨ keys.size ≤ (i : Int) + u * direction
  · rw [commonPrefix_outside hout]
    exact neg_one_le_commonPrefix hi _
  · rcases hd with rfl | rfl
    · rw [show (i : Int) + u * 1 = (i + u : Nat) by omega,
        show (i : Int) + t * 1 = (i + t : Nat) by omega,
        commonPrefix_min hs (Nat.le_add_right i t) (by omega) (by omega : i + u < keys.size)]
      exact min_le_left _ _
    · rw [show (i : Int) + u * -1 = (i - u : Nat) by omega,
        show (i : Int) + t * -1 = (i - t : Nat) by omega,
        commonPrefix_comm hi (by omega), commonPrefix_comm hi (by omega),
        commonPrefix_min hs (by omega : i - u ≤ i - t) (Nat.sub_le i t) hi]
      exact min_le_right _ _

/-- Doubling ends beyond the range, at a power of two. -/
theorem reach_spec {i : Nat} (hi : i < keys.size) (direction least : Int)
    (hd : direction = 1 ∨ direction = -1) (hl : -1 ≤ least) (e : Nat) :
    ∃ e', reach keys i direction least (2 ^ e) = 2 ^ e' ∧
      commonPrefix keys i (i + (2 ^ e' : Nat) * direction) ≤ least := by
  -- On how far doubling still is from leaving the array.
  induction h : keys.size + 1 - 2 ^ e using Nat.strong_induction_on generalizing e with
  | _ d ih =>
    have hp : 0 < 2 ^ e := by positivity
    rw [reach]
    split
    · next hc =>
      rw [← pow_succ']
      exact ih _ (by rw [pow_succ]; omega) (e + 1) rfl
    · next hc =>
      refine ⟨e, rfl, ?_⟩
      by_cases hsz : 2 ^ e ≤ keys.size
      · have hx := fun hx => hc ⟨hp, hsz, hx⟩
        exact not_lt.mp hx
      · rw [commonPrefix_outside (by rcases hd with rfl | rfl <;> omega)]
        exact hl

/-- Halving keeps the last passed test between `offset` and `offset + step`. -/
theorem farthest_spec (i : Nat) (direction least : Int) (e : Nat) :
    ∀ offset : Nat, least < commonPrefix keys i (i + offset * direction) →
      commonPrefix keys i (i + (offset + 2 ^ e : Nat) * direction) ≤ least →
      least < commonPrefix keys i
        (i + (farthest keys i direction least offset (2 ^ e) : Nat) * direction) ∧
      commonPrefix keys i
        (i + (farthest keys i direction least offset (2 ^ e) + 1 : Nat) * direction) ≤ least := by
  induction e with
  | zero =>
    intro offset h1 h2
    rw [farthest, if_pos (by decide)]
    exact ⟨h1, h2⟩
  | succ e ih =>
    -- Either half keeps one end where the test passes and one where it fails.
    intro offset h1 h2
    have hp : 0 < 2 ^ e := by positivity
    have hhalf : 2 ^ (e + 1) / 2 = 2 ^ e := by rw [pow_succ]; omega
    rw [farthest, if_neg (by rw [pow_succ]; omega)]
    simp only [hhalf]
    split
    · next hc => exact ih _ hc (by rwa [Nat.add_assoc, ← Nat.two_mul, ← pow_succ'])
    · next hc => exact ih _ h1 (not_lt.mp hc)

def farEnd (keys : Array UInt64) (i : Nat) (direction least : Int) : Nat :=
  farthest keys i direction least 0 (reach keys i direction least 2)

theorem farEnd_spec {i : Nat} (hi : i < keys.size) {direction least : Int}
    (hd : direction = 1 ∨ direction = -1) (hl : -1 ≤ least) (hl' : least < 128) :
    least < commonPrefix keys i (i + (farEnd keys i direction least : Nat) * direction) ∧
      commonPrefix keys i (i + (farEnd keys i direction least + 1 : Nat) * direction) ≤ least := by
  obtain ⟨e, he, hout⟩ := reach_spec hi direction least hd hl 1
  rw [farEnd, show reach keys i direction least 2 = 2 ^ e from he]
  apply farthest_spec
  · simpa [commonPrefix_self hi] using hl'
  · simpa using hout

/-- The far end is the only place where the test changes. -/
theorem farEnd_unique (hs : Sorted keys) {i : Nat} (hi : i < keys.size) {direction least : Int}
    (hd : direction = 1 ∨ direction = -1) (hl : -1 ≤ least) (hl' : least < 128) {t : Nat}
    (h1 : least < commonPrefix keys i (i + t * direction))
    (h2 : commonPrefix keys i (i + (t + 1 : Nat) * direction) ≤ least) :
    farEnd keys i direction least = t := by
  obtain ⟨f1, f2⟩ := farEnd_spec hi hd hl hl'
  rcases lt_trichotomy (farEnd keys i direction least) t with h | h | h
  · have := commonPrefix_antitone hs hi hd (t := farEnd keys i direction least + 1) (u := t) h
    omega
  · exact h
  · have := commonPrefix_antitone hs hi hd (t := t + 1) (u := farEnd keys i direction least) h
    omega

theorem range_forward {i : Nat} (h : before keys i < after keys i) :
    range keys i = (i, i + farEnd keys i 1 (before keys i)) := by
  have hd : (if commonPrefix keys i (i - 1) < commonPrefix keys i (i + 1) then (1 : Int) else -1) =
      1 := if_pos h
  simp only [range, hd]
  change (min i ((i : Int) + farEnd keys i 1 (before keys i) * 1).natAbs,
    max i ((i : Int) + farEnd keys i 1 (before keys i) * 1).natAbs) = _
  ext <;> simp only <;> omega

theorem range_backward {i : Nat} (h : ¬ before keys i < after keys i)
    (hi : farEnd keys i (-1) (after keys i) ≤ i) :
    range keys i = (i - farEnd keys i (-1) (after keys i), i) := by
  have hd : (if commonPrefix keys i (i - 1) < commonPrefix keys i (i + 1) then (1 : Int) else -1) =
      -1 := if_neg h
  simp only [range, hd, Int.sub_neg]
  change (min i ((i : Int) + farEnd keys i (-1) (after keys i) * -1).natAbs,
    max i ((i : Int) + farEnd keys i (-1) (after keys i) * -1).natAbs) = _
  ext <;> simp only <;> omega

/-- A range whose words share more bits than its ends share with the outside. -/
structure Block (keys : Array UInt64) (first last : Nat) : Prop where
  lt : first < last
  bound : last < keys.size
  before_lt : before keys first < commonPrefix keys first last
  after_lt : after keys last < commonPrefix keys first last

namespace Block

variable {first last : Nat}

theorem le_inner (hs : Sorted keys) (b : Block keys first last) {i j : Nat} (hi : first ≤ i)
    (hij : i ≤ j) (hj : j ≤ last) : commonPrefix keys first last ≤ commonPrefix keys i j := by
  have h1 := commonPrefix_min hs hi (hij.trans hj) b.bound
  have h2 := commonPrefix_min hs hij hj b.bound
  omega

theorem beyond_last (hs : Sorted keys) (b : Block keys first last) (h : last + 1 < keys.size) :
    commonPrefix keys first (last + 1 : Nat) = after keys last := by
  rw [commonPrefix_min hs b.lt.le (Nat.le_succ last) h, ← after_eq]
  exact min_eq_right b.after_lt.le

theorem beyond_first (hs : Sorted keys) (b : Block keys first last) (h : 0 < first) :
    commonPrefix keys (first - 1) last = before keys first := by
  have hl := b.lt
  have hn := b.bound
  obtain ⟨f, rfl⟩ := Nat.exists_eq_add_of_lt h
  rw [Nat.zero_add, Nat.add_sub_cancel] at *
  rw [commonPrefix_min hs (Nat.le_succ f) hl.le hn, ← before_succ (by omega)]
  exact min_eq_left b.before_lt.le

/-- The outside shares different numbers of bits with the two ends, unless
there is no outside. -/
theorem before_ne_after (hs : Sorted keys) (b : Block keys first last)
    (h : last + 1 < keys.size) : before keys first ≠ after keys last := by
  have hl := b.lt
  rcases Nat.eq_zero_or_pos first with rfl | hf
  · have := commonPrefix_nonneg (by omega : last < keys.size) h
    rw [before_zero, after_eq]
    omega
  · rw [← b.beyond_first hs hf, after_eq]
    exact commonPrefix_ne hs (by omega) (Nat.lt_succ_self last) h

/-- The branch at the first position covers a block that shares no more with
what follows than with what precedes. -/
theorem range_first (hs : Sorted keys) (b : Block keys first last)
    (h : after keys last ≤ before keys first) : range keys first = (first, last) := by
  have hl := b.lt
  have hn := b.bound
  have hf : first < keys.size := hl.trans hn
  have hnext := b.le_inner hs (le_refl first) (Nat.le_succ first) hl
  have hdir : before keys first < after keys first := b.before_lt.trans_le hnext
  have hfar : farEnd keys first 1 (before keys first) = last - first := by
    apply farEnd_unique hs hf (.inl rfl) (neg_one_le_commonPrefix hf _)
      (b.before_lt.trans_le (commonPrefix_le hf hn))
    · rw [show (first : Int) + (last - first : Nat) * 1 = (last : Nat) by omega]
      exact b.before_lt
    · rw [show (first : Int) + (last - first + 1 : Nat) * 1 = (last + 1 : Nat) by omega]
      by_cases hend : last + 1 < keys.size
      · rw [b.beyond_last hs hend]
        exact h
      · rw [commonPrefix_outside (by omega)]
        exact neg_one_le_commonPrefix hf _
  rw [range_forward hdir, hfar, show first + (last - first) = last by omega]

/-- The branch at the last position covers a block that shares no more with
what precedes than with what follows. -/
theorem range_last (hs : Sorted keys) (b : Block keys first last)
    (h : before keys first ≤ after keys last) : range keys last = (first, last) := by
  have hl := b.lt
  have hn := b.bound
  have hf : first < keys.size := hl.trans hn
  have hprev : commonPrefix keys first last ≤ before keys last := by
    rw [show last = last - 1 + 1 by omega, before_succ (by omega)]
    rw [show last - 1 + 1 = last by omega]
    exact b.le_inner hs (by omega) (Nat.sub_le last 1) (le_refl last)
  have hdir : ¬ before keys last < after keys last := by
    have := b.after_lt
    omega
  have hfar : farEnd keys last (-1) (after keys last) = last - first := by
    apply farEnd_unique hs hn (.inr rfl) (neg_one_le_commonPrefix hn _)
      (b.after_lt.trans_le (commonPrefix_le hf hn))
    · rw [show (last : Int) + (last - first : Nat) * -1 = (first : Nat) by omega,
        commonPrefix_comm hn hf]
      exact b.after_lt
    · by_cases hstart : 0 < first
      · rw [show (last : Int) + (last - first + 1 : Nat) * -1 = (first - 1 : Nat) by omega,
          commonPrefix_comm hn (by omega), b.beyond_first hs hstart]
        exact h
      · rw [commonPrefix_outside (by omega)]
        exact neg_one_le_commonPrefix hn _
  rw [range_backward hdir (by omega), hfar, show last - (last - first) = first by omega]

end Block

/-- What a branch covers: a block that begins or ends at its own position, on
the side where the outside shares more with it. -/
structure Covers (keys : Array UInt64) (i first last : Nat) : Prop where
  block : Block keys first last
  side : (i = first ∧ after keys last ≤ before keys first) ∨
    (i = last ∧ before keys first ≤ after keys last)

theorem covers_forward (hs : Sorted keys) {i : Nat} (hi : i + 1 < keys.size)
    (h : before keys i < after keys i) :
    Covers keys i i (i + farEnd keys i 1 (before keys i)) := by
  have hi' : i < keys.size := by omega
  have hlow : -1 ≤ before keys i := neg_one_le_commonPrefix hi' _
  have hhigh : before keys i < 128 := h.trans_le (commonPrefix_le hi' hi)
  obtain ⟨f1, f2⟩ := farEnd_spec hi' (.inl rfl) hlow hhigh
  have hpos : farEnd keys i 1 (before keys i) ≠ 0 := by
    intro h0
    rw [h0, show (i : Int) + (0 + 1 : Nat) * 1 = (i + 1 : Nat) by omega, ← after_eq] at f2
    omega
  generalize farEnd keys i 1 (before keys i) = t at f1 f2 hpos
  rw [show (i : Int) + t * 1 = (i + t : Nat) by omega] at f1
  rw [show (i : Int) + (t + 1 : Nat) * 1 = (i + t + 1 : Nat) by omega] at f2
  -- Nothing is shared with the outside, so the test fails there.
  have hend : i + t < keys.size := by
    by_contra hout
    rw [commonPrefix_outside (by omega)] at f1
    omega
  have hafter : after keys (i + t) ≤ before keys i := by
    by_cases hlast : i + t + 1 < keys.size
    · rw [commonPrefix_min hs (Nat.le_add_right i t) (Nat.le_succ _) hlast, ← after_eq] at f2
      omega
    · rw [after_last (by omega)]
      exact hlow
  exact ⟨⟨by omega, hend, f1, hafter.trans_lt f1⟩, .inl ⟨rfl, hafter⟩⟩

theorem covers_backward (hs : Sorted keys) {i : Nat} (hi : i + 1 < keys.size)
    (h : ¬ before keys i < after keys i) :
    farEnd keys i (-1) (after keys i) ≤ i ∧
      Covers keys i (i - farEnd keys i (-1) (after keys i)) i := by
  have hi' : i < keys.size := by omega
  have h0 : 0 < i := by
    rcases Nat.eq_zero_or_pos i with rfl | h0
    · have := commonPrefix_nonneg hi' hi
      rw [before_zero, after_eq] at h
      omega
    · exact h0
  have hprev : before keys i = commonPrefix keys (i - 1) i := by
    rw [show i = i - 1 + 1 by omega, before_succ (by omega), Nat.add_sub_cancel]
  have hne : before keys i ≠ after keys i := by
    rw [hprev, after_eq]
    exact commonPrefix_ne hs (by omega) (Nat.lt_succ_self i) hi
  have hlow : 0 ≤ after keys i := commonPrefix_nonneg hi' hi
  have hhigh : after keys i < 128 := commonPrefix_lt hs (Nat.lt_succ_self i) hi
  obtain ⟨f1, f2⟩ := farEnd_spec hi' (.inr rfl) (by omega : -1 ≤ after keys i) hhigh
  have hpos : farEnd keys i (-1) (after keys i) ≠ 0 := by
    intro hz
    rw [hz, show (i : Int) + (0 + 1 : Nat) * -1 = (i - 1 : Nat) by omega,
      commonPrefix_comm hi' (by omega), ← hprev] at f2
    omega
  generalize farEnd keys i (-1) (after keys i) = t at f1 f2 hpos
  have ht : t ≤ i := by
    by_contra hout
    rw [commonPrefix_outside (by omega)] at f1
    omega
  rw [show (i : Int) + t * -1 = (i - t : Nat) by omega, commonPrefix_comm hi' (by omega)] at f1
  have hbefore : before keys (i - t) ≤ after keys i := by
    by_cases hfirst : 0 < i - t
    · rw [show (i : Int) + (t + 1 : Nat) * -1 = (i - t - 1 : Nat) by omega,
        commonPrefix_comm hi' (by omega),
        commonPrefix_min hs (Nat.sub_le (i - t) 1) (Nat.sub_le i t) hi'] at f2
      rw [show i - t = i - t - 1 + 1 by omega, before_succ (by omega),
        show i - t - 1 + 1 = i - t by omega]
      omega
    · rw [show i - t = 0 by omega, before_zero]
      omega
  exact ⟨ht, ⟨by omega, hi', hbefore.trans_lt f1, f1⟩, .inr ⟨rfl, hbefore⟩⟩

theorem range_covers (hs : Sorted keys) {i : Nat} (hi : i + 1 < keys.size) :
    Covers keys i (range keys i).1 (range keys i).2 := by
  by_cases h : before keys i < after keys i
  · rw [range_forward h]
    exact covers_forward hs hi h
  · obtain ⟨hle, hc⟩ := covers_backward hs hi h
    rw [range_backward h hle]
    exact hc

theorem Covers.eq_range (hs : Sorted keys) {i first last : Nat}
    (h : Covers keys i first last) : range keys i = (first, last) := by
  rcases h.side with ⟨rfl, hside⟩ | ⟨rfl, hside⟩
  · exact h.block.range_first hs hside
  · exact h.block.range_last hs hside

theorem Covers.unique (hs : Sorted keys) {i j first last : Nat} (hi : i + 1 < keys.size)
    (hj : j + 1 < keys.size) (h : Covers keys i first last) (h' : Covers keys j first last) :
    i = j := by
  have both : ∀ k, k = last → k + 1 < keys.size → after keys last ≤ before keys first →
      before keys first ≤ after keys last → False := by
    intro k hk hn h1 h2
    exact h.block.before_ne_after hs (by omega) (by omega)
  rcases h.side with ⟨h1, hside⟩ | ⟨h1, hside⟩ <;> rcases h'.side with ⟨h2, hside'⟩ | ⟨h2, hside'⟩
  · omega
  · exact (both j h2 hj hside hside').elim
  · exact (both i h1 hi hside' hside).elim
  · omega

theorem range_injective (hs : Sorted keys) {i j : Nat} (hi : i + 1 < keys.size)
    (hj : j + 1 < keys.size) (h : range keys i = range keys j) : i = j := by
  have hc := range_covers hs hi
  rw [h] at hc
  exact hc.unique hs hi hj (range_covers hs hj)

theorem covers_root (hn : 1 < keys.size) : Covers keys 0 0 (keys.size - 1) := by
  have h0 : (0 : Int) ≤ commonPrefix keys 0 (keys.size - 1 : Nat) :=
    commonPrefix_nonneg (by omega) (by omega)
  have hb : before keys 0 = -1 := before_zero
  have ha : after keys (keys.size - 1) = -1 := after_last (by omega)
  exact ⟨⟨by omega, by omega, by omega, by omega⟩, .inl ⟨rfl, by omega⟩⟩

/-- Halving, rounded up, keeps the last position that agrees with the first
word beyond `common` bits between `split` and `split + step`. -/
theorem splitFrom_spec (hs : Sorted keys) {first last : Nat} (hn : last < keys.size)
    (common : Int) (step : Nat) : ∀ split : Nat, 0 < step → first ≤ split → split < last →
      (first < split → common < commonPrefix keys first split) →
      (split + step < last → commonPrefix keys first (split + step : Nat) ≤ common) →
      first ≤ splitFrom keys first last common split step ∧
      splitFrom keys first last common split step < last ∧
      (first < splitFrom keys first last common split step →
        common < commonPrefix keys first (splitFrom keys first last common split step)) ∧
      (splitFrom keys first last common split step + 1 < last →
        commonPrefix keys first (splitFrom keys first last common split step + 1 : Nat) ≤
          common) := by
  induction step using Nat.strong_induction_on with
  | _ step ih =>
    intro split hpos hle hlt hin hout
    rw [splitFrom]
    -- The candidate is taken exactly if the test still passes there.
    generalize hnew : (if split + (step + 1) / 2 < last ∧
      common < commonPrefix keys first (split + (step + 1) / 2 : Nat)
      then split + (step + 1) / 2 else split) = new
    have hnew' : first ≤ new ∧ new < last ∧
        (first < new → common < commonPrefix keys first new) ∧
        (new + (step + 1) / 2 < last →
          commonPrefix keys first (new + (step + 1) / 2 : Nat) ≤ common) := by
      by_cases hc : split + (step + 1) / 2 < last ∧
          common < commonPrefix keys first (split + (step + 1) / 2 : Nat)
      · rw [if_pos hc] at hnew
        subst hnew
        refine ⟨by omega, hc.1, fun _ => hc.2, fun hlast => ?_⟩
        have hfar := commonPrefix_min hs (by omega : first ≤ split + step)
          (by omega : split + step ≤ split + (step + 1) / 2 + (step + 1) / 2) (by omega)
        have := hout (by omega)
        omega
      · rw [if_neg hc] at hnew
        subst hnew
        exact ⟨hle, hlt, hin, fun hlast => not_lt.mp fun h => hc ⟨hlast, h⟩⟩
    obtain ⟨h1, h2, h3, h4⟩ := hnew'
    split
    · next hsmall =>
      rw [show (step + 1) / 2 = 1 by omega] at h4
      exact ⟨h1, h2, h3, h4⟩
    · next hbig => exact ih _ (by omega) new (by omega) h1 h2 h3 h4

structure Divides (keys : Array UInt64) (first last s : Nat) : Prop where
  first_le : first ≤ s
  lt_last : s < last
  inside : first < s → commonPrefix keys first last < commonPrefix keys first s
  beyond : commonPrefix keys first (s + 1 : Nat) ≤ commonPrefix keys first last

theorem split_divides (hs : Sorted keys) {first last : Nat} (hlt : first < last)
    (hn : last < keys.size) : Divides keys first last (split keys first last) := by
  obtain ⟨h1, h2, h3, h4⟩ := splitFrom_spec hs hn (commonPrefix keys first last)
    (last - first) first (by omega) (le_refl first) hlt (fun h => absurd h (lt_irrefl first))
    (fun h => absurd h (by omega))
  refine ⟨h1, h2, h3, ?_⟩
  by_cases hlast : split keys first last + 1 = last
  · rw [hlast]
  · exact h4 (by unfold split at *; omega)

namespace Divides

variable {first last s : Nat}

/-- At the split the words share exactly what the whole block shares. -/
theorem at_split (hs : Sorted keys) (hn : last < keys.size) (h : Divides keys first last s) :
    after keys s = commonPrefix keys first last := by
  have hl := h.lt_last
  have hall := commonPrefix_min hs (by have := h.first_le; omega : first ≤ s + 1) hl hn
  have hb := h.beyond
  rcases h.first_le.eq_or_lt with rfl | hf
  · rw [after_eq]
    omega
  · have hstep := commonPrefix_min hs hf.le (Nat.le_add_right s 1)
      (by omega : s + 1 < keys.size)
    have := h.inside hf
    rw [after_eq]
    omega

theorem inside_right (hs : Sorted keys) (hn : last < keys.size) (h : Divides keys first last s)
    (hright : s + 1 < last) : commonPrefix keys first last < commonPrefix keys (s + 1) last := by
  have hf := h.first_le
  have hall := commonPrefix_min hs (by omega : first ≤ s + 1) hright.le hn
  have hne := commonPrefix_ne hs (by omega : first < s + 1) hright hn
  have hb := h.beyond
  omega

theorem covers_left (hs : Sorted keys) (b : Block keys first last)
    (h : Divides keys first last s) (hleft : first < s) : Covers keys s first s := by
  have hat := h.at_split hs b.bound
  have hin := h.inside hleft
  have hbefore := b.before_lt
  exact ⟨⟨hleft, h.lt_last.trans b.bound, by omega, by omega⟩, .inr ⟨rfl, by omega⟩⟩

theorem covers_right (hs : Sorted keys) (b : Block keys first last)
    (h : Divides keys first last s) (hright : s + 1 < last) :
    Covers keys (s + 1) (s + 1) last := by
  have hat := h.at_split hs b.bound
  have hin := h.inside_right hs b.bound hright
  have hafter := b.after_lt
  have hn := b.bound
  have hb : before keys (s + 1) = after keys s := before_succ (by omega)
  exact ⟨⟨hright, hn, by omega, by omega⟩, .inl ⟨rfl, by omega⟩⟩

end Divides

end Vicinity.Radix
