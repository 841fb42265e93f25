import Mathlib
import Vicinity.Hierarchy.Radix

/-!
# Common prefixes of sorted words

A key and its position, read as one word of 128 bits, grow strictly along a
sorted list. Common prefixes of such words are decided by neighbours: of three
words in order the outer two share what both inner pairs share, and the two
inner pairs never share the same number of bits. Nothing else is used of
prefixes in the shape of the tree.
-/

set_option autoImplicit false

namespace Vicinity.Radix

def keyAt (keys : Array UInt64) (i : Nat) : UInt64 := keys.getD i 0

/-- The key at a position followed by the position. -/
def word (keys : Array UInt64) (i : Nat) : Nat := (keyAt keys i).toNat * 2 ^ 64 + i

structure Sorted (keys : Array UInt64) : Prop where
  size_le : keys.size ≤ 2 ^ 64
  key_le : ∀ i j, i ≤ j → j < keys.size → keyAt keys i ≤ keyAt keys j

theorem word_lt {keys : Array UInt64} (hs : Sorted keys) {i j : Nat} (hij : i < j)
    (hj : j < keys.size) : word keys i < word keys j := by
  have hk := UInt64.le_iff_toNat_le.mp (hs.key_le i j hij.le hj)
  unfold word
  omega

theorem word_le {keys : Array UInt64} (hs : Sorted keys) {i j : Nat} (hij : i ≤ j)
    (hj : j < keys.size) : word keys i ≤ word keys j := by
  rcases hij.eq_or_lt with rfl | hlt
  · exact le_refl _
  · exact (word_lt hs hlt hj).le

theorem le_leadingZeros_iff {w m : Nat} (hw : w < 2 ^ 64) (hm : m ≤ 64) :
    m ≤ leadingZeros w ↔ w < 2 ^ (64 - m) := by
  unfold leadingZeros
  split
  · next h => simp [h, hm]
  · next h =>
    rw [← Nat.log2_lt h] at hw ⊢
    omega

theorem leadingZeros_le (w : Nat) : leadingZeros w ≤ 64 := by
  unfold leadingZeros
  split <;> omega

theorem xor_lt_two_pow_iff (a b k : Nat) : a ^^^ b < 2 ^ k ↔ a / 2 ^ k = b / 2 ^ k := by
  rw [← Nat.div_eq_zero_iff_lt (by positivity), Nat.xor_div_two_pow, Nat.xor_eq_zero_iff]

theorem word_div_high (keys : Array UInt64) {i : Nat} (hi : i < 2 ^ 64) (k : Nat) :
    word keys i / 2 ^ (64 + k) = (keyAt keys i).toNat / 2 ^ k := by
  rw [pow_add, ← Nat.div_div_eq_div_mul]
  congr 1
  unfold word
  omega

theorem word_div_low (keys : Array UInt64) (i : Nat) {k : Nat} (hk : k ≤ 64) :
    word keys i / 2 ^ k = (keyAt keys i).toNat * 2 ^ (64 - k) + i / 2 ^ k := by
  have hp : 2 ^ 64 = 2 ^ (64 - k) * 2 ^ k := by rw [← pow_add]; congr 1; omega
  rw [word, hp, ← mul_assoc, Nat.add_comm, Nat.add_mul_div_right _ _ (by positivity), Nat.add_comm]

theorem commonPrefix_eq {keys : Array UInt64} {i j : Nat} (hi : i < keys.size)
    (hj : j < keys.size) : commonPrefix keys i j =
      if keyAt keys i = keyAt keys j then 64 + (leadingZeros (i ^^^ j) : Int)
      else leadingZeros ((keyAt keys i).toNat ^^^ (keyAt keys j).toNat) := by
  have hneg : ¬ (j : Int) < 0 := by omega
  have hki : keyAt keys i = keys[i] := by simp [keyAt, hi]
  have hkj : keyAt keys j = keys[j] := by simp [keyAt, hj]
  rw [hki, hkj]
  simp only [commonPrefix, if_neg hneg, Int.toNat_natCast, Array.getElem?_eq_getElem hi,
    Array.getElem?_eq_getElem hj, UInt64.toNat_xor]

/-- What a common prefix measures: words share their first `m` bits if and
only if they agree after division by the power of the remaining bits. -/
theorem le_commonPrefix_iff {keys : Array UInt64} (hs : Sorted keys) {i j m : Nat}
    (hi : i < keys.size) (hj : j < keys.size) (hm : m ≤ 128) :
    (m : Int) ≤ commonPrefix keys i j ↔
      word keys i / 2 ^ (128 - m) = word keys j / 2 ^ (128 - m) := by
  have hi' : i < 2 ^ 64 := hi.trans_le hs.size_le
  have hj' : j < 2 ^ 64 := hj.trans_le hs.size_le
  have hkeys := Nat.xor_lt_two_pow (keyAt keys i).toNat_lt (keyAt keys j).toNat_lt
  rw [commonPrefix_eq hi hj]
  -- Up to 64 bits only the keys matter, and beyond them the keys must be equal.
  rcases le_or_gt m 64 with h | h
  · rw [show 128 - m = 64 + (64 - m) by omega, word_div_high keys hi', word_div_high keys hj']
    split
    · next hk => simp only [hk, iff_true]; omega
    · rw [← xor_lt_two_pow_iff, ← le_leadingZeros_iff hkeys h]
      omega
  · rw [word_div_low keys i (by omega), word_div_low keys j (by omega)]
    have hq : ∀ x, x < 2 ^ 64 → x / 2 ^ (128 - m) < 2 ^ (64 - (128 - m)) := by
      intro x hx
      rw [Nat.div_lt_iff_lt_mul (by positivity), ← pow_add]
      exact hx.trans_le (Nat.pow_le_pow_right (by decide) (by omega))
    split
    · next hk =>
      rw [hk, Nat.add_left_cancel_iff, ← xor_lt_two_pow_iff,
        show 128 - m = 64 - (m - 64) by omega, ← le_leadingZeros_iff (Nat.xor_lt_two_pow hi' hj') (by omega)]
      omega
    · next hk =>
      have hz := leadingZeros_le ((keyAt keys i).toNat ^^^ (keyAt keys j).toNat)
      refine iff_of_false (by omega) fun he => hk (UInt64.toNat_inj.mp ?_)
      have hi2 := hq i hi'
      have hj2 := hq j hj'
      generalize 2 ^ (64 - (128 - m)) = p at he hi2 hj2
      generalize i / 2 ^ (128 - m) = u at he hi2
      generalize j / 2 ^ (128 - m) = v at he hj2
      have hdiv := congrArg (· / p) he
      have hp : 0 < p := by omega
      simpa [Nat.mul_comm _ p, Nat.mul_add_div hp, Nat.div_eq_of_lt hi2,
        Nat.div_eq_of_lt hj2] using hdiv

theorem commonPrefix_nonneg {keys : Array UInt64} {i j : Nat} (hi : i < keys.size)
    (hj : j < keys.size) : 0 ≤ commonPrefix keys i j := by
  rw [commonPrefix_eq hi hj]
  split <;> omega

theorem commonPrefix_le {keys : Array UInt64} {i j : Nat} (hi : i < keys.size)
    (hj : j < keys.size) : commonPrefix keys i j ≤ 128 := by
  have h1 := leadingZeros_le (i ^^^ j)
  have h2 := leadingZeros_le ((keyAt keys i).toNat ^^^ (keyAt keys j).toNat)
  rw [commonPrefix_eq hi hj]
  split <;> omega

theorem commonPrefix_outside {keys : Array UInt64} {i : Nat} {j : Int}
    (hj : j < 0 ∨ keys.size ≤ j) : commonPrefix keys i j = -1 := by
  unfold commonPrefix
  split
  · rfl
  · next h =>
    have hn : keys[j.toNat]? = none := Array.getElem?_eq_none (by omega)
    split <;> simp_all

theorem commonPrefix_self {keys : Array UInt64} {i : Nat} (hi : i < keys.size) :
    commonPrefix keys i i = 128 := by
  simp [commonPrefix_eq hi hi, leadingZeros]

theorem commonPrefix_comm {keys : Array UInt64} {i j : Nat} (hi : i < keys.size)
    (hj : j < keys.size) : commonPrefix keys i j = commonPrefix keys j i := by
  simp only [commonPrefix_eq hi hj, commonPrefix_eq hj hi, Nat.xor_comm, eq_comm]

theorem eq_of_forall_prefix {x y : Int} (hx : 0 ≤ x ∧ x ≤ 128) (hy : 0 ≤ y ∧ y ≤ 128)
    (h : ∀ m : Nat, m ≤ 128 → ((m : Int) ≤ x ↔ (m : Int) ≤ y)) : x = y := by
  have h1 := (h x.toNat (by omega)).mp (by omega)
  have h2 := (h y.toNat (by omega)).mpr (by omega)
  omega

variable {keys : Array UInt64} {i j k : Nat}

theorem commonPrefix_min (hs : Sorted keys) (hij : i ≤ j) (hjk : j ≤ k) (hk : k < keys.size) :
    commonPrefix keys i k = min (commonPrefix keys i j) (commonPrefix keys j k) := by
  have hi : i < keys.size := by omega
  have hj : j < keys.size := by omega
  have hwij := word_le hs hij hj
  have hwjk := word_le hs hjk hk
  have bounds : ∀ a b, a < keys.size → b < keys.size →
      0 ≤ commonPrefix keys a b ∧ commonPrefix keys a b ≤ 128 :=
    fun a b ha hb => ⟨commonPrefix_nonneg ha hb, commonPrefix_le ha hb⟩
  apply eq_of_forall_prefix (bounds i k hi hk)
  · have := bounds i j hi hj
    have := bounds j k hj hk
    omega
  · intro m hm
    rw [le_min_iff, le_commonPrefix_iff hs hi hk hm, le_commonPrefix_iff hs hi hj hm,
      le_commonPrefix_iff hs hj hk hm]
    have h1 := Nat.div_le_div_right (c := 2 ^ (128 - m)) hwij
    have h2 := Nat.div_le_div_right (c := 2 ^ (128 - m)) hwjk
    constructor
    · intro h
      constructor <;> omega
    · intro ⟨h, h'⟩
      omega

theorem commonPrefix_lt (hs : Sorted keys) (hij : i < j) (hj : j < keys.size) :
    commonPrefix keys i j < 128 := by
  have hi : i < keys.size := hij.trans hj
  have hw := word_lt hs hij hj
  by_contra hge
  have he := (le_commonPrefix_iff hs hi hj (le_refl 128)).mp (by omega)
  simp only [Nat.sub_self, pow_zero, Nat.div_one] at he
  omega

/-- Three words in order differ first at different bits: the bit that sets the
first two apart is one in the middle word, the other is zero there. -/
theorem commonPrefix_ne (hs : Sorted keys) (hij : i < j) (hjk : j < k) (hk : k < keys.size) :
    commonPrefix keys i j ≠ commonPrefix keys j k := by
  intro he
  have hi : i < keys.size := by omega
  have hj : j < keys.size := by omega
  have hlt := commonPrefix_lt hs hij hj
  have h0 := commonPrefix_nonneg hi hj
  obtain ⟨m, hm⟩ := Int.eq_ofNat_of_zero_le h0
  have hm' : m + 1 ≤ 128 := by omega
  have share1 := (le_commonPrefix_iff hs hi hj (by omega : m ≤ 128)).mp (by omega)
  have share2 := (le_commonPrefix_iff hs hj hk (by omega : m ≤ 128)).mp (by omega)
  have part1 := mt (le_commonPrefix_iff hs hi hj hm').mpr (by omega)
  have part2 := mt (le_commonPrefix_iff hs hj hk hm').mpr (by omega)
  have hp : 2 ^ (128 - m) = 2 ^ (128 - (m + 1)) * 2 := by
    rw [← pow_succ]
    congr 1
    omega
  have h1 := Nat.div_le_div_right (c := 2 ^ (128 - (m + 1))) (word_lt hs hij hj).le
  have h2 := Nat.div_le_div_right (c := 2 ^ (128 - (m + 1))) (word_lt hs hjk hk).le
  rw [hp, ← Nat.div_div_eq_div_mul, ← Nat.div_div_eq_div_mul] at share1 share2
  omega

end Vicinity.Radix
