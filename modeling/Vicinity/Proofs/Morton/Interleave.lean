import Mathlib
import Vicinity.Morton

/-!
# Interleaved bits

A key is read through its bits: bit `b` of the cell on axis `i` stands at
`b * d + i`, and there is nothing else in it. The loop over bits and axes makes
such a word, and so do the five rounds for three axes, each of which cuts the
blocks of bits in half and moves the upper halves apart.
-/

set_option autoImplicit false

namespace Vicinity.Morton

variable {d : Nat}

/-- A word that holds bit `b` of the cell on axis `i` at `b * d + i`, for the
low bits of all cells, and nothing else. -/
def Interleaved (cells : Vector UInt64 d) (bits : Nat) (key : UInt64) : Prop :=
  ∀ k, key.toNat.testBit k = true ↔
    ∃ b < bits, ∃ i : Fin d, b * d + i = k ∧ (cells.get i).toNat.testBit b = true

theorem Interleaved.unique {cells : Vector UInt64 d} {bits : Nat} {key key' : UInt64}
    (h : Interleaved cells bits key) (h' : Interleaved cells bits key') : key = key' := by
  apply UInt64.toNat_inj.mp
  apply Nat.eq_of_testBit_eq
  intro k
  exact Bool.eq_iff_iff.mpr ((h k).trans (h' k).symm)

/-- The bits of cells above the low ones are not looked at. -/
theorem Interleaved.congr {cells cells' : Vector UInt64 d} {bits : Nat} {key : UInt64}
    (h : Interleaved cells bits key) (hsame : ∀ i, ∀ b < bits,
      (cells'.get i).toNat.testBit b = (cells.get i).toNat.testBit b) :
    Interleaved cells' bits key := by
  intro k
  rw [h k]
  constructor
  · rintro ⟨b, hb, i, hk, hbit⟩
    exact ⟨b, hb, i, hk, by rwa [hsame i b hb]⟩
  · rintro ⟨b, hb, i, hk, hbit⟩
    exact ⟨b, hb, i, hk, by rwa [← hsame i b hb]⟩

/-- A place in a word belongs to one axis and one bit of its cell. -/
theorem bitPlace_unique {b b' : Nat} {i i' : Fin d} (h : b * d + i = b' * d + i') :
    b = b' ∧ i = i' := by
  have hi : i = i' := by
    apply Fin.ext
    have hmod := congrArg (· % d) h
    simpa only [Nat.mul_add_mod_of_lt i.isLt, Nat.mul_add_mod_of_lt i'.isLt] using hmod
  subst hi
  exact ⟨Nat.eq_of_mul_eq_mul_right i.pos (Nat.add_right_cancel h), rfl⟩

theorem bitPlace_lt {b bits : Nat} (hb : b < bits) (i : Fin d) : b * d + i < bits * d := by
  have hnext : (b + 1) * d ≤ bits * d := Nat.mul_le_mul_right d hb
  rw [Nat.succ_mul] at hnext
  omega

/-- Of two different words the larger one has a bit that the other lacks, above
which they agree. -/
theorem exists_testBit_of_lt {m n : Nat} (h : m < n) :
    ∃ k, m.testBit k = false ∧ n.testBit k = true ∧ ∀ j > k, m.testBit j = n.testBit j := by
  obtain ⟨k, hk, habove⟩ := Nat.exists_most_significant_bit (Nat.xor_ne_zero_iff.mpr h.ne)
  have hagree : ∀ j > k, m.testBit j = n.testBit j := by
    intro j hj
    have hsame := habove j hj
    rw [Nat.testBit_xor] at hsame
    simpa using hsame
  rw [Nat.testBit_xor] at hk
  cases hm : m.testBit k with
  | false => exact ⟨k, hm, by simpa [hm] using hk, hagree⟩
  | true =>
    have hn : n.testBit k = false := by simpa [hm] using hk
    exact absurd (Nat.lt_of_testBit k hn hm fun j hj => (hagree j hj).symm) h.not_gt

theorem testBit_shifted (x : UInt64) {s : Nat} (hs : s < 64) (k : Nat) :
    (x <<< UInt64.ofNat s).toNat.testBit k = true ↔
      k < 64 ∧ s ≤ k ∧ x.toNat.testBit (k - s) = true := by
  have hshift : (UInt64.ofNat s).toNat % 64 = s := by
    rw [UInt64.toNat_ofNat']
    omega
  rw [UInt64.toNat_shiftLeft, hshift, Nat.testBit_mod_two_pow, Nat.testBit_shiftLeft]
  simp only [Bool.and_eq_true, decide_eq_true_eq, ge_iff_le]

section Loop

theorem testBit_lowest (x : UInt64) {b : Nat} (hb : b < 64) (k : Nat) :
    ((x >>> UInt64.ofNat b) &&& 1).toNat.testBit k = true ↔ k = 0 ∧ x.toNat.testBit b = true := by
  have hshift : (UInt64.ofNat b).toNat % 64 = b := by
    rw [UInt64.toNat_ofNat']
    omega
  rw [UInt64.toNat_and, UInt64.toNat_shiftRight, hshift, Nat.testBit_and, Nat.testBit_shiftRight,
    UInt64.toNat_one, Bool.and_eq_true, Nat.testBit_one_eq_true_iff_self_eq_zero]
  grind

/-- A loop whose steps only set bits sets what one of them sets. -/
theorem testBit_foldl {ι : Type} {step : UInt64 → ι → UInt64} {sets : ι → Prop} {k : Nat}
    (l : List ι) (hstep : ∀ key, ∀ x ∈ l,
      (step key x).toNat.testBit k = true ↔ key.toNat.testBit k = true ∨ sets x) (key : UInt64) :
    (l.foldl step key).toNat.testBit k = true ↔
      key.toNat.testBit k = true ∨ ∃ x ∈ l, sets x := by
  induction l generalizing key with
  | nil => simp
  | cons x l ih =>
    rw [List.foldl_cons, ih (fun key y hy => hstep key y (List.mem_cons_of_mem x hy)),
      hstep key x List.mem_cons_self, List.exists_mem_cons_iff, or_assoc]

/-- The loop over bits and axes. -/
theorem interleave_interleaved (cells : Vector UInt64 d) {bits : Nat} (h : bits * d ≤ 64) :
    Interleaved cells bits (interleave cells bits) := by
  intro k
  have hbit : ∀ b < bits, ∀ key : UInt64, ∀ i ∈ List.finRange d,
      (key ||| (((cells.get i >>> UInt64.ofNat b) &&& 1) <<<
        UInt64.ofNat (b * d + i.val))).toNat.testBit k = true ↔
      key.toNat.testBit k = true ∨ b * d + i = k ∧ (cells.get i).toNat.testBit b = true := by
    intro b hb key i _
    have hplace : b * d + i < 64 := (bitPlace_lt hb i).trans_le h
    have hb64 : b < 64 := by
      have hpos : b * 1 ≤ b * d := Nat.mul_le_mul_left b i.pos
      omega
    rw [UInt64.toNat_or, Nat.testBit_or, Bool.or_eq_true, testBit_shifted _ hplace,
      testBit_lowest _ hb64]
    grind
  have hround : ∀ key : UInt64, ∀ b ∈ List.range bits,
      ((List.finRange d).foldl (fun key i => key ||| (((cells.get i >>> UInt64.ofNat b) &&& 1) <<<
        UInt64.ofNat (b * d + i.val))) key).toNat.testBit k = true ↔
      key.toNat.testBit k = true ∨
        ∃ i ∈ List.finRange d, b * d + i = k ∧ (cells.get i).toNat.testBit b = true := by
    intro key b hb
    exact testBit_foldl _ (hbit b (List.mem_range.mp hb)) key
  rw [interleave, testBit_foldl _ hround]
  simp

end Loop

section Rounds

/-- Where bit `b` stands when the bits are kept in blocks of `2 ^ m`, each
followed by two free blocks. -/
def slot (m b : Nat) : Nat := b / 2 ^ m * (3 * 2 ^ m) + b % 2 ^ m

def Blocks (m : Nat) (x w : UInt64) : Prop :=
  ∀ k, w.toNat.testBit k = true ↔ ∃ b < 21, slot m b = k ∧ x.toNat.testBit b = true

def IsMask (m : Nat) (mask : UInt64) : Prop :=
  ∀ k < 64, mask.toNat.testBit k = true ↔ ∃ b < 21, slot m b = k

instance (m : Nat) (mask : UInt64) : Decidable (IsMask m mask) :=
  inferInstanceAs (Decidable (∀ k < 64, mask.toNat.testBit k = true ↔ ∃ b < 21, slot m b = k))

theorem slot_lt {m b : Nat} (hm : m < 5) (hb : b < 21) : slot m b < 64 := by
  unfold slot
  interval_cases m <;> omega

/-- When blocks are cut in half, a bit stays or moves by two of the new blocks. -/
theorem slot_halved {m : Nat} (hm : m < 5) (b : Nat) :
    slot m b = slot (m + 1) b ∨ slot m b = slot (m + 1) b + 2 ^ (m + 1) := by
  unfold slot
  interval_cases m <;> omega

/-- No other bit comes to stand there, whether it stays or moves. -/
theorem slot_unique {m b c : Nat} (hm : m < 5)
    (h : slot m b = slot (m + 1) c ∨ slot m b = slot (m + 1) c + 2 ^ (m + 1)) : b = c := by
  unfold slot at h
  interval_cases m <;> omega

/-- One round: a copy of the word moves up, and the mask keeps of both what is
in its place. -/
theorem Blocks.halve {m : Nat} {x w : UInt64} (h : Blocks (m + 1) x w) (mask : UInt64)
    (hm : m < 5) (hmask : IsMask m mask) :
    Blocks m x ((w ||| w <<< UInt64.ofNat (2 ^ (m + 1))) &&& mask) := by
  have hshift : 2 ^ (m + 1) < 64 := Nat.pow_lt_pow_right (a := 2) (n := 6) (by decide) (by omega)
  intro k
  rw [UInt64.toNat_and, UInt64.toNat_or, Nat.testBit_and, Nat.testBit_or, Bool.and_eq_true,
    Bool.or_eq_true, testBit_shifted _ hshift, h k, h (k - _)]
  constructor
  · rintro ⟨hset, hkept⟩
    have hk : k < 64 := by
      by_contra hk
      have hzero : mask.toNat.testBit k = false :=
        Nat.testBit_lt_two_pow (mask.toNat_lt.trans_le (Nat.pow_le_pow_right (by decide) (by omega)))
      rw [hzero] at hkept
      cases hkept
    obtain ⟨b, hb, rfl⟩ := (hmask k hk).mp hkept
    rcases hset with ⟨c, hc, hstay, hbit⟩ | ⟨-, hle, c, hc, hmove, hbit⟩
    · obtain rfl := slot_unique hm (.inl hstay.symm)
      exact ⟨b, hb, rfl, hbit⟩
    · obtain rfl := slot_unique hm (.inr (by omega : slot m b = slot (m + 1) c + 2 ^ (m + 1)))
      exact ⟨b, hb, rfl, hbit⟩
  · rintro ⟨b, hb, rfl, hbit⟩
    have hlt := slot_lt hm hb
    refine ⟨?_, (hmask _ hlt).mpr ⟨b, hb, rfl⟩⟩
    rcases slot_halved hm b with hstay | hmove
    · exact .inl ⟨b, hb, hstay.symm, hbit⟩
    · exact .inr ⟨hlt, by omega, b, hb, by omega, hbit⟩

theorem testBit_low (x : UInt64) (k : Nat) :
    (x &&& 0x1fffff).toNat.testBit k = (decide (k < 21) && x.toNat.testBit k) := by
  have hlow : (0x1fffff : UInt64).toNat = 2 ^ 21 - 1 := rfl
  rw [UInt64.toNat_and, hlow, Nat.and_two_pow_sub_one_eq_mod, Nat.testBit_mod_two_pow]

theorem blocks_low (x : UInt64) : Blocks 5 x (x &&& 0x1fffff) := by
  have hslot : ∀ b < 21, slot 5 b = b := by
    intro b hb
    unfold slot
    omega
  intro k
  rw [testBit_low, Bool.and_eq_true, decide_eq_true_eq]
  constructor
  · rintro ⟨hk, hbit⟩
    exact ⟨k, hk, hslot k hk, hbit⟩
  · rintro ⟨b, hb, rfl, hbit⟩
    rw [hslot b hb]
    exact ⟨hb, hbit⟩

theorem blocks_spread (x : UInt64) : Blocks 0 x (spread x) := by
  have h16 := (blocks_low x).halve (m := 4) 0x001f00000000ffff (by decide) (by decide +kernel)
  have h8 := h16.halve (m := 3) 0x001f0000ff0000ff (by decide) (by decide +kernel)
  have h4 := h8.halve (m := 2) 0x100f00f00f00f00f (by decide) (by decide +kernel)
  have h2 := h4.halve (m := 1) 0x10c30c30c30c30c3 (by decide) (by decide +kernel)
  exact h2.halve (m := 0) 0x1249249249249249 (by decide) (by decide +kernel)

theorem testBit_spread (x : UInt64) (k : Nat) : (spread x).toNat.testBit k = true ↔
    ∃ b < 21, b * 3 = k ∧ x.toNat.testBit b = true := by
  have h := blocks_spread x k
  simpa [slot, Nat.mod_one] using h

theorem testBit_axis (x : UInt64) {i : Nat} (hi : i < 3) (k : Nat) :
    (spread x <<< UInt64.ofNat i).toNat.testBit k = true ↔
      ∃ b < 21, b * 3 + i = k ∧ x.toNat.testBit b = true := by
  rw [testBit_shifted _ (by omega), testBit_spread]
  constructor
  · rintro ⟨-, hle, b, hb, hk, hbit⟩
    exact ⟨b, hb, by omega, hbit⟩
  · rintro ⟨b, hb, rfl, hbit⟩
    exact ⟨by omega, by omega, b, hb, by omega, hbit⟩

/-- Three axes, each of which is moved up by its number. -/
theorem interleave3_interleaved (cells : Vector UInt64 3) :
    Interleaved cells 21 (interleave3 (cells.get 0) (cells.get 1) (cells.get 2)) := by
  intro k
  have hfirst := testBit_spread (cells.get 0) k
  have hsecond := testBit_axis (cells.get 1) (i := 1) (by decide) k
  have hthird := testBit_axis (cells.get 2) (i := 2) (by decide) k
  rw [interleave3, UInt64.toNat_or, UInt64.toNat_or, Nat.testBit_or, Nat.testBit_or,
    Bool.or_eq_true, Bool.or_eq_true, hfirst]
  refine (or_congr (or_congr_right hsecond) hthird).trans ?_
  constructor
  · rintro ((⟨b, hb, hk, hbit⟩ | ⟨b, hb, hk, hbit⟩) | ⟨b, hb, hk, hbit⟩)
    · exact ⟨b, hb, 0, hk, hbit⟩
    · exact ⟨b, hb, 1, hk, hbit⟩
    · exact ⟨b, hb, 2, hk, hbit⟩
  · rintro ⟨b, hb, i, hk, hbit⟩
    match i with
    | 0 => exact .inl (.inl ⟨b, hb, hk, hbit⟩)
    | 1 => exact .inl (.inr ⟨b, hb, hk, hbit⟩)
    | 2 => exact .inr ⟨b, hb, hk, hbit⟩

end Rounds

/-- For three axes the rounds make the word that the loop makes, and neither
looks at bits above the low 21. -/
theorem interleave3_eq_interleave (x y z : UInt64) :
    interleave3 x y z = interleave #v[x, y, z] 21 ∧
      interleave3 (x &&& 0x1fffff) (y &&& 0x1fffff) (z &&& 0x1fffff) = interleave3 x y z := by
  have hrounds : Interleaved #v[x, y, z] 21 (interleave3 x y z) := interleave3_interleaved _
  have hmasked : ∀ w : UInt64, ∀ b < 21,
      w.toNat.testBit b = (w &&& 0x1fffff).toNat.testBit b := by
    intro w b hb
    rw [testBit_low, decide_eq_true hb, Bool.true_and]
  constructor
  · exact hrounds.unique (interleave_interleaved _ (by decide))
  · apply Interleaved.unique _ hrounds
    apply (interleave3_interleaved #v[x &&& 0x1fffff, y &&& 0x1fffff, z &&& 0x1fffff]).congr
    intro i b hb
    match i with
    | 0 => exact hmasked x b hb
    | 1 => exact hmasked y b hb
    | 2 => exact hmasked z b hb

end Vicinity.Morton
