import Mathlib
import Vicinity.Proofs.Coord.Cover
import Vicinity.Proofs.Wire.RoundTrip

/-!
# Machine numbers

Binary64 numbers other than NaN are ordered by their place on a line: sign,
then exponent, then mantissa. Packing an unpacked number gives its bits back,
so numbers survive the wire.
-/

set_option autoImplicit false

namespace Vicinity.Binary64

open Float.Model (Format UnpackedFloat)
open Float.Model.UnpackedFloat

/-- Where a number stands among all numbers. -/
def place : UnpackedFloat → ℤ ×ₗ (ℤ ×ₗ ℤ)
  | .notANumber => toLex (0, toLex (0, 0))
  | .infinity .positive => toLex (2, toLex (0, 0))
  | .infinity .negative => toLex (-2, toLex (0, 0))
  | .zero _ => toLex (0, toLex (0, 0))
  | .finite .positive m e _ => toLex (1, toLex (e, m))
  | .finite .negative m e _ => toLex (-1, toLex (-e, -m))

theorem compare_natCast (m k : Nat) : compare (m : Int) (k : Int) = compare m k := by
  rcases lt_trichotomy m k with h | h | h
  · rw [compare_lt_iff_lt.mpr h, compare_lt_iff_lt.mpr (by exact_mod_cast h)]
  · rw [h, compare_eq_iff_eq.mpr rfl, compare_eq_iff_eq.mpr rfl]
  · rw [compare_gt_iff_gt.mpr h, compare_gt_iff_gt.mpr (by exact_mod_cast h)]

theorem compare_neg (e f : Int) : compare (-e) (-f) = (compare e f).swap := by
  rcases lt_trichotomy e f with h | h | h
  · rw [compare_lt_iff_lt.mpr h, compare_gt_iff_gt.mpr (by omega)]
    rfl
  · rw [h, compare_eq_iff_eq.mpr rfl, compare_eq_iff_eq.mpr rfl]
    rfl
  · rw [compare_gt_iff_gt.mpr h, compare_lt_iff_lt.mpr (by omega)]
    rfl

/-- Comparison looks at the sign first, then at the exponent, then at the mantissa. -/
theorem compare_place {a b : UnpackedFloat} (ha : a.isNaN = false) (hb : b.isNaN = false) :
    a.compare b = some (compare (place a) (place b)) := by
  cases a with
  | notANumber => cases ha
  | infinity s =>
    cases b with
    | notANumber => cases hb
    | infinity t => cases s <;> cases t <;> rfl
    | zero t => cases s <;> rfl
    | finite t k f hk => cases s <;> cases t <;> rfl
  | zero s =>
    cases b with
    | notANumber => cases hb
    | infinity t => cases t <;> rfl
    | zero t => rfl
    | finite t k f hk => cases t <;> rfl
  | finite s m e hm =>
    cases b with
    | notANumber => cases hb
    | infinity t => cases s <;> cases t <;> rfl
    | zero t => cases s <;> rfl
    | finite t k f hk =>
      cases s with
      | negative =>
        cases t with
        | negative =>
          -- Below zero the larger exponent and mantissa come first.
          simp [place, UnpackedFloat.compare, Prod.Lex.compare_def, compareLex, compareOn,
            compare_natCast, compare_neg, Ordering.swap_then]
        | positive => rfl
      | positive =>
        cases t with
        | negative => rfl
        | positive =>
          simp [place, UnpackedFloat.compare, Prod.Lex.compare_def, compareLex, compareOn,
            compare_natCast]

theorem compare_eq_none {a b : UnpackedFloat} (h : a.isNaN = true ∨ b.isNaN = true) :
    a.compare b = none := by
  rcases h with h | h
  · cases a with
    | notANumber => rfl
    | infinity => cases h
    | zero => cases h
    | finite => cases h
  · cases b with
    | notANumber => cases a <;> rfl
    | infinity => cases h
    | zero => cases h
    | finite => cases h

theorem le_iff (a b : Float) : a ≤ b ↔ a.isNaN = false ∧ b.isNaN = false ∧
    place a.toModel.unpack ≤ place b.toModel.unpack := by
  have hle : a ≤ b ↔ a.toModel.unpack.le b.toModel.unpack = true := decide_eq_true_iff
  rw [hle, UnpackedFloat.le]
  cases ha : a.isNaN with
  | true => simp [compare_eq_none (.inl ha)]
  | false =>
    cases hb : b.isNaN with
    | true => simp [compare_eq_none (.inr hb)]
    | false =>
      simp only [compare_place ha hb, Option.any_some, true_and]
      exact Ordering.isLE_iff_ne_gt.trans compare_le_iff_le

theorem lt_iff {a b : Float} (ha : a.isNaN = false) (hb : b.isNaN = false) :
    a < b ↔ place a.toModel.unpack < place b.toModel.unpack := by
  have hlt : a < b ↔ a.toModel.unpack.lt b.toModel.unpack = true := decide_eq_true_iff
  rw [hlt, UnpackedFloat.lt, compare_place ha hb, beq_iff_eq, Option.some_inj]
  exact compare_lt_iff_lt

instance : OrderedCoord Float where
  le_trans hab hbc := by
    rw [le_iff] at *
    exact ⟨hab.1, hbc.2.1, hab.2.2.trans hbc.2.2⟩
  le_total ha hb := by
    rw [le_iff, le_iff]
    rcases le_total (place _) (place _) with h | h
    · exact .inl ⟨ha, hb, h⟩
    · exact .inr ⟨hb, ha, h⟩
  lt_iff_not_le ha hb := by
    rw [lt_iff ha hb, le_iff, ← not_le]
    exact not_congr ⟨fun h => ⟨hb, ha, h⟩, fun h => h.2.2⟩

section Bits

theorem toBitVec_ofBitVec (s : BitVec 1) : (Sign.ofBitVec s).toBitVec = s := by
  rcases BitVec.eq_zero_or_eq_one s with rfl | rfl
  · rfl
  · rfl

theorem extractLsb_append (b : BitVec 64) :
    (b.extractLsb 63 63 ++ b.extractLsb 62 52 ++ b.extractLsb 51 0 : BitVec 64) = b := by
  apply BitVec.eq_of_getLsbD_eq
  intro i hi
  rw [BitVec.getLsbD_append, BitVec.getLsbD_append]
  simp only [BitVec.getLsbD_extractLsb]
  split_ifs with hm he
  · have hi' : 0 + i = i := by omega
    grind
  · have hi' : 52 + (i - (51 - 0 + 1)) = i := by omega
    rw [hi']
    grind
  · have hi' : 63 + (i - (51 - 0 + 1) - (62 - 52 + 1)) = i := by omega
    rw [hi']
    grind

theorem packComponents_parts (b : BitVec Format.binary64.numBits) :
    packComponents Format.binary64 (Sign.ofBitVec (unpackSign b)) (unpackExponent b)
      (unpackMantissa b) = b := by
  rw [packComponents, toBitVec_ofBitVec]
  exact extractLsb_append b

theorem pack_subnormal (s : Sign) {m : Nat} (hm : 0 < m) (h : m < 2 ^ 52) :
    pack Format.binary64 (.finite s m (-1074) hm) =
      packComponents Format.binary64 s 0 (BitVec.ofNat 52 m) := by
  have hlog : m.log2 < 52 := (Nat.log2_lt hm.ne').mpr h
  have hlog' : m.log2 + 1 ≠ Format.binary64.mantissaBits := by
    change m.log2 + 1 ≠ 53
    omega
  dsimp only [pack]
  rw [if_neg (by decide), if_neg hlog']
  rfl

theorem pack_normal (s : Sign) {m e : Nat} (hm : 2 ^ 52 ≤ m) (h : m < 2 ^ 53) (he : e < 2047) :
    pack Format.binary64 (.finite s m ((e : Int) - 1075) (by omega)) =
      packComponents Format.binary64 s (BitVec.ofNat 11 e) (BitVec.ofNat 52 m) := by
  have hlog : m.log2 = 52 := (Nat.log2_eq_iff (by omega)).mpr ⟨hm, h⟩
  have hlog' : m.log2 + 1 = Format.binary64.mantissaBits := by
    rw [hlog]
    rfl
  have hbias : ((e : Int) - 1075 + Format.binary64.exponentBias + (52 : Nat)).toNat = e := by
    change ((e : Int) - 1075 + 1023 + 52).toNat = e
    omega
  dsimp only [pack]
  rw [hbias, if_neg (by omega), if_pos hlog']

theorem pack_unpack {b : BitVec Format.binary64.numBits} (h : Format.binary64.Valid b) :
    pack Format.binary64 (unpack Format.binary64 b) = b := by
  have hcomponents := packComponents_parts b
  have hmantissa : (unpackMantissa b).toNat < 2 ^ 52 := (unpackMantissa b).isLt
  have hexponent : (unpackExponent b).toNat < 2 ^ 11 := (unpackExponent b).isLt
  dsimp only [unpack]
  split_ifs with hones hman hzero hman
  · rw [hones, hman] at hcomponents
    exact hcomponents
  · exact (h.eq_packedNaN hones hman).symm
  · rw [hzero, hman] at hcomponents
    exact hcomponents
  · have hpack := pack_subnormal (Sign.ofBitVec (unpackSign b))
      (by simpa [Nat.pos_iff_ne_zero, ← BitVec.toNat_inj] using hman) hmantissa
    rw [BitVec.ofNat_toNat, BitVec.setWidth_eq] at hpack
    rw [hzero] at hcomponents ⊢
    exact hpack.trans hcomponents
  · have hfull : (1#1 ++ unpackMantissa b).toNat = 2 ^ 52 + (unpackMantissa b).toNat := by
      rw [BitVec.toNat_append, ← Nat.shiftLeft_add_eq_or_of_lt hmantissa]
      rfl
    have hlast : (unpackExponent b).toNat ≠ 2047 := by
      intro hlast
      exact hones (BitVec.eq_of_toNat_eq hlast)
    have hpack := pack_normal (Sign.ofBitVec (unpackSign b))
      (show 2 ^ 52 ≤ (1#1 ++ unpackMantissa b).toNat by omega) (by omega)
      (show (unpackExponent b).toNat < 2047 by omega)
    have hlow : BitVec.ofNat 52 (1#1 ++ unpackMantissa b).toNat = unpackMantissa b := by
      apply BitVec.eq_of_toNat_eq
      rw [BitVec.toNat_ofNat, hfull]
      omega
    rw [BitVec.ofNat_toNat, BitVec.setWidth_eq, hlow] at hpack
    exact hpack.trans hcomponents

theorem ofBits_toBits (x : Float) : Float.ofBits x.toBits = x := by
  have hbits := pack_unpack x.toModel.valid
  change Float.ofModel (Float.Model.pack (unpack Format.binary64 x.toModel.toBits.toBitVec)) = x
  rw [Float.Model.pack]
  simp only [hbits]

theorem roundTrips (x : Float) : Codec.RoundTrips x := by
  intro rest
  have h := (Codec.roundTrips_word x.toBits).bind (fun bits => pure (Float.ofBits bits)) rest
  rw [ofBits_toBits] at h
  exact h

end Bits

end Vicinity.Binary64
