import Mathlib
import Vicinity.Proofs.Coord.Monotone
import Vicinity.Proofs.Coord.Rounding

/-!
# Monotone machine arithmetic

Packing keeps a rounded number as it is, or makes it infinite when it is too
large, and whatever is above it becomes infinite as well. What an operation
returns is therefore settled by a count of units, infinity being the largest,
and machine numbers keep the order that distances rest on.
-/

set_option autoImplicit false

namespace Vicinity.Binary64

open Float.Model (Format UnpackedFloat)
open Float.Model.UnpackedFloat

section Packing

theorem unpackSign_packComponents (sign : Sign) (exponent : BitVec 11) (mantissa : BitVec 52) :
    Sign.ofBitVec (unpackSign (packComponents Format.binary64 sign exponent mantissa)) = sign := by
  have hbits : unpackSign (packComponents Format.binary64 sign exponent mantissa) =
      sign.toBitVec := by
    apply BitVec.eq_of_getLsbD_eq
    intro i hi
    obtain rfl : i = 0 := by omega
    simp only [unpackSign, packComponents, BitVec.getLsbD_cast, BitVec.getLsbD_extractLsb]
    rw [BitVec.getLsbD_append, BitVec.getLsbD_append]
    simp
  rw [hbits]
  cases sign <;> rfl

theorem ofNat_ne {w k l : Nat} (hk : k < 2 ^ w) (hl : l < 2 ^ w) (h : k ≠ l) :
    BitVec.ofNat w k ≠ BitVec.ofNat w l := by
  intro heq
  rw [← BitVec.toNat_inj, BitVec.toNat_ofNat, BitVec.toNat_ofNat, Nat.mod_eq_of_lt hk,
    Nat.mod_eq_of_lt hl] at heq
  exact h heq

theorem unpack_pack_infinity (s : Sign) :
    unpack Format.binary64 (pack Format.binary64 (.infinity s)) = .infinity s := by
  simp only [pack, packedInfinity, unpack, unpackExponent_packComponents,
    unpackMantissa_packComponents, unpackSign_packComponents]
  rfl

theorem unpack_pack_zero (s : Sign) :
    unpack Format.binary64 (pack Format.binary64 (.zero s)) = .zero s := by
  simp only [pack, packedZero, unpack, unpackExponent_packComponents,
    unpackMantissa_packComponents, unpackSign_packComponents]
  rfl

theorem pack_overflow (s : Sign) {m : Nat} {e : ℤ} (hm : 0 < m) (he : 972 ≤ e) :
    pack Format.binary64 (.finite s m e hm) = pack Format.binary64 (.infinity s) := by
  have hlarge : 2 ^ Format.binary64.exponentBits ≤ (e + Format.binary64.exponentBias +
      Format.binary64.mantissaBitsWithoutImplicit).toNat + 1 := by
    change 2 ^ 11 ≤ (e + 1023 + 52).toNat + 1
    omega
  simp only [pack, if_pos hlarge]

theorem unpack_pack_finite (s : Sign) {m : Nat} {e : ℤ} (hm : 0 < m)
    (h : Fits m e) (he : e < 972) :
    unpack Format.binary64 (pack Format.binary64 (.finite s m e hm)) = .finite s m e hm := by
  have hupper := h.upper
  have hlower := h.lower
  by_cases hbits : 2 ^ 52 ≤ m
  · obtain ⟨k, rfl⟩ : ∃ k : Nat, e = k - 1075 := ⟨(e + 1075).toNat, by omega⟩
    have hexponent : (BitVec.ofNat 11 k).toNat = k := by
      rw [BitVec.toNat_ofNat]
      omega
    have hones : BitVec.ofNat 11 k ≠ -1#11 := by
      rw [show -1#11 = BitVec.ofNat 11 2047 from rfl]
      exact ofNat_ne (by omega) (by omega) (by omega)
    have hzero : BitVec.ofNat 11 k ≠ BitVec.ofNat 11 0 := ofNat_ne (by omega) (by omega) (by omega)
    have hmantissa : (1#1 ++ BitVec.ofNat 52 m).toNat = m := by
      rw [BitVec.toNat_append, ← Nat.shiftLeft_add_eq_or_of_lt (BitVec.isLt _), BitVec.toNat_ofNat]
      change 1 <<< 52 + m % 2 ^ 52 = m
      omega
    rw [pack_normal s hbits hupper (by omega)]
    simp only [unpack, unpackExponent_packComponents, unpackMantissa_packComponents,
      unpackSign_packComponents]
    rw [if_neg hones, if_neg hzero, UnpackedFloat.finite.injEq]
    refine ⟨rfl, hmantissa, ?_⟩
    rw [hexponent]
    rfl
  · obtain rfl := h.normal.resolve_left hbits
    have hmantissa : (BitVec.ofNat 52 m).toNat = m := by
      rw [BitVec.toNat_ofNat]
      omega
    have hzero : BitVec.ofNat 52 m ≠ BitVec.ofNat 52 0 := ofNat_ne (by omega) (by omega) (by omega)
    rw [pack_subnormal s hm (not_le.mp hbits)]
    simp only [unpack, unpackExponent_packComponents, unpackMantissa_packComponents,
      unpackSign_packComponents]
    rw [if_neg (by decide), if_pos (show (0 : BitVec 11) = 0#11 from rfl), dif_neg hzero,
      UnpackedFloat.finite.injEq]
    exact ⟨rfl, hmantissa, rfl⟩

end Packing

section Order

theorem unpack_cases (b : BitVec Format.binary64.numBits) :
    unpack Format.binary64 b = .notANumber ∨ (∃ s, unpack Format.binary64 b = .infinity s) ∨
      Canonical (unpack Format.binary64 b) := by
  have hmantissa : (unpackMantissa b).toNat < 2 ^ 52 := (unpackMantissa b).isLt
  dsimp only [unpack]
  split_ifs with hones hman hzero hman
  · exact .inr (.inl ⟨_, rfl⟩)
  · exact .inl rfl
  · exact .inr (.inr (.zero _))
  · have hexponent : ((unpackExponent b).toNat : ℤ) -
        (Format.binary64.exponentBias + Format.binary64.mantissaBitsWithoutImplicit) + 1 =
          -1074 := by
      rw [hzero]
      rfl
    refine .inr (.inr (.finite _ _ ⟨by omega, ?_, .inr hexponent⟩))
    rw [hexponent]
  · have hfull : (1#1 ++ unpackMantissa b).toNat = 2 ^ 52 + (unpackMantissa b).toNat := by
      rw [BitVec.toNat_append, ← Nat.shiftLeft_add_eq_or_of_lt hmantissa]
      rfl
    have hpos : 0 < (unpackExponent b).toNat := by
      rw [Nat.pos_iff_ne_zero]
      intro h
      exact hzero (BitVec.eq_of_toNat_eq h)
    have hbias : ((Format.binary64.exponentBias : ℤ) +
        Format.binary64.mantissaBitsWithoutImplicit) = 1075 := rfl
    refine .inr (.inr (.finite _ _ ⟨by omega, ?_, .inl (by omega)⟩))
    rw [hbias]
    omega

theorem isNaN_of_canonical {f : UnpackedFloat} (h : Canonical f) : f.isNaN = false := by
  cases h with
  | zero s => rfl
  | finite s hm h => rfl

theorem place_lt_infinity {f : UnpackedFloat} (h : Canonical f) :
    place f < place (.infinity .positive) ∧ place (.infinity .negative) < place f := by
  cases h with
  | zero s => simp [place, Prod.Lex.toLex_lt_toLex]
  | finite s hm h => cases s <;> simp [place, Prod.Lex.toLex_lt_toLex]

theorem place_infinity_bounds (f : UnpackedFloat) :
    place (.infinity .negative) ≤ place f ∧ place f ≤ place (.infinity .positive) := by
  cases f with
  | notANumber => simp [place, Prod.Lex.toLex_le_toLex]
  | infinity s => cases s <;> simp [place, Prod.Lex.toLex_le_toLex]
  | zero s => simp [place, Prod.Lex.toLex_le_toLex]
  | finite s m e hm => cases s <;> simp [place, Prod.Lex.toLex_le_toLex]

def tooLarge : ℤ ×ₗ (ℤ ×ₗ ℤ) := toLex (1, toLex (972, 0))

theorem unpack_pack {f : UnpackedFloat} (hf : Canonical f) (h : 0 ≤ units f) :
    unpack Format.binary64 (pack Format.binary64 f) =
      if tooLarge ≤ place f then .infinity .positive else f := by
  cases hf with
  | zero s =>
    rw [unpack_pack_zero, if_neg (by simp [tooLarge, place, Prod.Lex.toLex_le_toLex])]
  | @finite s m e hm hf =>
    obtain rfl := positive_of_units hm h
    have hlarge : tooLarge ≤ place (.finite .positive m e hm) ↔ 972 ≤ e := by
      simp only [tooLarge, place, Prod.Lex.toLex_le_toLex, lt_irrefl, true_and, false_or]
      omega
    by_cases he : 972 ≤ e
    · rw [if_pos (hlarge.mpr he), pack_overflow _ hm he, unpack_pack_infinity]
    · rw [if_neg (mt hlarge.mp he), unpack_pack_finite _ hm hf (not_le.mp he)]

/-- Packing keeps the order of numbers that are not negative: what is too large
becomes infinite, and so does everything above it. -/
theorem pack_mono {f g : UnpackedFloat} (hf : Canonical f) (hg : Canonical g)
    (h : 0 ≤ units f) (hfg : units f ≤ units g) :
    place (unpack Format.binary64 (pack Format.binary64 f)) ≤
      place (unpack Format.binary64 (pack Format.binary64 g)) := by
  have hplace := (place_le_iff hf hg).mpr hfg
  rw [unpack_pack hf h, unpack_pack hg (h.trans hfg)]
  split_ifs with hlarge hlarge' hlarge'
  · exact le_rfl
  · exact absurd (hlarge.trans hplace) hlarge'
  · exact (place_infinity_bounds f).2
  · exact hplace

end Order

section Machine

/-- The number is what so many units are packed to. -/
inductive Holds (x : Float) : ℕ∞ → Prop where
  | infinite (h : x.toModel.unpack = .infinity .positive) : Holds x ⊤
  | finite {f : UnpackedFloat} {v : Nat} (hf : Canonical f) (hv : units f = v)
      (h : x.toModel.unpack = unpack Format.binary64 (pack Format.binary64 f)) : Holds x v

theorem Holds.isNaN {x : Float} {v : ℕ∞} (h : Holds x v) : x.isNaN = false := by
  cases h with
  | infinite h =>
    change x.toModel.unpack.isNaN = false
    rw [h]
    rfl
  | finite hf hv h =>
    change x.toModel.unpack.isNaN = false
    rw [h, unpack_pack hf (by omega)]
    split_ifs
    · rfl
    · exact isNaN_of_canonical hf

theorem Holds.le {x y : Float} {v w : ℕ∞} (hx : Holds x v) (hy : Holds y w)
    (h : v ≤ w) : x ≤ y := by
  rw [le_iff]
  refine ⟨hx.isNaN, hy.isNaN, ?_⟩
  cases hy with
  | infinite hy =>
    rw [hy]
    exact (place_infinity_bounds _).2
  | finite hg hw hy =>
    cases hx with
    | infinite hx => exact absurd h (by simp)
    | finite hf hv hx =>
      rw [hx, hy]
      have hunits := Nat.cast_le.mp h
      exact pack_mono hf hg (by omega) (by omega)

theorem holds_zero : Holds (Coord.zero : Float) 0 :=
  .finite (.zero .positive) rfl rfl

theorem canonical_or_infinite {x : Float} (h : x.isNaN = false) :
    (∃ s, x.toModel.unpack = .infinity s) ∨ Canonical x.toModel.unpack := by
  rcases unpack_cases x.toModel.toBits.toBitVec with hnan | hrest
  · have hcontra : x.toModel.unpack.isNaN = false := h
    rw [show x.toModel.unpack = .notANumber from hnan] at hcontra
    cases hcontra
  · exact hrest

theorem numbers_of_lt {x y : Float} (h : x < y) : x.isNaN = false ∧ y.isNaN = false := by
  have hlt : x < y ↔ x.toModel.unpack.lt y.toModel.unpack = true := decide_eq_true_iff
  rw [hlt, UnpackedFloat.lt] at h
  by_contra hnan
  rw [not_and_or, Bool.not_eq_false, Bool.not_eq_false] at hnan
  rw [compare_eq_none hnan] at h
  cases h

theorem nonneg_cases {x : Float} (h : Coord.zero ≤ x) :
    x.toModel.unpack = .infinity .positive ∨
      Canonical x.toModel.unpack ∧ 0 ≤ units x.toModel.unpack := by
  obtain ⟨-, hx, hplace⟩ := (le_iff _ _).mp h
  have hzero : (Coord.zero : Float).toModel.unpack = .zero .positive := rfl
  rw [hzero] at hplace
  rcases canonical_or_infinite hx with ⟨s, hs⟩ | hc
  · cases s with
    | positive => exact .inl hs
    | negative =>
      rw [hs] at hplace
      simp [place, Prod.Lex.toLex_le_toLex] at hplace
  · exact .inr ⟨hc, (place_le_iff (.zero .positive) hc).mp hplace⟩

theorem sub_infinite {a b : UnpackedFloat} (ha : a.isNaN = false) (hb : b.isNaN = false)
    (hplace : place b < place a) (h : a = .infinity .positive ∨ b = .infinity .negative) :
    UnpackedFloat.sub Format.binary64 a b = .infinity .positive := by
  rcases h with rfl | rfl
  · cases b with
    | notANumber => cases hb
    | infinity t =>
      cases t with
      | positive => exact absurd hplace (lt_irrefl _)
      | negative => rfl
    | zero t => rfl
    | finite t k f hk => rfl
  · cases a with
    | notANumber => cases ha
    | infinity s =>
      cases s with
      | positive => rfl
      | negative => exact absurd hplace (lt_irrefl _)
    | zero s => rfl
    | finite s m e hm => rfl

theorem add_infinite {a b : UnpackedFloat} (ha : a = .infinity .positive ∨ Canonical a)
    (hb : b = .infinity .positive ∨ Canonical b)
    (h : a = .infinity .positive ∨ b = .infinity .positive) :
    UnpackedFloat.add Format.binary64 a b = .infinity .positive := by
  rcases ha with rfl | hca
  · rcases hb with rfl | hcb
    · rfl
    · cases hcb with
      | zero t => rfl
      | finite t hk hb => rfl
  · cases hca with
    | zero s =>
      obtain rfl := h.resolve_left nofun
      rfl
    | finite s hm ha =>
      obtain rfl := h.resolve_left nofun
      rfl

/-- A difference that is not negative is infinite where one of its operands is,
and else the exact difference, rounded. -/
theorem sub_cases {x y : Float} (h : y < x) : ∃ v : ℕ∞, Holds (x - y) v ∧
    (v = ⊤ ∧ (x.toModel.unpack = .infinity .positive ∨ y.toModel.unpack = .infinity .negative) ∨
      Canonical x.toModel.unpack ∧ Canonical y.toModel.unpack ∧
        v = rounded 0 (units x.toModel.unpack - units y.toModel.unpack).toNat) := by
  obtain ⟨hy, hx⟩ := numbers_of_lt h
  have hplace := (lt_iff hy hx).mp h
  have hsub : (x - y).toModel.unpack = unpack Format.binary64 (pack Format.binary64
    (UnpackedFloat.sub Format.binary64 x.toModel.unpack y.toModel.unpack)) := rfl
  by_cases hinfinite :
      x.toModel.unpack = .infinity .positive ∨ y.toModel.unpack = .infinity .negative
  · rw [sub_infinite hx hy hplace hinfinite, unpack_pack_infinity] at hsub
    exact ⟨⊤, .infinite hsub, .inl ⟨rfl, hinfinite⟩⟩
  · rw [not_or] at hinfinite
    have hcx : Canonical x.toModel.unpack := by
      rcases canonical_or_infinite hx with ⟨s, hs⟩ | hc
      · cases s with
        | positive => exact absurd hs hinfinite.1
        | negative =>
          rw [hs] at hplace
          exact absurd hplace (not_lt.mpr (place_infinity_bounds _).1)
      · exact hc
    have hcy : Canonical y.toModel.unpack := by
      rcases canonical_or_infinite hy with ⟨s, hs⟩ | hc
      · cases s with
        | positive =>
          rw [hs] at hplace
          exact absurd hplace (not_lt.mpr (place_infinity_bounds _).2)
        | negative => exact absurd hs hinfinite.2
      · exact hc
    obtain ⟨hc, hunits⟩ := sub_spec hcx hcy (units_lt_of_place hcy hcx hplace)
    exact ⟨_, .finite hc hunits hsub, .inr ⟨hcx, hcy, rfl⟩⟩

theorem add_cases {x y : Float} (hx : Coord.zero ≤ x) (hy : Coord.zero ≤ y) :
    ∃ v : ℕ∞, Holds (x + y) v ∧
    (v = ⊤ ∧ (x.toModel.unpack = .infinity .positive ∨ y.toModel.unpack = .infinity .positive) ∨
      Canonical x.toModel.unpack ∧ Canonical y.toModel.unpack ∧
        v = rounded 0 (units x.toModel.unpack + units y.toModel.unpack).toNat) := by
  have hadd : (x + y).toModel.unpack = unpack Format.binary64 (pack Format.binary64
    (UnpackedFloat.add Format.binary64 x.toModel.unpack y.toModel.unpack)) := rfl
  by_cases hinfinite :
      x.toModel.unpack = .infinity .positive ∨ y.toModel.unpack = .infinity .positive
  · rw [add_infinite ((nonneg_cases hx).imp_right And.left) ((nonneg_cases hy).imp_right And.left)
      hinfinite, unpack_pack_infinity] at hadd
    exact ⟨⊤, .infinite hadd, .inl ⟨rfl, hinfinite⟩⟩
  · rw [not_or] at hinfinite
    obtain ⟨hcx, hux⟩ := (nonneg_cases hx).resolve_left hinfinite.1
    obtain ⟨hcy, huy⟩ := (nonneg_cases hy).resolve_left hinfinite.2
    obtain ⟨hc, hunits⟩ := add_spec hcx hcy hux huy
    exact ⟨_, .finite hc hunits hadd, .inr ⟨hcx, hcy, rfl⟩⟩

theorem square_cases {x : Float} (hx : Coord.zero ≤ x) : ∃ v : ℕ∞, Holds (x * x) v ∧
    (v = ⊤ ∧ x.toModel.unpack = .infinity .positive ∨
      Canonical x.toModel.unpack ∧
        v = rounded 1074 (units x.toModel.unpack * units x.toModel.unpack).toNat) := by
  have hmul : (x * x).toModel.unpack = unpack Format.binary64 (pack Format.binary64
    (UnpackedFloat.mul Format.binary64 x.toModel.unpack x.toModel.unpack)) := rfl
  rcases nonneg_cases hx with hinf | ⟨hcx, -⟩
  · have hinfinite : UnpackedFloat.mul Format.binary64 (.infinity .positive)
        (.infinity .positive) = .infinity .positive := rfl
    rw [hinf, hinfinite, unpack_pack_infinity] at hmul
    exact ⟨⊤, .infinite hmul, .inl ⟨rfl, hinf⟩⟩
  · obtain ⟨hc, hunits⟩ := square_spec hcx
    exact ⟨_, .finite hc hunits hmul, .inr ⟨hcx, rfl⟩⟩

/-- Nothing finite is above or below an infinite number. -/
theorem not_infinite_of_le {x x' : Float} (h : x ≤ x') :
    (Canonical x'.toModel.unpack → x.toModel.unpack ≠ .infinity .positive) ∧
      (Canonical x.toModel.unpack → x'.toModel.unpack ≠ .infinity .negative) := by
  obtain ⟨-, -, hplace⟩ := (le_iff _ _).mp h
  constructor
  · intro hc hx
    rw [hx] at hplace
    exact absurd (place_lt_infinity hc).1 (not_lt.mpr hplace)
  · intro hc hx
    rw [hx] at hplace
    exact absurd (place_lt_infinity hc).2 (not_lt.mpr hplace)

theorem units_le {x x' : Float} (h : x ≤ x') (hc : Canonical x.toModel.unpack)
    (hc' : Canonical x'.toModel.unpack) : units x.toModel.unpack ≤ units x'.toModel.unpack :=
  (place_le_iff hc hc').mp ((le_iff _ _).mp h).2.2

/-- Machine numbers keep the order that distances rest on, infinities and
rounding included. -/
instance : MonotoneCoord Float where
  numbers_of_le h := ⟨((le_iff _ _).mp h).1, ((le_iff _ _).mp h).2.1⟩
  numbers_of_lt := numbers_of_lt
  zero_le_zero := holds_zero.le holds_zero le_rfl
  zero_le_sub h := by
    obtain ⟨v, hv, -⟩ := sub_cases h
    exact holds_zero.le hv bot_le
  sub_le_sub {a a' b b'} h ha hb := by
    have h' : b' < a' := by
      obtain ⟨hna, hnb⟩ := numbers_of_lt h
      obtain ⟨-, hna', hplace⟩ := (le_iff _ _).mp ha
      obtain ⟨hnb', -, hplace'⟩ := (le_iff _ _).mp hb
      rw [lt_iff hnb' hna']
      exact hplace'.trans_lt (((lt_iff hna hnb).mp h).trans_le hplace)
    obtain ⟨v, hv, hcases⟩ := sub_cases h
    obtain ⟨v', hv', ⟨rfl, -⟩ | ⟨hca', hcb', rfl⟩⟩ := sub_cases h'
    · exact hv.le hv' le_top
    · rcases hcases with ⟨-, hinf | hinf⟩ | ⟨hca, hcb, rfl⟩
      · exact absurd hinf ((not_infinite_of_le ha).1 hca')
      · exact absurd hinf ((not_infinite_of_le hb).2 hcb')
      · have hua := units_le ha hca hca'
        have hub := units_le hb hcb' hcb
        exact hv.le hv' (Nat.cast_le.mpr (rounded_mono 0 (by omega)))
  zero_le_square h := by
    obtain ⟨v, hv, -⟩ := square_cases h
    exact holds_zero.le hv bot_le
  square_le_square {a b} h hab := by
    obtain ⟨v, hv, hcases⟩ := square_cases h
    obtain ⟨v', hv', ⟨rfl, -⟩ | ⟨hcb, rfl⟩⟩ := square_cases (OrderedCoord.le_trans h hab)
    · exact hv.le hv' le_top
    · rcases hcases with ⟨-, hinf⟩ | ⟨hca, rfl⟩
      · exact absurd hinf ((not_infinite_of_le hab).1 hcb)
      · have hpos := units_le h (.zero .positive) hca
        have hmono := mul_self_le_mul_self hpos (units_le hab hca hcb)
        exact hv.le hv' (Nat.cast_le.mpr (rounded_mono 1074 (Int.toNat_le_toNat hmono)))
  zero_le_add h h' := by
    obtain ⟨v, hv, -⟩ := add_cases h h'
    exact holds_zero.le hv bot_le
  add_le_add {a a' b b'} h h' ha hb := by
    obtain ⟨v, hv, hcases⟩ := add_cases h h'
    obtain ⟨v', hv', ⟨rfl, -⟩ | ⟨hca', hcb', rfl⟩⟩ :=
      add_cases (OrderedCoord.le_trans h ha) (OrderedCoord.le_trans h' hb)
    · exact hv.le hv' le_top
    · rcases hcases with ⟨-, hinf | hinf⟩ | ⟨hca, hcb, rfl⟩
      · exact absurd hinf ((not_infinite_of_le ha).1 hca')
      · exact absurd hinf ((not_infinite_of_le hb).1 hcb')
      · have hua := units_le ha hca hca'
        have hub := units_le hb hcb hcb'
        exact hv.le hv' (Nat.cast_le.mpr (rounded_mono 0 (by omega)))

end Machine

end Vicinity.Binary64
