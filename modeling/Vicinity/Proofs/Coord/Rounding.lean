import Mathlib
import Vicinity.Proofs.Coord.Float

/-!
# Rounding

A finite number is an integer count of the smallest positive one, and numbers
are ordered as their counts are. Sums, differences and squares are the exact
counts rounded to 53 bits, and rounding is monotone: numbers of one size are
rounded on one grid, and between sizes stands a power of two that lies on both
grids.
-/

set_option autoImplicit false

namespace Vicinity.Binary64

open Float.Model (Format UnpackedFloat totalExponent)
open Float.Model.UnpackedFloat

section Nearest

/-- How many times `2 ^ s` goes into `m`, rounded to the nearest count and
from halfway to the even one. -/
def nearest (m s : Nat) : Nat :=
  m / 2 ^ s +
    if 2 ^ s < 2 * (m % 2 ^ s) ∨ 2 * (m % 2 ^ s) = 2 ^ s ∧ m / 2 ^ s % 2 = 1 then 1 else 0

theorem nearest_mono {m m' : Nat} (h : m ≤ m') (s : Nat) : nearest m s ≤ nearest m' s := by
  have hp : 0 < 2 ^ s := by positivity
  have hq : m / 2 ^ s ≤ m' / 2 ^ s := Nat.div_le_div_right h
  rcases hq.lt_or_eq with hlt | heq
  · unfold nearest
    split_ifs <;> omega
  · have hr : m % 2 ^ s ≤ m' % 2 ^ s := by
      have hm := Nat.div_add_mod m (2 ^ s)
      have hm' := Nat.div_add_mod m' (2 ^ s)
      rw [heq] at hm
      omega
    unfold nearest
    rw [heq]
    split_ifs <;> omega

theorem nearest_scale (m s k : Nat) : nearest (m * 2 ^ k) (s + k) = nearest m s := by
  have hk : 0 < 2 ^ k := by positivity
  have hq : m * 2 ^ k / 2 ^ (s + k) = m / 2 ^ s := by
    rw [pow_add, Nat.mul_div_mul_right _ _ hk]
  have hr : m * 2 ^ k % 2 ^ (s + k) = m % 2 ^ s * 2 ^ k := by
    rw [pow_add, Nat.mul_mod_mul_right]
  have hup : 2 ^ (s + k) < 2 * (m * 2 ^ k % 2 ^ (s + k)) ↔ 2 ^ s < 2 * (m % 2 ^ s) := by
    rw [hr, pow_add, ← mul_assoc, Nat.mul_lt_mul_right hk]
  have htie : 2 * (m * 2 ^ k % 2 ^ (s + k)) = 2 ^ (s + k) ↔ 2 * (m % 2 ^ s) = 2 ^ s := by
    rw [hr, pow_add, ← mul_assoc, Nat.mul_left_inj hk.ne']
  unfold nearest
  rw [hq]
  simp only [hup, htie]

theorem nearest_exact (q s : Nat) : nearest (q * 2 ^ s) s = q := by
  have hscale := nearest_scale q 0 s
  rw [zero_add] at hscale
  rw [hscale]
  simp [nearest, Nat.mod_one]

/-- What the bits that are kept aside during a shift say about what was
dropped. -/
theorem shiftRight_spec (m s : Nat) :
    let em := ExtendedMantissa.ofMantissaAndAccuracy m .exact >>> s
    em.mantissa = m / 2 ^ s ∧ (em.roundBit = true ↔ 2 ^ s ≤ 2 * (m % 2 ^ s)) ∧
      (em.stickyBit = true ↔ m % 2 ^ s ≠ 0 ∧ 2 * (m % 2 ^ s) ≠ 2 ^ s) := by
  induction s with
  | zero =>
    simp [HShiftRight.hShiftRight, Nat.repeat, ExtendedMantissa.ofMantissaAndAccuracy, Nat.mod_one]
  | succ s ih =>
    obtain ⟨hmantissa, hround, hsticky⟩ := ih
    have hstep : ExtendedMantissa.ofMantissaAndAccuracy m .exact >>> (s + 1) =
        (ExtendedMantissa.ofMantissaAndAccuracy m .exact >>> s).shiftRightOne := rfl
    have hp : 0 < 2 ^ s := by positivity
    have hmod : m % 2 ^ (s + 1) = m % 2 ^ s + 2 ^ s * (m / 2 ^ s % 2) := by
      rw [pow_succ, Nat.mod_mul]
    have hlt := Nat.mod_lt m hp
    have hdiv : m / 2 ^ s / 2 = m / 2 ^ (s + 1) := by rw [pow_succ, Nat.div_div_eq_div_mul]
    have hpow : 2 ^ (s + 1) = 2 * 2 ^ s := pow_succ' 2 s
    rw [hstep]
    simp only [ExtendedMantissa.shiftRightOne, hmantissa, bne_iff_ne, Bool.or_eq_true, hround,
      hsticky, hdiv, true_and]
    rcases Nat.mod_two_eq_zero_or_one (m / 2 ^ s) with hbit | hbit
    · rw [hbit, mul_zero] at hmod
      rw [hmod, hbit]
      constructor <;> omega
    · rw [hbit, mul_one] at hmod
      rw [hmod, hbit]
      constructor <;> omega

theorem roundedMantissa_shiftRight (m s : Nat) :
    (ExtendedMantissa.ofMantissaAndAccuracy m .exact >>> s).roundedMantissa = nearest m s := by
  obtain ⟨hmantissa, hround, hsticky⟩ := shiftRight_spec m s
  have hp : 0 < 2 ^ s := by positivity
  generalize ExtendedMantissa.ofMantissaAndAccuracy m .exact >>> s = em at *
  obtain ⟨q, r, t⟩ := em
  simp only at hmantissa hround hsticky
  subst hmantissa
  rw [nearest]
  cases r with
  | false =>
    have hless : ¬ 2 ^ s ≤ 2 * (m % 2 ^ s) := mt hround.mpr Bool.false_ne_true
    rw [if_neg (by omega)]
    cases t
    · rfl
    · rfl
  | true =>
    have hhalf := hround.mp rfl
    cases t with
    | false =>
      have htie : 2 * (m % 2 ^ s) = 2 ^ s := by
        by_contra hne
        exact Bool.false_ne_true (hsticky.mpr ⟨by omega, hne⟩)
      change m / 2 ^ s + m / 2 ^ s % 2 = _
      split_ifs <;> omega
    | true =>
      have hmore := (hsticky.mp rfl).2
      rw [if_pos (.inl (by omega))]
      rfl

end Nearest

section Units

/-- How often the smallest positive number goes into a number. -/
def units : UnpackedFloat → ℤ
  | .finite s m e _ => s.apply (m * 2 ^ (e + 1074).toNat : Nat)
  | _ => 0

structure Fits (m : Nat) (e : ℤ) : Prop where
  upper : m < 2 ^ 53
  lower : -1074 ≤ e
  normal : 2 ^ 52 ≤ m ∨ e = -1074

inductive Canonical : UnpackedFloat → Prop where
  | zero (s : Sign) : Canonical (.zero s)
  | finite (s : Sign) {m : Nat} {e : ℤ} (hm : 0 < m) (h : Fits m e) : Canonical (.finite s m e hm)

theorem units_finite_pos {m : Nat} {e : ℤ} (hm : 0 < m) :
    0 < units (.finite .positive m e hm) ∧ units (.finite .negative m e hm) < 0 := by
  have hpos : 0 < m * 2 ^ (e + 1074).toNat := by positivity
  simp only [units, Sign.apply]
  constructor <;> omega

theorem Fits.lt_of_place {m k : Nat} {e f : ℤ} (ha : Fits m e) (hb : Fits k f)
    (h : e < f ∨ e = f ∧ m < k) :
    m * 2 ^ (e + 1074).toNat < k * 2 ^ (f + 1074).toNat := by
  have he := ha.lower
  rcases h with hlt | ⟨rfl, hlt⟩
  · -- With a larger exponent the mantissa has all its bits.
    have hk52 : 2 ^ 52 ≤ k := hb.normal.resolve_right (by omega)
    obtain ⟨g, hg⟩ := Nat.exists_eq_add_of_lt (show (e + 1074).toNat < (f + 1074).toNat by omega)
    rw [hg, pow_succ, pow_add]
    calc m * 2 ^ (e + 1074).toNat < 2 ^ 53 * 2 ^ (e + 1074).toNat :=
          Nat.mul_lt_mul_of_pos_right ha.upper (by positivity)
      _ ≤ 2 ^ 53 * (2 ^ (e + 1074).toNat * 2 ^ g) :=
          Nat.mul_le_mul_left _ (Nat.le_mul_of_pos_right _ (by positivity))
      _ = 2 ^ 52 * (2 ^ (e + 1074).toNat * 2 ^ g * 2) := by ring
      _ ≤ k * (2 ^ (e + 1074).toNat * 2 ^ g * 2) := Nat.mul_le_mul_right _ hk52
  · exact Nat.mul_lt_mul_of_pos_right hlt (by positivity)

theorem units_lt_of_place {a b : UnpackedFloat} (ha : Canonical a) (hb : Canonical b)
    (h : place a < place b) : units a < units b := by
  cases ha with
  | zero s =>
    cases hb with
    | zero t => exact absurd h (lt_irrefl _)
    | finite t hk hb =>
      cases t with
      | positive => exact (units_finite_pos hk).1
      | negative => simp [place, Prod.Lex.toLex_lt_toLex] at h
  | finite s hm ha =>
    cases hb with
    | zero t =>
      cases s with
      | positive => simp [place, Prod.Lex.toLex_lt_toLex] at h
      | negative => exact (units_finite_pos hm).2
    | finite t hk hb =>
      cases s with
      | positive =>
        cases t with
        | positive =>
          simp only [place, Prod.Lex.toLex_lt_toLex, lt_irrefl, true_and, false_or] at h
          have hlt := ha.lt_of_place hb (by omega)
          simp only [units, Sign.apply]
          omega
        | negative => simp [place, Prod.Lex.toLex_lt_toLex] at h
      | negative =>
        cases t with
        | positive => exact (units_finite_pos hm).2.trans (units_finite_pos hk).1
        | negative =>
          simp only [place, Prod.Lex.toLex_lt_toLex, lt_irrefl, true_and, false_or] at h
          have hlt := hb.lt_of_place ha (by omega)
          simp only [units, Sign.apply]
          omega

theorem units_eq_of_place {a b : UnpackedFloat} (ha : Canonical a) (hb : Canonical b)
    (h : place a = place b) : units a = units b := by
  cases ha with
  | zero s =>
    cases hb with
    | zero t => rfl
    | finite t hk hb => cases t <;> simp [place] at h
  | finite s hm ha =>
    cases hb with
    | zero t => cases s <;> simp [place] at h
    | finite t hk hb =>
      cases s <;> cases t <;> simp [place] at h <;> obtain ⟨rfl, rfl⟩ := h <;> rfl

/-- Finite numbers are ordered as their units are. -/
theorem place_le_iff {a b : UnpackedFloat} (ha : Canonical a) (hb : Canonical b) :
    place a ≤ place b ↔ units a ≤ units b := by
  rcases lt_trichotomy (place a) (place b) with h | h | h
  · exact iff_of_true h.le (units_lt_of_place ha hb h).le
  · exact iff_of_true h.le (units_eq_of_place ha hb h).le
  · exact iff_of_false (not_le.mpr h) (not_le.mpr (units_lt_of_place hb ha h))

end Units

section Rounding

theorem log2_scale {m : Nat} (hm : m ≠ 0) (k : Nat) : (m * 2 ^ k).log2 = m.log2 + k := by
  rw [Nat.log2_eq_iff (by positivity), Nat.pow_add, Nat.add_right_comm, Nat.pow_add]
  constructor
  · exact Nat.mul_le_mul_right _ (Nat.log2_self_le hm)
  · exact Nat.mul_lt_mul_of_pos_right Nat.lt_log2_self (by positivity)

theorem log2_mono {m m' : Nat} (hm : m ≠ 0) (h : m ≤ m') : m.log2 ≤ m'.log2 := by
  rw [Nat.le_log2 (by omega)]
  exact (Nat.log2_self_le hm).trans h

theorem nearest_lower {m s c : Nat} (h : c * 2 ^ s ≤ m) : c ≤ nearest m s := by
  have hmono := nearest_mono h s
  rwa [nearest_exact] at hmono

theorem nearest_upper {m s c : Nat} (h : m ≤ c * 2 ^ s) : nearest m s ≤ c := by
  have hmono := nearest_mono h s
  rwa [nearest_exact] at hmono

theorem nearest_le_of_log2 {m s : Nat} (h : m.log2 ≤ s + 52) : nearest m s ≤ 2 ^ 53 := by
  apply nearest_upper
  rw [← pow_add]
  exact Nat.lt_log2_self.le.trans (Nat.pow_le_pow_right (by decide) (by omega))

theorem le_nearest_of_log2 {m s : Nat} (hm : m ≠ 0) (h : s + 52 ≤ m.log2) :
    2 ^ 52 ≤ nearest m s := by
  apply nearest_lower
  rw [← pow_add]
  exact (Nat.pow_le_pow_right (by decide) (by omega)).trans (Nat.log2_self_le hm)

/-- What `m` units of `2 ^ (-1074 - u)` are rounded to, in units of `2 ^ (-1074)`. -/
def rounded (u m : Nat) : Nat :=
  nearest m (max (m.log2 - 52) u) * 2 ^ (max (m.log2 - 52) u - u)

theorem rounded_mono (u : Nat) {m m' : Nat} (h : m ≤ m') : rounded u m ≤ rounded u m' := by
  by_cases hm : m = 0
  · subst hm
    have hzero : nearest 0 u = 0 := by simp [nearest]
    simp [rounded, hzero]
  have hlog := log2_mono hm h
  unfold rounded
  rcases Nat.lt_or_ge (max (m.log2 - 52) u) (max (m'.log2 - 52) u) with hlt | hge
  · -- Then `m'` has more than 53 bits, and the larger of the two grids separates the numbers.
    have hupper : nearest m (max (m.log2 - 52) u) ≤ 2 ^ 53 := nearest_le_of_log2 (by omega)
    have hlower : 2 ^ 52 ≤ nearest m' (max (m'.log2 - 52) u) :=
      le_nearest_of_log2 (by omega) (by omega)
    calc nearest m (max (m.log2 - 52) u) * 2 ^ (max (m.log2 - 52) u - u)
        ≤ 2 ^ 53 * 2 ^ (max (m.log2 - 52) u - u) := Nat.mul_le_mul_right _ hupper
      _ = 2 ^ 52 * 2 ^ (max (m.log2 - 52) u - u + 1) := by ring
      _ ≤ 2 ^ 52 * 2 ^ (max (m'.log2 - 52) u - u) :=
          Nat.mul_le_mul_left _ (Nat.pow_le_pow_right (by decide) (by omega))
      _ ≤ nearest m' (max (m'.log2 - 52) u) * 2 ^ (max (m'.log2 - 52) u - u) :=
          Nat.mul_le_mul_right _ hlower
  · have hsame : max (m'.log2 - 52) u = max (m.log2 - 52) u := by omega
    rw [hsame]
    exact Nat.mul_le_mul_right _ (nearest_mono h _)

theorem targetExponent_eq (m : Nat) (e : ℤ) :
    Format.binary64.targetExponent (totalExponent m e) = max (m.log2 + e - 52) (-1074) := by
  have hbits : (Format.binary64.mantissaBits : ℤ) = 53 := rfl
  have hmin : Format.binary64.minExponent = -1074 := rfl
  rw [Format.targetExponent, totalExponent, hbits, hmin]
  omega

/-- The last step of rounding: a mantissa that became too long gives a bit to
the exponent. -/
def carried (sign : Sign) (q : Nat) (e : ℤ) : UnpackedFloat :=
  let (em, e) := shiftToTargetExponent Format.binary64 q e .exact
  if h : em.mantissa = 0 then .zero sign else .finite sign em.mantissa e (Nat.pos_of_ne_zero h)

theorem carried_spec (sign : Sign) {q : Nat} {e : ℤ} (hupper : q ≤ 2 ^ 53) (he : -1074 ≤ e)
    (hlower : 2 ^ 52 ≤ q ∨ e = -1074) :
    Canonical (carried sign q e) ∧
      units (carried sign q e) = sign.apply (q * 2 ^ (e + 1074).toNat : Nat) := by
  rcases hupper.lt_or_eq with hlt | rfl
  · have hbits : q.log2 ≤ 52 := by
      by_cases hq : q = 0
      · simp [hq]
      · have := (Nat.log2_lt hq).mpr hlt
        omega
    have hshift : shiftToTargetExponent Format.binary64 q e .exact =
        (ExtendedMantissa.ofMantissaAndAccuracy q .exact >>> 0, e) := by
      rw [shiftToTargetExponent, targetExponent_eq, shiftToExponent,
        show (max ((q.log2 : ℤ) + e - 52) (-1074) - e).toNat = 0 by omega]
      simp
    have hmantissa : (ExtendedMantissa.ofMantissaAndAccuracy q .exact >>> 0).mantissa = q := rfl
    simp only [carried, hshift, hmantissa]
    split_ifs with hq
    · refine ⟨.zero sign, ?_⟩
      rw [hq, Nat.zero_mul]
      cases sign <;> rfl
    · exact ⟨.finite sign _ ⟨hlt, he, hlower⟩, rfl⟩
  · have hshift : shiftToTargetExponent Format.binary64 (2 ^ 53) e .exact =
        (ExtendedMantissa.ofMantissaAndAccuracy (2 ^ 53) .exact >>> 1, e + 1) := by
      rw [shiftToTargetExponent, targetExponent_eq, shiftToExponent, Nat.log2_two_pow,
        show (max (((53 : Nat) : ℤ) + e - 52) (-1074) - e).toNat = 1 by omega]
      simp
    have hmantissa :
        (ExtendedMantissa.ofMantissaAndAccuracy (2 ^ 53) .exact >>> 1).mantissa = 2 ^ 52 := rfl
    simp only [carried, hshift, hmantissa]
    rw [dif_neg (by decide)]
    refine ⟨.finite sign _ ⟨by decide, by omega, .inl le_rfl⟩, ?_⟩
    rw [units, show (e + 1 + 1074).toNat = (e + 1074).toNat + 1 by omega, pow_succ]
    congr 2
    ring

/-- Rounding gives a canonical number that holds the nearest count of units. -/
theorem roundWithAccuracy_spec (sign : Sign) {m : Nat} {e : ℤ} {u : Nat} (hm : 0 < m)
    (he : -1074 - u ≤ e) (htarget : e ≤ max (m.log2 + e - 52) (-1074)) :
    Canonical (roundWithAccuracy Format.binary64 sign m e .exact) ∧
      units (roundWithAccuracy Format.binary64 sign m e .exact) =
        sign.apply (rounded u (m * 2 ^ (e + 1074 + u).toNat) : Nat) := by
  obtain ⟨s, hs⟩ := Int.le.dest htarget
  obtain ⟨k, hk⟩ := Int.eq_ofNat_of_zero_le (show 0 ≤ e + 1074 + u by omega)
  have hlog := log2_scale hm.ne' k
  -- The shift in units is the shift of the mantissa and what the units are finer by.
  have hshift : max ((m * 2 ^ k).log2 - 52) u = s + k := by omega
  have hrounded : rounded u (m * 2 ^ k) = nearest m s * 2 ^ (e + s + 1074).toNat := by
    rw [rounded, hshift, nearest_scale]
    congr 2
    omega
  have hupper : nearest m s ≤ 2 ^ 53 := nearest_le_of_log2 (by omega)
  have hlower : 2 ^ 52 ≤ nearest m s ∨ e + s = -1074 := by
    by_cases hmin : e + s = -1074
    · exact .inr hmin
    · exact .inl (le_nearest_of_log2 hm.ne' (by omega))
  have hfirst : shiftToTargetExponent Format.binary64 m e .exact =
      (ExtendedMantissa.ofMantissaAndAccuracy m .exact >>> s, e + s) := by
    rw [shiftToTargetExponent, targetExponent_eq, shiftToExponent, ← hs]
    simp
  have hcarried : roundWithAccuracy Format.binary64 sign m e .exact =
      carried sign (nearest m s) (e + s) := by
    rw [← roundedMantissa_shiftRight, roundWithAccuracy, hfirst, carried]
  rw [hk, Int.toNat_natCast, hrounded, hcarried]
  exact carried_spec sign hupper (by omega) hlower

theorem round_spec (sign : Sign) {m : Nat} {e : ℤ} (hm : 0 < m) (he : -1074 ≤ e) :
    Canonical (UnpackedFloat.round Format.binary64 sign m e) ∧
      units (UnpackedFloat.round Format.binary64 sign m e) =
        sign.apply (rounded 0 (m * 2 ^ (e + 1074).toNat) : Nat) := by
  obtain ⟨s, hs⟩ : ∃ s, (e - max ((m.log2 : ℤ) + e - 52) (-1074)).toNat = s := ⟨_, rfl⟩
  have hlog := log2_scale hm.ne' s
  have hround : UnpackedFloat.round Format.binary64 sign m e =
      roundWithAccuracy Format.binary64 sign (m * 2 ^ s) (e - s) .exact := by
    simp only [UnpackedFloat.round, decreaseExponent, targetExponent_eq, hs, Nat.shiftLeft_eq]
  have hunits : m * 2 ^ s * 2 ^ (e - s + 1074 + (0 : Nat)).toNat = m * 2 ^ (e + 1074).toNat := by
    rw [mul_assoc, ← pow_add]
    congr 2
    omega
  rw [hround, ← hunits]
  exact roundWithAccuracy_spec sign (by positivity) (by omega) (by omega)

theorem normalize_spec (zeroSign : Sign) {z e : ℤ} (hz : 0 < z) (he : -1074 ≤ e) :
    Canonical (UnpackedFloat.normalize Format.binary64 z e zeroSign) ∧
      units (UnpackedFloat.normalize Format.binary64 z e zeroSign) =
        rounded 0 (z * 2 ^ (e + 1074).toNat).toNat := by
  obtain ⟨m, rfl⟩ := Int.eq_ofNat_of_zero_le hz.le
  have hcompare : compare (m : ℤ) 0 = .gt := compare_gt_iff_gt.mpr hz
  have hcast : ((m : ℤ) * 2 ^ (e + 1074).toNat).toNat = m * 2 ^ (e + 1074).toNat := by
    exact_mod_cast Int.toNat_natCast (m * 2 ^ (e + 1074).toNat)
  rw [UnpackedFloat.normalize, hcompare, hcast]
  exact round_spec .positive (by omega) he

/-- A number that needs no rounding is rounded to itself. -/
theorem Fits.rounded_eq {m : Nat} {e : ℤ} (h : Fits m e) (hm : 0 < m) :
    rounded 0 (m * 2 ^ (e + 1074).toNat) = m * 2 ^ (e + 1074).toNat := by
  have hlog := log2_scale hm.ne' (e + 1074).toNat
  have hbits := (Nat.log2_lt hm.ne').mpr h.upper
  have hshift : max ((m * 2 ^ (e + 1074).toNat).log2 - 52) 0 = (e + 1074).toNat := by
    rcases h.normal with hnormal | rfl
    · have := (Nat.le_log2 hm.ne').mpr hnormal
      omega
    · rw [show (-1074 + 1074 : ℤ).toNat = 0 from rfl] at hlog ⊢
      omega
  rw [rounded, hshift, nearest_exact, Nat.sub_zero]

end Rounding

section Operations

variable {a b : UnpackedFloat}

theorem units_decreaseExponent (s : Sign) {m : Nat} {e g : ℤ} (hm : 0 < m) (hg : -1074 ≤ g)
    (h : g ≤ e) : s.apply ((decreaseExponent m e g).1 : ℤ) * 2 ^ (g + 1074).toNat =
      units (.finite s m e hm) := by
  have hunits : m <<< (e - g).toNat * 2 ^ (g + 1074).toNat = m * 2 ^ (e + 1074).toNat := by
    rw [Nat.shiftLeft_eq, mul_assoc, ← pow_add]
    congr 2
    omega
  have hcast : ((m <<< (e - g).toNat : Nat) : ℤ) * 2 ^ (g + 1074).toNat =
      (m * 2 ^ (e + 1074).toNat : Nat) := by
    exact_mod_cast congrArg (Nat.cast : Nat → ℤ) hunits
  cases s with
  | negative => simp only [units, decreaseExponent, Sign.apply, neg_mul, hcast]
  | positive => simp only [units, decreaseExponent, Sign.apply, hcast]

theorem Fits.rounded_units {m : Nat} {e : ℤ} (h : Fits m e) (hm : 0 < m) :
    units (.finite .positive m e hm) = rounded 0 (units (.finite .positive m e hm)).toNat := by
  simp only [units, Sign.apply, Int.toNat_natCast, h.rounded_eq hm]

theorem rounded_zero (u : Nat) : rounded u 0 = 0 := by
  simp [rounded, nearest]

theorem positive_of_units {s : Sign} {m : Nat} {e : ℤ} (hm : 0 < m)
    (h : 0 ≤ units (.finite s m e hm)) : s = .positive := by
  cases s with
  | positive => rfl
  | negative => exact absurd h (not_le.mpr (units_finite_pos hm).2)

theorem sub_spec (ha : Canonical a) (hb : Canonical b) (h : units b < units a) :
    Canonical (UnpackedFloat.sub Format.binary64 a b) ∧
      units (UnpackedFloat.sub Format.binary64 a b) = rounded 0 (units a - units b).toNat := by
  cases ha with
  | zero s =>
    cases hb with
    | zero t => exact absurd h (lt_irrefl _)
    | @finite t k f hk hb =>
      cases t with
      | positive => exact absurd h (not_lt.mpr (units_finite_pos hk).1.le)
      | negative =>
        refine ⟨.finite .positive hk hb, ?_⟩
        have hneg : units (.zero s) - units (.finite .negative k f hk) =
            units (.finite .positive k f hk) := by simp [units, Sign.apply]
        rw [hneg]
        exact hb.rounded_units hk
  | finite s hm ha =>
    cases hb with
    | zero t =>
      obtain rfl := positive_of_units hm h.le
      refine ⟨.finite .positive hm ha, ?_⟩
      rw [show units (.zero t) = 0 from rfl, sub_zero]
      exact ha.rounded_units hm
    | finite t hk hb =>
      have hmin := le_min ha.lower hb.lower
      have hdiff := units_decreaseExponent s hm hmin (min_le_left _ _)
      have hdiff' := units_decreaseExponent t hk hmin (min_le_right _ _)
      rw [← hdiff, ← hdiff'] at h
      rw [← hdiff, ← hdiff', ← sub_mul]
      exact normalize_spec .positive (sub_pos.mpr (lt_of_mul_lt_mul_right h (by positivity))) hmin

theorem add_spec (ha : Canonical a) (hb : Canonical b) (h : 0 ≤ units a) (h' : 0 ≤ units b) :
    Canonical (UnpackedFloat.add Format.binary64 a b) ∧
      units (UnpackedFloat.add Format.binary64 a b) = rounded 0 (units a + units b).toNat := by
  cases ha with
  | zero s =>
    cases hb with
    | zero t =>
      cases s <;> cases t <;> exact ⟨.zero _, congrArg Nat.cast (rounded_zero 0).symm⟩
    | finite t hk hb =>
      obtain rfl := positive_of_units hk h'
      refine ⟨.finite .positive hk hb, ?_⟩
      rw [show units (.zero s) = 0 from rfl, zero_add]
      exact hb.rounded_units hk
  | @finite s m e hm ha =>
    obtain rfl := positive_of_units hm h
    cases hb with
    | zero t =>
      refine ⟨.finite .positive hm ha, ?_⟩
      rw [show units (.zero t) = 0 from rfl, add_zero]
      exact ha.rounded_units hm
    | @finite t k f hk hb =>
      obtain rfl := positive_of_units hk h'
      have hmin := le_min ha.lower hb.lower
      have hsum := units_decreaseExponent .positive hm hmin (min_le_left _ _)
      have hsum' := units_decreaseExponent .positive hk hmin (min_le_right _ _)
      have hpos := add_pos (units_finite_pos (e := e) hm).1 (units_finite_pos (e := f) hk).1
      rw [← hsum, ← hsum', ← add_mul] at hpos
      rw [← hsum, ← hsum', ← add_mul]
      exact normalize_spec .positive (pos_of_mul_pos_left hpos (by positivity)) hmin

theorem square_spec (ha : Canonical a) :
    Canonical (UnpackedFloat.mul Format.binary64 a a) ∧
      units (UnpackedFloat.mul Format.binary64 a a) = rounded 1074 (units a * units a).toNat := by
  cases ha with
  | zero s => exact ⟨.zero _, by simp [units, UnpackedFloat.mul, rounded_zero]⟩
  | @finite s m e hm ha =>
    have he := ha.lower
    have htarget : e + e ≤ max (((m * m).log2 : ℤ) + (e + e) - 52) (-1074) := by
      rcases ha.normal with hnormal | rfl
      · have hbits : 52 ≤ (m * m).log2 :=
          (Nat.le_log2 (by positivity)).mpr (hnormal.trans (Nat.le_mul_of_pos_left m hm))
        omega
      · omega
    have hsquare : (units (.finite s m e hm) * units (.finite s m e hm)).toNat =
        m * m * 2 ^ (e + e + 1074 + (1074 : Nat)).toNat := by
      rw [show (e + e + 1074 + (1074 : Nat)).toNat = (e + 1074).toNat + (e + 1074).toNat by omega,
        pow_add, mul_mul_mul_comm, ← Int.toNat_natCast (m * _ * _)]
      congr 1
      cases s <;> simp [units, Sign.apply]
    have hsign : s * s = .positive := by cases s <;> rfl
    rw [hsquare]
    simp only [UnpackedFloat.mul, hsign]
    exact roundWithAccuracy_spec .positive (by positivity) (by omega) htarget

end Operations

end Vicinity.Binary64
