import Mathlib
import Vicinity.Proofs.Coord.Division
import Vicinity.Proofs.Morton.Interleave

/-!
# Cells and keys

With exact arithmetic a cell is one of the equal parts of an axis, so cells
grow with the coordinate. A key is nothing but the bits of the cells. Two keys
first differ at a bit at which some axis differs for the first time, which is
why keys grow with the cells on all axes and tell different cells apart.
-/

set_option autoImplicit false

namespace Vicinity

open ExactCoord (value)

/-- Counts and whole parts are those of the reals too. -/
class ExactCount (α : Type) [Coord α] extends ExactField α where
  ofNat (n : Nat) : Coord.isFinite (Coord.ofNat n : α) = true ∧ value (Coord.ofNat n) = n
  whole {a : α} : Coord.isFinite a = true → 0 ≤ value a → Coord.whole a = ⌊value a⌋₊

namespace Denotes

variable {α : Type} [Coord α] {a : α} {x : ℝ}

theorem clampUnit [ExactField α] (ha : Denotes a x) :
    Denotes (Coord.clampUnit a) (max 0 (min 1 x)) := by
  simp only [Coord.clampUnit, ha.lt_iff .zero, one.lt_iff ha]
  split_ifs with hbelow habove
  · rw [max_eq_left ((min_le_right 1 x).trans hbelow.le)]
    exact .zero
  · rw [min_eq_left habove.le, max_eq_right zero_le_one]
    exact .one
  · rw [min_eq_right (not_lt.mp habove), max_eq_right (not_lt.mp hbelow)]
    exact ha

theorem ofNat [ExactCount α] (n : Nat) : Denotes (Coord.ofNat n : α) n := ExactCount.ofNat n

theorem whole [ExactCount α] (ha : Denotes a x) (hx : 0 ≤ x) : Coord.whole a = ⌊x⌋₊ := by
  rw [ExactCount.whole ha.1 (by rwa [ha.2]), ha.2]

end Denotes

instance : ExactCount ℚ where
  ofNat n := ⟨rfl, Rat.cast_natCast n⟩
  whole {q} _ _ := by
    have hfloor : ⌊(q : ℝ)⌋₊ = ⌊q⌋₊ := by
      rw [← Int.floor_toNat, Rat.floor_cast, Int.floor_toNat]
    exact hfloor.symm

namespace Morton

variable {α : Type} {d : Nat} [Coord α]

section Bits

theorem bitsPerAxis_mul_le (d : Nat) : bitsPerAxis d * d ≤ 63 :=
  (Nat.mul_le_mul_right d (min_le_left _ _)).trans (Nat.div_mul_le_self 63 d)

theorem cell_lt (scene : Box α d) (p : Point α d) (i : Fin d) :
    cell scene p i < 2 ^ bitsPerAxis d :=
  (min_le_right _ _).trans_lt (Nat.sub_lt (Nat.two_pow_pos _) Nat.one_pos)

theorem interleaveCells_interleaved (cells : Vector UInt64 d) :
    Interleaved cells (bitsPerAxis d) (interleaveCells cells) := by
  unfold interleaveCells
  split
  · next hd =>
    subst hd
    exact interleave3_interleaved cells
  · exact interleave_interleaved cells ((bitsPerAxis_mul_le d).trans (by decide))

variable (scene : Box α d) (p q : Point α d)

theorem testBit_key (k : Nat) : (key scene p).toNat.testBit k = true ↔
    ∃ b < bitsPerAxis d, ∃ i : Fin d, b * d + i = k ∧ (cell scene p i).testBit b = true := by
  have hword : ∀ i, (UInt64.ofNat (cell scene p i)).toNat = cell scene p i := by
    intro i
    rw [UInt64.toNat_ofNat']
    apply Nat.mod_eq_of_lt
    exact (cell_lt scene p i).trans_le (Nat.pow_le_pow_right (by decide)
      ((min_le_right _ _).trans (by decide)))
  rw [key, interleaveCells_interleaved]
  simp only [Vector.get_eq_getElem, Vector.getElem_ofFn, Fin.eta, hword]

theorem testBit_key_place {b : Nat} (hb : b < bitsPerAxis d) (i : Fin d) :
    (key scene p).toNat.testBit (b * d + i) = (cell scene p i).testBit b := by
  rw [Bool.eq_iff_iff, testBit_key]
  constructor
  · rintro ⟨b', -, i', hplace, hbit⟩
    obtain ⟨rfl, rfl⟩ := bitPlace_unique hplace
    exact hbit
  · intro hbit
    exact ⟨b, hb, i, rfl, hbit⟩

theorem testBit_cell_high {b : Nat} (hb : bitsPerAxis d ≤ b) (i : Fin d) :
    (cell scene p i).testBit b = false :=
  Nat.testBit_lt_two_pow ((cell_lt scene p i).trans_le (Nat.pow_le_pow_right (by decide) hb))

theorem key_lt : (key scene p).toNat < 2 ^ (d * bitsPerAxis d) := by
  apply Nat.lt_pow_two_of_testBit
  intro k hk
  rw [Bool.eq_false_iff, ne_eq, testBit_key]
  rintro ⟨b, hb, i, rfl, -⟩
  rw [Nat.mul_comm d] at hk
  exact (bitPlace_lt hb i).not_ge hk

variable {scene p q}

/-- Keys grow with the cells: the axis of the highest bit that a larger key has
and the other lacks has the larger cell, for above this bit its cells agree. -/
theorem key_le (h : ∀ i, cell scene p i ≤ cell scene q i) : key scene p ≤ key scene q := by
  rw [UInt64.le_iff_toNat_le]
  by_contra hlt
  obtain ⟨k, hlacks, hhas, habove⟩ := exists_testBit_of_lt (not_le.mp hlt)
  obtain ⟨b, hb, i, rfl, hcell⟩ := (testBit_key scene p k).mp hhas
  rw [testBit_key_place scene q hb] at hlacks
  apply (h i).not_gt
  apply Nat.lt_of_testBit b hlacks hcell
  intro b' hb'
  by_cases hbits : b' < bitsPerAxis d
  · rw [← testBit_key_place scene q hbits, ← testBit_key_place scene p hbits]
    apply habove
    have hplace : b * d < b' * d := Nat.mul_lt_mul_of_pos_right hb' i.pos
    omega
  · rw [testBit_cell_high scene q (not_lt.mp hbits), testBit_cell_high scene p (not_lt.mp hbits)]

theorem key_eq_iff : key scene p = key scene q ↔ ∀ i, cell scene p i = cell scene q i := by
  constructor
  · intro h i
    apply Nat.eq_of_testBit_eq
    intro b
    by_cases hb : b < bitsPerAxis d
    · rw [← testBit_key_place scene p hb, ← testBit_key_place scene q hb, h]
    · rw [testBit_cell_high scene p (not_lt.mp hb), testBit_cell_high scene q (not_lt.mp hb)]
  · intro h
    rw [key, key, funext h]

end Bits

section Parts

/-- Whether `x` belongs to one of the equal parts of a side, each with its lower
end: whatever lies below the side belongs to the first part, and whatever lies
above it, and its upper end, to the last. -/
def InPart (lower side : ℝ) (count c : Nat) (x : ℝ) : Prop :=
  (c ≠ 0 → lower + c * (side / count) ≤ x) ∧
    (c + 1 ≠ count → x < lower + (c + 1) * (side / count))

variable {lower side x x' : ℝ} {count c c' : Nat}

/-- What is not below another place belongs to no lower part. -/
theorem InPart.mono (hside : 0 < side) (h : InPart lower side count c x)
    (h' : InPart lower side count c' x') (hc : c < count) (hle : x ≤ x') : c ≤ c' := by
  by_contra hlt
  have hlower := h.1 (by omega)
  have hupper := h'.2 (by omega)
  have hwidth : 0 ≤ side / count := by positivity
  have hnext : ((c' + 1 : Nat) : ℝ) ≤ c := by exact_mod_cast not_le.mp hlt
  have hends := mul_le_mul_of_nonneg_right hnext hwidth
  push_cast at hends
  linarith

/-- A number moved into the unit interval is the number itself but for one of the ends. -/
theorem clamped_le {z : ℝ} (h : 0 < max 0 (min 1 z)) : max 0 (min 1 z) ≤ z := by
  rcases lt_max_iff.mp h with h | h
  · exact absurd h (lt_irrefl 0)
  · rw [max_eq_right h.le]
    exact min_le_right 1 z

theorem le_clamped {z : ℝ} (h : max 0 (min 1 z) < 1) : z ≤ max 0 (min 1 z) := by
  rcases min_lt_iff.mp ((le_max_right _ _).trans_lt h) with h | h
  · exact absurd h (lt_irrefl 1)
  · rw [min_eq_right h.le]
    exact le_max_right 0 z

/-- Rounding down finds the part. -/
theorem inPart_floor (hside : 0 < side) (hcount : 0 < count) : InPart lower side count
    (min ⌊max 0 (min 1 ((x - lower) / side)) * count⌋₊ (count - 1)) x := by
  generalize hz : (x - lower) / side = z
  generalize ht : max 0 (min 1 z) = t
  generalize hc : min ⌊t * count⌋₊ (count - 1) = c
  have hx : x = lower + z * side := by
    rw [← hz, div_mul_cancel₀ _ hside.ne']
    ring
  have hcells : (0 : ℝ) < count := by exact_mod_cast hcount
  have hpart : ∀ y : ℝ, y * side = y * count * (side / count) := by
    intro y
    field_simp
  have hwidth : 0 < side / count := by positivity
  have hnonneg : 0 ≤ t := ht ▸ le_max_left 0 _
  constructor
  · intro hc0
    have hfloor : (c : ℝ) ≤ t * count :=
      (Nat.cast_le.mpr (hc ▸ min_le_left _ _)).trans (Nat.floor_le (by positivity))
    have hcpos : (0 : ℝ) < c := by exact_mod_cast Nat.pos_of_ne_zero hc0
    have htz : t ≤ z := by
      rw [← ht]
      exact clamped_le (ht ▸ pos_of_mul_pos_left (hcpos.trans_le hfloor) hcells.le)
    have hends := mul_le_mul_of_nonneg_right hfloor hwidth.le
    have hinside := mul_le_mul_of_nonneg_right htz hside.le
    rw [hx]
    linarith [hpart t]
  · intro hlast
    have hbelow : c < count - 1 := by omega
    have hfloor : t * count < c + 1 := by
      have hc' : ⌊t * count⌋₊ = c := by omega
      rw [← hc']
      exact Nat.lt_floor_add_one _
    have hnext : ((c + 1 : Nat) : ℝ) ≤ count := by exact_mod_cast (by omega : c + 1 ≤ count)
    push_cast at hnext
    have htz : z ≤ t := by
      rw [← ht]
      apply le_clamped
      rw [ht]
      exact lt_of_mul_lt_mul_right (by linarith : t * count < 1 * count) hcells.le
    have hends := mul_lt_mul_of_pos_right hfloor hwidth
    have hinside := mul_le_mul_of_nonneg_right htz hside.le
    rw [hx]
    linarith [hpart t]

end Parts

section Cells

variable [ExactCount α]

/-- Whether a place on an axis belongs to a cell. The cells are equal parts of
the axis, and an axis without extent is cell 0 altogether. -/
def InCell (scene : Box α d) (i : Fin d) (c : Nat) (x : ℝ) : Prop :=
  c < 2 ^ bitsPerAxis d ∧
    if 0 < scene.side i then
      InPart (scene.lower.values i) (scene.side i) (2 ^ bitsPerAxis d) c x
    else c = 0

variable {scene : Box α d} {p q : Point α d} {i : Fin d}

theorem InCell.mono {c c' : Nat} {x x' : ℝ} (h : InCell scene i c x) (h' : InCell scene i c' x')
    (hle : x ≤ x') : c ≤ c' := by
  obtain ⟨hc, haxis⟩ := h
  obtain ⟨-, haxis'⟩ := h'
  by_cases hside : 0 < scene.side i
  · rw [if_pos hside] at haxis haxis'
    exact haxis.mono hside haxis' hc hle
  · rw [if_neg hside] at haxis haxis'
    exact haxis.trans_le (Nat.zero_le c')

theorem InCell.unique {c c' : Nat} {x : ℝ} (h : InCell scene i c x) (h' : InCell scene i c' x) :
    c = c' :=
  le_antisymm (h.mono h' le_rfl) (h'.mono h le_rfl)

/-- A point lies in its cell. -/
theorem cell_inCell (hscene : scene.Proper) (hp : p.Finite) (i : Fin d) :
    InCell scene i (cell scene p i) (p.values i) := by
  have hoffset := (hp.denotes i).sub (hscene.lower.denotes i)
  have hspan : Denotes (scene.upper.get i - scene.lower.get i) (scene.side i) :=
    (hscene.upper.denotes i).sub (hscene.lower.denotes i)
  refine ⟨cell_lt scene p i, ?_⟩
  rw [cell]
  simp only [Denotes.zero.lt_iff hspan]
  by_cases hside : 0 < scene.side i
  · have hpart := (hoffset.div hspan hside.ne').clampUnit.mul (.ofNat (2 ^ bitsPerAxis d))
    have hwhole := hpart.whole (by positivity)
    simp only [if_pos hside]
    rw [show Nat.pow 2 (bitsPerAxis d) = 2 ^ bitsPerAxis d from rfl, hwhole]
    exact inPart_floor hside (Nat.two_pow_pos _)
  · have hpart := Denotes.zero.mul (.ofNat (2 ^ bitsPerAxis d) : Denotes (_ : α) _)
    have hwhole := hpart.whole (by simp)
    simp only [if_neg hside]
    rw [show Nat.pow 2 (bitsPerAxis d) = 2 ^ bitsPerAxis d from rfl, hwhole, zero_mul,
      Nat.floor_zero, Nat.zero_min]

theorem inCell_iff (hscene : scene.Proper) (hp : p.Finite) {c : Nat} :
    InCell scene i c (p.values i) ↔ c = cell scene p i := by
  constructor
  · intro h
    exact h.unique (cell_inCell hscene hp i)
  · rintro rfl
    exact cell_inCell hscene hp i

theorem cell_mono (hscene : scene.Proper) (hp : p.Finite) (hq : q.Finite)
    (hle : p.get i ≤ q.get i) : cell scene p i ≤ cell scene q i :=
  (cell_inCell hscene hp i).mono (cell_inCell hscene hq i)
    (((hp.denotes i).le_iff (hq.denotes i)).mp hle)

/-- With exact arithmetic every finite point has one cell on every axis of a
scene, whose bits are bits of its key and leave no others. Keys grow with the
points, and only points with the same cells have the same key. -/
theorem keys_order_and_separate_cells (scene : Box α d) (hscene : scene.Proper) :
    (∀ p : Point α d, p.Finite →
      (∀ i c, InCell scene i c (p.values i) ↔ c = cell scene p i) ∧
      (∀ i : Fin d, ∀ b < bitsPerAxis d, b * d + i < 63 ∧
        (key scene p).toNat.testBit (b * d + i) = (cell scene p i).testBit b) ∧
      (key scene p).toNat < 2 ^ (d * bitsPerAxis d)) ∧
    ∀ p q : Point α d, p.Finite → q.Finite →
      ((∀ i, p.get i ≤ q.get i) → key scene p ≤ key scene q) ∧
      (key scene p = key scene q ↔ ∀ i, cell scene p i = cell scene q i) := by
  constructor
  · intro p hp
    refine ⟨fun i c => inCell_iff hscene hp, fun i b hb => ⟨?_, testBit_key_place scene p hb i⟩,
      key_lt scene p⟩
    exact (bitPlace_lt hb i).trans_le (bitsPerAxis_mul_le d)
  · intro p q hp hq
    exact ⟨fun hle => key_le fun i => cell_mono hscene hp hq (hle i), key_eq_iff⟩

def flatScene : Box ℚ 2 := ⟨Vector.ofFn fun i => if i.val = 0 then 0 else 3,
  Vector.ofFn fun i => if i.val = 0 then 4 else 3⟩

theorem keys_flat_axis : flatScene.Proper ∧
    key flatScene #v[-5, 2] ≤ key flatScene #v[4, 3] ∧
    key flatScene #v[4, 3] = key flatScene #v[9, 8] ∧
    cell flatScene #v[4, 3] 0 = 2 ^ 31 - 1 ∧ cell flatScene #v[4, 3] 1 = 0 ∧
    (key flatScene #v[4, 3]).toNat.testBit 60 = true := by
  have hscene : flatScene.Proper := .ofRational (by decide +kernel)
  obtain ⟨hkeys, hpairs⟩ := keys_order_and_separate_cells flatScene hscene
  have hlast : cell flatScene #v[4, 3] 0 = 2 ^ 31 - 1 := by decide +kernel
  refine ⟨hscene, (hpairs _ _ (fun _ => rfl) fun _ => rfl).1 (by decide +kernel),
    (hpairs _ _ (fun _ => rfl) fun _ => rfl).2.mpr (by decide +kernel), hlast, by decide +kernel, ?_⟩
  have hbit := ((hkeys #v[4, 3] fun _ => rfl).2.1 0 30 (by decide)).2
  rw [hlast] at hbit
  exact hbit.trans (by decide +kernel)

end Cells

end Morton

end Vicinity
