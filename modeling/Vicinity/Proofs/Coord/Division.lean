import Mathlib
import Vicinity.Proofs.Coord.Exact

/-!
# Exact division

What reference frames rest on beyond distances: halves, signs, magnitudes and
quotients of finite coordinates are those of the reals. A proper box then has
the centroid, the sides and the longest side that it has over the reals.
-/

set_option autoImplicit false

namespace Vicinity

/-- On finite coordinates all of the arithmetic is that of the reals. -/
class ExactField (α : Type) [Coord α] extends ExactCoord α where
  one : Coord.isFinite (Coord.one : α) = true ∧ value Coord.one = 1
  half : Coord.isFinite (Coord.half : α) = true ∧ value Coord.half = 1 / 2
  neg {a : α} : Coord.isFinite a = true → Coord.isFinite (-a) = true ∧ value (-a) = -value a
  abs {a : α} : Coord.isFinite a = true →
    Coord.isFinite (Coord.abs a) = true ∧ value (Coord.abs a) = |value a|
  div {a b : α} : Coord.isFinite a = true → Coord.isFinite b = true → value b ≠ 0 →
    Coord.isFinite (a / b) = true ∧ value (a / b) = value a / value b

variable {α : Type} [Coord α]

namespace Denotes

section

variable [ExactCoord α] {a b : α} {x y : ℝ}

theorem greater (ha : Denotes a x) (hb : Denotes b y) : Denotes (Coord.greater a b) (max x y) := by
  simp only [Coord.greater, ExactCoord.number ha.1, ExactCoord.number hb.1, Bool.false_eq_true,
    if_false, ha.lt_iff hb]
  split
  · next h => rwa [max_eq_right h.le]
  · next h => rwa [max_eq_left (not_lt.mp h)]

theorem foldl_greater {ι : Type} {f : ι → α} {g : ι → ℝ} (h : ∀ i, Denotes (f i) (g i))
    (l : List ι) (ha : Denotes a x) :
    Denotes ((l.map f).foldl Coord.greater a) (l.foldl (fun longest i => max longest (g i)) x) := by
  induction l generalizing a x with
  | nil => exact ha
  | cons i l ih => exact ih (ha.greater (h i))

end

variable [ExactField α] {a b : α} {x y : ℝ}

theorem one : Denotes (Coord.one : α) 1 := ExactField.one

theorem half : Denotes (Coord.half : α) (1 / 2) := ExactField.half

theorem neg (ha : Denotes a x) : Denotes (-a) (-x) := by
  obtain ⟨hfinite, hvalue⟩ := ExactField.neg ha.1
  exact ⟨hfinite, by rw [hvalue, ha.2]⟩

theorem abs (ha : Denotes a x) : Denotes (Coord.abs a) |x| := by
  obtain ⟨hfinite, hvalue⟩ := ExactField.abs ha.1
  exact ⟨hfinite, by rw [hvalue, ha.2]⟩

theorem div (ha : Denotes a x) (hb : Denotes b y) (hy : y ≠ 0) : Denotes (a / b) (x / y) := by
  obtain ⟨hfinite, hvalue⟩ := ExactField.div ha.1 hb.1 (by rwa [hb.2])
  exact ⟨hfinite, by rw [hvalue, ha.2, hb.2]⟩

end Denotes

theorem toList_eq_map_get {τ : Type} {d : Nat} (xs : Vector τ d) :
    xs.toList = (List.finRange d).map xs.get := by
  apply List.ext_getElem
  · simp
  · intro i hi hi'
    simp [Vector.get_eq_getElem]

theorem Point.Finite.denotes [ExactCoord α] {d : Nat} {p : Point α d} (h : p.Finite) (i : Fin d) :
    Denotes (p.get i) (p.values i) := .of_finite (h i)

namespace Box

section Sides

variable [ExactCoord α] {d : Nat} {b : Box α d}

noncomputable def side (b : Box α d) (i : Fin d) : ℝ := b.upper.values i - b.lower.values i

noncomputable def longest (b : Box α d) : ℝ :=
  (List.finRange d).foldl (fun longest i => max longest (b.side i)) 0

theorem Proper.side_nonneg (h : b.Proper) (i : Fin d) : 0 ≤ b.side i := sub_nonneg.mpr (h.ordered i)

theorem Proper.extents_denotes (h : b.Proper) (i : Fin d) :
    Denotes (b.extents.get i) (b.side i) := by
  have hextent := (h.upper.denotes i).sub (h.lower.denotes i)
  simpa [extents, side, Vector.get_eq_getElem] using hextent

theorem Proper.largestExtent_denotes (h : b.Proper) : Denotes b.largestExtent b.longest := by
  rw [largestExtent, toList_eq_map_get]
  exact .foldl_greater h.extents_denotes _ .zero

end Sides

theorem Proper.centroid_denotes [ExactField α] {d : Nat} {b : Box α d} (h : b.Proper) (i : Fin d) :
    Denotes (b.centroid.get i) ((b.lower.values i + b.upper.values i) / 2) := by
  have hmiddle := Denotes.half.mul ((h.lower.denotes i).add (h.upper.denotes i))
  rw [one_div_mul_eq_div] at hmiddle
  simpa [centroid, Vector.get_eq_getElem] using hmiddle

end Box

instance : ExactField ℚ where
  one := ⟨rfl, Rat.cast_one⟩
  half := ⟨rfl, by norm_num [Coord.half, ExactCoord.value]⟩
  neg _ := ⟨rfl, Rat.cast_neg _⟩
  abs _ := ⟨rfl, Rat.cast_abs _⟩
  div _ _ _ := ⟨rfl, Rat.cast_div _ _⟩

theorem Box.Proper.ofRational {d : Nat} {b : Box ℚ d}
    (h : ∀ i : Fin d, b.lower.get i ≤ b.upper.get i) : b.Proper := ⟨fun _ => rfl, fun _ => rfl, fun i => Rat.cast_le.mpr (h i)⟩

end Vicinity
