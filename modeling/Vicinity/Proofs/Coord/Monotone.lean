import Mathlib
import Vicinity.Proofs.Coord.Cover

/-!
# Monotone arithmetic

What the order of distances rests on, rounding included: nothing compares with
a NaN, and differences, squares and sums that are not negative grow with what
they are made of. The gap between a point and a box is then never a NaN and
never grows with the box, so no box is farther away than what it covers,
wherever the point lies.
-/

set_option autoImplicit false

namespace Vicinity

/-- Comparison is false for a NaN, and on values that are not negative the
arithmetic keeps the order. -/
class MonotoneCoord (α : Type) [Coord α] : Prop extends OrderedCoord α where
  numbers_of_le {a b : α} : a ≤ b → Coord.isNaN a = false ∧ Coord.isNaN b = false
  numbers_of_lt {a b : α} : a < b → Coord.isNaN a = false ∧ Coord.isNaN b = false
  zero_le_zero : (Coord.zero : α) ≤ Coord.zero
  zero_le_sub {a b : α} : b < a → Coord.zero ≤ a - b
  sub_le_sub {a a' b b' : α} : b < a → a ≤ a' → b' ≤ b → a - b ≤ a' - b'
  zero_le_square {a : α} : Coord.zero ≤ a → Coord.zero ≤ a * a
  square_le_square {a b : α} : Coord.zero ≤ a → a ≤ b → a * a ≤ b * b
  zero_le_add {a b : α} : Coord.zero ≤ a → Coord.zero ≤ b → Coord.zero ≤ a + b
  add_le_add {a a' b b' : α} : Coord.zero ≤ a → Coord.zero ≤ b → a ≤ a' → b ≤ b' →
    a + b ≤ a' + b'

namespace Coord

variable {α : Type} [Coord α] [MonotoneCoord α] {a b c : α}

theorem lt_of_le_of_lt (h : a ≤ b) (h' : b < c) : a < c := by
  have ha := (MonotoneCoord.numbers_of_le h).1
  obtain ⟨hb, hc⟩ := MonotoneCoord.numbers_of_lt h'
  rw [OrderedCoord.lt_iff_not_le ha hc]
  intro hca
  exact (OrderedCoord.lt_iff_not_le hb hc).mp h' (OrderedCoord.le_trans hca h)

theorem lt_of_lt_of_le (h : a < b) (h' : b ≤ c) : a < c := by
  obtain ⟨ha, hb⟩ := MonotoneCoord.numbers_of_lt h
  have hc := (MonotoneCoord.numbers_of_le h').2
  rw [OrderedCoord.lt_iff_not_le ha hc]
  intro hca
  exact (OrderedCoord.lt_iff_not_le ha hb).mp h (OrderedCoord.le_trans h' hca)

theorem not_lt_of_le (h : a ≤ b) : ¬ b < a := by
  obtain ⟨ha, hb⟩ := MonotoneCoord.numbers_of_le h
  intro h'
  exact (OrderedCoord.lt_iff_not_le hb ha).mp h' h

/-- Sums of squares are not negative and grow with each of their terms. -/
theorem foldl_squares_mono {ι : Type} {f g : ι → α} (l : List ι)
    (hf : ∀ i ∈ l, zero ≤ f i) (hfg : ∀ i ∈ l, f i ≤ g i) :
    (zero : α) ≤ l.foldl (fun acc i => acc + f i * f i) zero ∧
      l.foldl (fun acc i => acc + f i * f i) zero ≤
        l.foldl (fun acc i => acc + g i * g i) zero := by
  have hfrom : ∀ acc acc' : α, zero ≤ acc → acc ≤ acc' →
      zero ≤ l.foldl (fun acc i => acc + f i * f i) acc ∧
        l.foldl (fun acc i => acc + f i * f i) acc ≤
          l.foldl (fun acc i => acc + g i * g i) acc' := by
    induction l with
    | nil =>
      intro acc acc' hacc hle
      exact ⟨hacc, hle⟩
    | cons i l ih =>
      intro acc acc' hacc hle
      have hi := hf i List.mem_cons_self
      have hsquare := MonotoneCoord.zero_le_square hi
      apply ih (fun j hj => hf j (List.mem_cons_of_mem i hj))
        (fun j hj => hfg j (List.mem_cons_of_mem i hj))
      · exact MonotoneCoord.zero_le_add hacc hsquare
      · exact MonotoneCoord.add_le_add hacc hsquare hle
          (MonotoneCoord.square_le_square hi (hfg i List.mem_cons_self))
  exact hfrom zero zero MonotoneCoord.zero_le_zero MonotoneCoord.zero_le_zero

end Coord

namespace Box

variable {α : Type} {d : Nat} [Coord α]

theorem ordered_of_isValid {b : Box α d} (h : b.isValid = true) (i : Fin d) :
    b.lower.get i ≤ b.upper.get i := by
  have hi := List.all_eq_true.mp h i (List.mem_finRange i)
  simp only [Bool.and_eq_true, decide_eq_true_eq] at hi
  exact hi.2

theorem isValid_union [OrderedCoord α] {a b : Box α d} (ha : a.isValid = true)
    (hb : b.isValid = true) : (a.union b).isValid = true := by
  have hna := numbers_of_isValid ha
  have hnb := numbers_of_isValid hb
  have hnumbers := hna.union hnb
  have hcovers := (union_covers hna hnb).1
  apply List.all_eq_true.mpr
  intro i _
  simp only [Bool.and_eq_true, Bool.not_eq_true', decide_eq_true_eq]
  refine ⟨hnumbers i, ?_⟩
  exact OrderedCoord.le_trans (hcovers i).1
    (OrderedCoord.le_trans (ordered_of_isValid ha i) (hcovers i).2)

variable [MonotoneCoord α]

theorem zero_le_gap (b : Box α d) (p : Point α d) (i : Fin d) : Coord.zero ≤ b.gap p i := by
  unfold gap
  split
  · next hbelow => exact MonotoneCoord.zero_le_sub hbelow
  · split
    · next habove => exact MonotoneCoord.zero_le_sub habove
    · exact MonotoneCoord.zero_le_zero

/-- On every axis a point that lies outside of a box lies at least as far
outside of what the box covers, on the same side. -/
theorem Covers.gap_le {c b : Box α d} (h : c.Covers b) (hb : b.isValid = true) (p : Point α d)
    (i : Fin d) : c.gap p i ≤ b.gap p i := by
  have hordered := ordered_of_isValid hb i
  obtain ⟨hlower, hupper⟩ := h i
  by_cases hbelow : p[i] < c.lower[i]
  · have hbelow' : p[i] < b.lower[i] := Coord.lt_of_lt_of_le hbelow hlower
    have hsame : p[i] ≤ p[i] := Coord.le_refl (MonotoneCoord.numbers_of_lt hbelow).1
    rw [gap, gap, if_pos hbelow, if_pos hbelow']
    exact MonotoneCoord.sub_le_sub hbelow hlower hsame
  · by_cases habove : c.upper[i] < p[i]
    · have habove' : b.upper[i] < p[i] := Coord.lt_of_le_of_lt hupper habove
      have hside : ¬ p[i] < b.lower[i] := Coord.not_lt_of_le
        (OrderedCoord.le_trans hordered (Coord.le_of_lt (MonotoneCoord.numbers_of_lt habove').1
          (MonotoneCoord.numbers_of_lt habove').2 habove'))
      have hsame : p[i] ≤ p[i] := Coord.le_refl (MonotoneCoord.numbers_of_lt habove).2
      rw [gap, gap, if_neg hbelow, if_pos habove, if_neg hside, if_pos habove']
      exact MonotoneCoord.sub_le_sub habove hsame hupper
    · rw [gap, if_neg hbelow, if_neg habove]
      exact zero_le_gap b p i

theorem zero_le_distanceSquared (b : Box α d) (p : Point α d) :
    Coord.zero ≤ b.distanceSquared p :=
  (Coord.foldl_squares_mono (List.finRange d) (fun i _ => zero_le_gap b p i)
    fun i _ => Coord.le_refl (MonotoneCoord.numbers_of_le (zero_le_gap b p i)).2).1

theorem isNaN_distanceSquared (b : Box α d) (p : Point α d) :
    Coord.isNaN (b.distanceSquared p) = false :=
  (MonotoneCoord.numbers_of_le (zero_le_distanceSquared b p)).2

/-- A point in a box can be compared with its corners, so none of its coordinates
is a NaN. -/
theorem isValid_of_contains {b : Box α d} {p : Point α d} (h : b.contains p = true) :
    (ofPoint p).isValid = true := by
  apply List.all_eq_true.mpr
  intro i hi
  have haxis := List.all_eq_true.mp h i hi
  simp only [Bool.and_eq_true, decide_eq_true_eq] at haxis
  have hnumber : Coord.isNaN p[i] = false := (MonotoneCoord.numbers_of_le haxis.1).2
  simp only [Bool.and_eq_true, Bool.not_eq_true', decide_eq_true_eq]
  exact ⟨⟨hnumber, hnumber⟩, Coord.le_refl hnumber⟩

/-- No box is farther from a point than what it covers. -/
theorem Covers.distanceSquared_mono {c b : Box α d} (h : c.Covers b) (hb : b.isValid = true)
    (p : Point α d) : c.distanceSquared p ≤ b.distanceSquared p :=
  (Coord.foldl_squares_mono (List.finRange d) (fun i _ => zero_le_gap c p i)
    fun i _ => h.gap_le hb p i).2

end Box

end Vicinity
