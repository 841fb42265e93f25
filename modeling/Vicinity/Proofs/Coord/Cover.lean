import Mathlib
import Vicinity.Box

/-!
# Boxes that cover boxes

All that overlap needs of the arithmetic is that comparison orders the values
that are not NaN. A union then covers both of its operands, and a box meets
whatever a box below it meets.
-/

set_option autoImplicit false

namespace Vicinity

/-- Comparison is a linear order on the values that are not NaN. -/
class OrderedCoord (α : Type) [Coord α] : Prop where
  le_trans {a b c : α} : a ≤ b → b ≤ c → a ≤ c
  le_total {a b : α} : Coord.isNaN a = false → Coord.isNaN b = false → a ≤ b ∨ b ≤ a
  lt_iff_not_le {a b : α} : Coord.isNaN a = false → Coord.isNaN b = false → (a < b ↔ ¬ b ≤ a)

namespace Coord

variable {α : Type} [Coord α] {a b : α}

theorem lesser_of {P : α → Prop} (ha : P a) (hb : P b) : P (lesser a b) := by
  unfold lesser
  split_ifs <;> assumption

theorem greater_of {P : α → Prop} (ha : P a) (hb : P b) : P (greater a b) := by
  unfold greater
  split_ifs <;> assumption

variable [OrderedCoord α]

theorem le_refl (h : isNaN a = false) : a ≤ a := by
  rcases OrderedCoord.le_total h h with h | h
  · exact h
  · exact h

theorem le_of_lt (ha : isNaN a = false) (hb : isNaN b = false) (h : a < b) : a ≤ b := by
  rcases OrderedCoord.le_total ha hb with h' | h'
  · exact h'
  · exact absurd h' ((OrderedCoord.lt_iff_not_le ha hb).mp h)

theorem le_of_not_lt (ha : isNaN a = false) (hb : isNaN b = false) (h : ¬ a < b) : b ≤ a := by
  by_contra h'
  exact h ((OrderedCoord.lt_iff_not_le ha hb).mpr h')

theorem lesser_le (ha : isNaN a = false) (hb : isNaN b = false) :
    lesser a b ≤ a ∧ lesser a b ≤ b := by
  simp only [lesser, ha, hb, Bool.false_eq_true, if_false]
  split
  · next h => exact ⟨le_of_lt hb ha h, le_refl hb⟩
  · next h => exact ⟨le_refl ha, le_of_not_lt hb ha h⟩

theorem le_greater (ha : isNaN a = false) (hb : isNaN b = false) :
    a ≤ greater a b ∧ b ≤ greater a b := by
  simp only [greater, ha, hb, Bool.false_eq_true, if_false]
  split
  · next h => exact ⟨le_of_lt ha hb h, le_refl hb⟩
  · next h => exact ⟨le_refl ha, le_of_not_lt ha hb h⟩

end Coord

namespace Box

variable {α : Type} {d : Nat} [Coord α]

theorem numbers_of_isValid {b : Box α d} (h : b.isValid = true) : b.Numbers := by
  intro i
  have hi := List.all_eq_true.mp h i (List.mem_finRange i)
  simp only [Bool.and_eq_true, Bool.not_eq_true'] at hi
  exact hi.1

theorem Numbers.union {a b : Box α d} (ha : a.Numbers) (hb : b.Numbers) : (a.union b).Numbers := by
  intro i
  rw [lower_union, upper_union]
  constructor
  · exact Coord.lesser_of (P := fun x => Coord.isNaN x = false) (ha i).1 (hb i).1
  · exact Coord.greater_of (P := fun x => Coord.isNaN x = false) (ha i).2 (hb i).2

theorem Covers.union {a b c : Box α d} (ha : c.Covers a) (hb : c.Covers b) :
    c.Covers (a.union b) := by
  intro i
  rw [lower_union, upper_union]
  constructor
  · exact Coord.lesser_of (P := fun x => c.lower[i] ≤ x) (ha i).1 (hb i).1
  · exact Coord.greater_of (P := fun x => x ≤ c.upper[i]) (ha i).2 (hb i).2

/-- What unions keep holds for the union of all boxes for which it holds. -/
theorem unionAll_of {P : Box α d → Prop} (hunion : ∀ a b : Box α d, P a → P b → P (a.union b))
    {scene : Box α d} {bs : List (Box α d)} (h : unionAll bs = some scene) (hbs : ∀ b ∈ bs, P b) :
    P scene := by
  cases bs with
  | nil => cases h
  | cons b bs =>
    cases h
    have hall : ∀ first : Box α d, P first → P (bs.foldl union first) := by
      intro first hfirst
      induction bs generalizing first with
      | nil => exact hfirst
      | cons b' bs ih =>
        have hb' := hunion first b' hfirst (hbs b' (by simp))
        exact ih (fun x hx => hbs x (by rcases List.mem_cons.mp hx with rfl | hx <;> simp [*]))
          _ hb'
    exact hall b (hbs b (by simp))

theorem exists_unionAll {bs : List (Box α d)} (h : bs ≠ []) : ∃ union, unionAll bs = some union := by
  cases bs with
  | nil => exact absurd rfl h
  | cons b bs => exact ⟨_, rfl⟩

/-- Boxes that cover each other differ at most in the sign of zeros. -/
theorem same_iff {a b : Box α d} : a.same b = true ↔ a.Covers b ∧ b.Covers a := by
  simp only [same, Coord.same, List.all_eq_true, List.mem_finRange, Bool.and_eq_true,
    decide_eq_true_eq, true_imp_iff, Covers, ← forall_and]
  grind

variable [OrderedCoord α]

theorem Covers.refl {b : Box α d} (h : b.Numbers) : b.Covers b := by
  intro i
  exact ⟨Coord.le_refl (h i).1, Coord.le_refl (h i).2⟩

theorem Covers.trans {a b c : Box α d} (h : c.Covers b) (h' : b.Covers a) : c.Covers a := by
  intro i
  exact ⟨OrderedCoord.le_trans (h i).1 (h' i).1, OrderedCoord.le_trans (h' i).2 (h i).2⟩

theorem union_covers {a b : Box α d} (ha : a.Numbers) (hb : b.Numbers) :
    (a.union b).Covers a ∧ (a.union b).Covers b := by
  constructor
  · intro i
    rw [lower_union, upper_union]
    exact ⟨(Coord.lesser_le (ha i).1 (hb i).1).1, (Coord.le_greater (ha i).2 (hb i).2).1⟩
  · intro i
    rw [lower_union, upper_union]
    exact ⟨(Coord.lesser_le (ha i).1 (hb i).1).2, (Coord.le_greater (ha i).2 (hb i).2).2⟩

theorem Covers.meets {c b q : Box α d} (h : c.Covers b) (hq : b.meets q = true) :
    c.meets q = true := by
  apply List.all_eq_true.mpr
  intro i hi
  have hb := List.all_eq_true.mp hq i hi
  simp only [Bool.and_eq_true, decide_eq_true_eq] at hb ⊢
  exact ⟨OrderedCoord.le_trans (h i).1 hb.1, OrderedCoord.le_trans hb.2 (h i).2⟩

theorem foldl_union_covers {scene : Box α d} {bs : List (Box α d)} (hscene : scene.Numbers)
    (hbs : ∀ b ∈ bs, b.Numbers) :
    (bs.foldl union scene).Numbers ∧ (bs.foldl union scene).Covers scene ∧
      ∀ b ∈ bs, (bs.foldl union scene).Covers b := by
  induction bs generalizing scene with
  | nil => exact ⟨hscene, .refl hscene, by simp⟩
  | cons b bs ih =>
    have hb := hbs b (by simp)
    obtain ⟨hnumbers, hcovers, hall⟩ := ih (hscene.union hb) (fun b' h => hbs b' (by simp [h]))
    have hunion := union_covers hscene hb
    refine ⟨hnumbers, hcovers.trans hunion.1, ?_⟩
    intro b' hb'
    rcases List.mem_cons.mp hb' with rfl | hmem
    · exact hcovers.trans hunion.2
    · exact hall b' hmem

/-- The union of all boxes covers every one of them. -/
theorem unionAll_covers {scene : Box α d} {bs : List (Box α d)} (h : unionAll bs = some scene)
    (hbs : ∀ b ∈ bs, b.Numbers) : scene.Numbers ∧ ∀ b ∈ bs, scene.Covers b := by
  cases bs with
  | nil => cases h
  | cons b bs =>
    cases h
    obtain ⟨hnumbers, hcovers, hall⟩ := foldl_union_covers (hbs b (by simp))
      (fun b' h => hbs b' (List.mem_cons_of_mem b h))
    refine ⟨hnumbers, ?_⟩
    intro b' hb'
    rcases List.mem_cons.mp hb' with rfl | hmem
    · exact hcovers
    · exact hall b' hmem

end Box

end Vicinity
