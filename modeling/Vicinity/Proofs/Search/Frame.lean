import Mathlib
import Vicinity.Proofs.Search.Slack

/-!
# Reference frames

The basic map locates a point in a box exactly where the slack of the box
reaches it on every axis, and what it gives leads back to the point. On a flat
axis both are offsets, on any other they are shares of the side, and the two
tests for a flat axis agree. A point entity is a box that is flat on all axes.
-/

set_option autoImplicit false

namespace Vicinity

variable {α : Type} [Coord α] [ExactField α]

open ExactCoord (value)

namespace Box

def Reaches (b : Box α 3) (t : ℝ) (p : Point α 3) : Prop :=
  ∀ i, b.lower.values i - slack t (b.side i) ≤ p.values i ∧
    p.values i ≤ b.upper.values i + slack t (b.side i)

/-- From the lower corner the reference coordinates lead to the point: by their
share of the side, or by themselves on a flat axis. -/
def LeadsTo (b : Box α 3) (r p : Point α 3) : Prop :=
  r.Finite ∧ ∀ i, p.values i =
    b.lower.values i + if 0 < b.side i then r.values i * b.side i else r.values i

variable {b : Box α 3} {p : Point α 3} {t t' : ℝ}

theorem Reaches.mono (h : b.Reaches t p) (hb : b.Proper) (hle : t ≤ t') : b.Reaches t' p := by
  intro i
  have hslack : slack t (b.side i) ≤ slack t' (b.side i) := by
    unfold slack
    split
    · exact mul_le_mul_of_nonneg_right hle (hb.side_nonneg i)
    · exact hle
  constructor <;> linarith [(h i).1, (h i).2]

theorem contains_iff (hb : b.Proper) (hp : p.Finite) : b.contains p = true ↔
    ∀ i, b.lower.values i ≤ p.values i ∧ p.values i ≤ b.upper.values i := by
  simp only [contains, List.all_eq_true, Bool.and_eq_true, decide_eq_true_eq, List.mem_finRange,
    true_imp_iff]
  apply forall_congr'
  intro i
  rw [← (hb.lower.denotes i).le_iff (hp.denotes i), ← (hp.denotes i).le_iff (hb.upper.denotes i)]
  rfl

/-- Without a tolerance a box reaches what it contains. -/
theorem reaches_zero_iff (hb : b.Proper) (hp : p.Finite) :
    b.Reaches 0 p ↔ b.contains p = true := by
  have hslack : ∀ side, slack 0 side = 0 := by
    intro side
    rw [slack, zero_mul, ite_self]
  simp only [contains_iff hb hp, Reaches, hslack, sub_zero, add_zero]

theorem toUnitCube_leadsTo (hb : b.Proper) (hp : p.Finite) :
    b.LeadsTo (LocalMap.toUnitCube b p) p := by
  refine ⟨fun i => (toUnitCube_denotes hb hp i).1, fun i => ?_⟩
  have hreference : (LocalMap.toUnitCube b p).values i = _ := (toUnitCube_denotes hb hp i).2
  rw [hreference]
  split
  · next hpositive =>
    rw [div_mul_cancel₀ _ hpositive.ne']
    ring
  · ring

end Box

section Locate

variable {e : Entity α} {p r : Point α 3} {tolerance larger : α}

theorem exists_located_box {b : Box α 3} (hshape : e.shape = .box b) (hb : b.Proper)
    (hp : p.Finite) (ht : Coord.isFinite tolerance = true) :
    ∃ located, LocalMap.basic.locate e p tolerance = .ok located ∧
      (located.isSome = true ↔ b.Reaches (value tolerance) p) ∧
      ∀ r, located = some r → r = LocalMap.toUnitCube b p := by
  have hreaches := isInUnitCube_iff hb hp (.of_finite ht)
  refine ⟨_, locate_box hshape, ?_, ?_⟩
  · rw [Option.isSome_ite, hreaches, Box.Reaches]
  · intro r hr
    rw [Option.ite_none_right_eq_some] at hr
    exact (Option.some.inj hr.2).symm

theorem exists_located_point {q : Point α 3} (hshape : e.shape = .point q) (hq : q.Finite)
    (hp : p.Finite) (ht : Coord.isFinite tolerance = true) :
    ∃ located, LocalMap.basic.locate e p tolerance = .ok located ∧
      (located.isSome = true ↔ ∀ i, |p.values i - q.values i| ≤ value tolerance) ∧
      ∀ r, located = some r → ∀ i, Denotes (r.get i) (p.values i - q.values i) := by
  have hoffset := fun i => (hp.denotes i).sub (hq.denotes i)
  refine ⟨_, locate_point hshape, ?_, ?_⟩
  · rw [Option.isSome_ite]
    exact forall_congr' fun i => (hoffset i).abs.le_iff (.of_finite ht)
  · intro r hr i
    rw [Option.ite_none_right_eq_some, Option.some.injEq] at hr
    rw [← hr.2]
    simpa [Vector.get_eq_getElem] using hoffset i

/-- What is located with a tolerance is located with every larger one, at the
same coordinates. -/
theorem locate_mono (he : e.bounds.Proper) (hp : p.Finite) (ht : Coord.isFinite tolerance = true)
    (hlarger : Coord.isFinite larger = true) (hle : tolerance ≤ larger)
    (h : LocalMap.basic.locate e p tolerance = .ok (some r)) :
    LocalMap.basic.locate e p larger = .ok (some r) := by
  cases hshape : e.shape with
  | point q =>
    rw [locate_point hshape, Except.ok.injEq, Option.ite_none_right_eq_some] at h
    rw [locate_point hshape, if_pos fun i => OrderedCoord.le_trans (h.1 i) hle, h.2]
  | box b =>
    rw [Entity.bounds, hshape] at he
    rw [locate_box hshape, Except.ok.injEq, Option.ite_none_right_eq_some,
      isInUnitCube_iff he hp (.of_finite ht)] at h
    have hvalues := (ExactCoord.le_iff ht hlarger).mp hle
    have hinside : LocalMap.isInUnitCube b (LocalMap.toUnitCube b p) larger = true :=
      (isInUnitCube_iff he hp (.of_finite hlarger)).mpr (Box.Reaches.mono h.1 he hvalues)
    rw [locate_inside hshape hinside, h.2]
  | cell b => simp [LocalMap.basic, hshape, Except.map] at h

/-- With exact arithmetic the basic map answers for every box and every point,
and locates a point in a box exactly where the slack of the box reaches it, that
is in the box itself where there is no tolerance. The reference coordinates lead
back to the point. A point entity is located within the tolerance on every axis,
at the offset from it. What is located stays so, at the same coordinates, under
every larger tolerance. -/
theorem locate_inverts (e : Entity α) (p : Point α 3) (tolerance : α) (he : e.bounds.Proper)
    (hp : p.Finite) (ht : Coord.isFinite tolerance = true) :
    (∀ b, e.shape = .box b → ∃ located, LocalMap.basic.locate e p tolerance = .ok located ∧
      (located.isSome = true ↔ b.Reaches (value tolerance) p) ∧
      (value tolerance = 0 → (located.isSome = true ↔ b.contains p = true)) ∧
      ∀ r, located = some r → b.LeadsTo r p) ∧
    (∀ q, e.shape = .point q → ∃ located, LocalMap.basic.locate e p tolerance = .ok located ∧
      (located.isSome = true ↔ ∀ i, |p.values i - q.values i| ≤ value tolerance) ∧
      ∀ r, located = some r → ∀ i, Denotes (r.get i) (p.values i - q.values i)) ∧
    ∀ larger r, Coord.isFinite larger = true → tolerance ≤ larger →
      LocalMap.basic.locate e p tolerance = .ok (some r) →
      LocalMap.basic.locate e p larger = .ok (some r) := by
  refine ⟨fun b hshape => ?_, fun q hshape => ?_, fun larger r hlarger hle h => ?_⟩
  · have hb : b.Proper := by rwa [Entity.bounds, hshape] at he
    obtain ⟨located, hlocate, hreaches, hreference⟩ := exists_located_box hshape hb hp ht
    refine ⟨located, hlocate, hreaches, fun hzero => ?_, fun r hr => ?_⟩
    · rw [hreaches, hzero, Box.reaches_zero_iff hb hp]
    · rw [hreference r hr]
      exact Box.toUnitCube_leadsTo hb hp
  · have hq : q.Finite := by
      rw [Entity.bounds, hshape] at he
      exact he.lower
    exact exists_located_point hshape hq hp ht
  · exact locate_mono he hp ht hlarger hle h

end Locate

def plate : Entity ℚ := .ofBox 1 0 ⟨place 0 1 0, place 2 1 1⟩

def besidePlate : Point ℚ 3 := place (-1 / 2) (5 / 4) (1 / 2)

/-- Half of a unit in front of a side of length two, and a quarter of a unit beside
the flat axis, a point is just within a quarter. -/
theorem locate_besidePlate : plate.bounds.Proper ∧ besidePlate.Finite ∧
    ∃ r, LocalMap.basic.locate plate besidePlate (1 / 4) = .ok (some r) ∧
      r = place (-1 / 4) (1 / 4) (1 / 2) ∧ plate.bounds.Reaches (value (1 / 4 : ℚ)) besidePlate ∧
      plate.bounds.LeadsTo r besidePlate ∧
      LocalMap.basic.locate plate besidePlate 1 = .ok (some r) := by
  have hproper : plate.bounds.Proper := .ofRational (by decide +kernel)
  have hfinite : besidePlate.Finite := fun _ => rfl
  obtain ⟨hbox, -, hlarger⟩ := locate_inverts plate besidePlate (1 / 4) hproper hfinite rfl
  obtain ⟨located, hlocate, hreaches, -, hleads⟩ := hbox _ rfl
  have hinside : LocalMap.basic.locate plate besidePlate (1 / 4) = .ok (some _) :=
    locate_inside rfl (by decide +kernel)
  obtain rfl := Except.ok.inj (hlocate.symm.trans hinside)
  exact ⟨hproper, hfinite, _, hlocate, by decide +kernel, hreaches.mp rfl, hleads _ rfl,
    hlarger 1 _ rfl (by decide +kernel) hlocate⟩

end Vicinity
