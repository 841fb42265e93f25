import Mathlib
import Vicinity.Proofs.Coord.Cover
import Vicinity.Proofs.Wire.RoundTrip

/-!
# Exact arithmetic

What distances rest on: finite coordinates stand for real numbers, and adding,
subtracting, multiplying and comparing them does what it does for the reals.
The distance to a point is then the distance to the box around it, and what a
box covers is at no smaller distance than the box. The rational numbers are
such coordinates.
-/

set_option autoImplicit false

namespace Vicinity

/-- On finite coordinates the arithmetic is that of the reals. -/
class ExactCoord (α : Type) [Coord α] extends OrderedCoord α where
  value : α → ℝ
  number {a : α} : Coord.isFinite a = true → Coord.isNaN a = false
  le_iff {a b : α} : Coord.isFinite a = true → Coord.isFinite b = true →
    (a ≤ b ↔ value a ≤ value b)
  zero : Coord.isFinite (Coord.zero : α) = true ∧ value Coord.zero = 0
  add {a b : α} : Coord.isFinite a = true → Coord.isFinite b = true →
    Coord.isFinite (a + b) = true ∧ value (a + b) = value a + value b
  sub {a b : α} : Coord.isFinite a = true → Coord.isFinite b = true →
    Coord.isFinite (a - b) = true ∧ value (a - b) = value a - value b
  mul {a b : α} : Coord.isFinite a = true → Coord.isFinite b = true →
    Coord.isFinite (a * b) = true ∧ value (a * b) = value a * value b

variable {α : Type} [Coord α] [ExactCoord α]

open ExactCoord (value)

def Denotes (a : α) (x : ℝ) : Prop := Coord.isFinite a = true ∧ value a = x

namespace Denotes

variable {a b : α} {x y : ℝ}

theorem of_finite (h : Coord.isFinite a = true) : Denotes a (value a) := ⟨h, rfl⟩

theorem zero : Denotes (Coord.zero : α) 0 := ExactCoord.zero

theorem add (ha : Denotes a x) (hb : Denotes b y) : Denotes (a + b) (x + y) := by
  obtain ⟨hfinite, hvalue⟩ := ExactCoord.add ha.1 hb.1
  exact ⟨hfinite, by rw [hvalue, ha.2, hb.2]⟩

theorem sub (ha : Denotes a x) (hb : Denotes b y) : Denotes (a - b) (x - y) := by
  obtain ⟨hfinite, hvalue⟩ := ExactCoord.sub ha.1 hb.1
  exact ⟨hfinite, by rw [hvalue, ha.2, hb.2]⟩

theorem mul (ha : Denotes a x) (hb : Denotes b y) : Denotes (a * b) (x * y) := by
  obtain ⟨hfinite, hvalue⟩ := ExactCoord.mul ha.1 hb.1
  exact ⟨hfinite, by rw [hvalue, ha.2, hb.2]⟩

theorem le_iff (ha : Denotes a x) (hb : Denotes b y) : a ≤ b ↔ x ≤ y := by
  rw [ExactCoord.le_iff ha.1 hb.1, ha.2, hb.2]

theorem lt_iff (ha : Denotes a x) (hb : Denotes b y) : a < b ↔ x < y := by
  rw [OrderedCoord.lt_iff_not_le (ExactCoord.number ha.1) (ExactCoord.number hb.1),
    le_iff hb ha, not_le]

/-- A sum of squares. -/
theorem squares {ι : Type} {f : ι → α} {g : ι → ℝ} (h : ∀ i, Denotes (f i) (g i)) (l : List ι) :
    Denotes (l.foldl (fun acc i => acc + f i * f i) Coord.zero) (l.map fun i => g i ^ 2).sum := by
  have hfrom : ∀ (acc : α) (x : ℝ), Denotes acc x →
      Denotes (l.foldl (fun acc i => acc + f i * f i) acc) (x + (l.map fun i => g i ^ 2).sum) := by
    induction l with
    | nil =>
      intro acc x hacc
      rw [List.map_nil, List.sum_nil, add_zero]
      exact hacc
    | cons i l ih =>
      intro acc x hacc
      have hnext := ih _ _ (hacc.add ((h i).mul (h i)))
      rw [List.map_cons, List.sum_cons, ← add_assoc, sq]
      exact hnext
  have hall := hfrom _ _ zero
  rwa [zero_add] at hall

end Denotes

variable {d : Nat}

noncomputable def Point.values (p : Point α d) (i : Fin d) : ℝ := value (p.get i)

noncomputable def squaredDistance (x y : Fin d → ℝ) : ℝ :=
  ((List.finRange d).map fun i => (x i - y i) ^ 2).sum

theorem Point.distanceSquared_denotes {p q : Point α d} (hp : p.Finite) (hq : q.Finite) :
    Denotes (p.distanceSquared q) (squaredDistance p.values q.values) :=
  Denotes.squares (fun i => (Denotes.of_finite (hp i)).sub (.of_finite (hq i))) _

/-- On every axis two points are no farther apart than they are. -/
theorem abs_le_of_squaredDistance_le {x y : Fin d → ℝ} {r : ℝ} (hr : 0 ≤ r)
    (h : squaredDistance x y ≤ r * r) (i : Fin d) : |x i - y i| ≤ r := by
  have hterm : (x i - y i) ^ 2 ≤ squaredDistance x y := by
    apply List.single_le_sum
    · intro z hz
      obtain ⟨j, -, rfl⟩ := List.mem_map.mp hz
      positivity
    · exact List.mem_map_of_mem (List.mem_finRange i)
  apply abs_le_of_sq_le_sq _ hr
  linarith [sq r]

namespace Box

structure Proper (b : Box α d) : Prop where
  lower : b.lower.Finite
  upper : b.upper.Finite
  ordered : ∀ i, b.lower.values i ≤ b.upper.values i

theorem Proper.numbers {b : Box α d} (h : b.Proper) : b.Numbers :=
  fun i => ⟨ExactCoord.number (h.lower i), ExactCoord.number (h.upper i)⟩

theorem Proper.ofPoint {p : Point α d} (h : Point.Finite p) : (ofPoint p).Proper :=
  ⟨h, h, fun _ => le_rfl⟩

theorem Proper.isValid {b : Box α d} (h : b.Proper) : b.isValid = true := by
  apply List.all_eq_true.mpr
  intro i _
  have hle : b.lower[i] ≤ b.upper[i] :=
    (ExactCoord.le_iff (h.lower i) (h.upper i)).mpr (h.ordered i)
  simp only [Bool.and_eq_true, Bool.not_eq_true', decide_eq_true_eq]
  exact ⟨h.numbers i, hle⟩

noncomputable def gapOf (lower upper x : ℝ) : ℝ :=
  if x < lower then lower - x else if upper < x then x - upper else 0

theorem gapOf_nonneg (lower upper x : ℝ) : 0 ≤ gapOf lower upper x := by
  unfold gapOf
  split_ifs <;> linarith

theorem gapOf_mono {l l' u u' x : ℝ} (hl : l' ≤ l) (hu : u ≤ u') (h : l ≤ u) :
    gapOf l' u' x ≤ gapOf l u x := by
  unfold gapOf
  split_ifs <;> linarith

theorem gap_denotes {b : Box α d} {p : Point α d} (hb : b.Proper) (hp : p.Finite) (i : Fin d) :
    Denotes (b.gap p i) (gapOf (b.lower.values i) (b.upper.values i) (p.values i)) := by
  have hl : Denotes b.lower[i] (b.lower.values i) := .of_finite (hb.lower i)
  have hu : Denotes b.upper[i] (b.upper.values i) := .of_finite (hb.upper i)
  have hx : Denotes p[i] (p.values i) := .of_finite (hp i)
  simp only [gap, gapOf, hx.lt_iff hl, hu.lt_iff hx]
  split_ifs
  · exact hl.sub hx
  · exact hx.sub hu
  · exact .zero

theorem distanceSquared_denotes {b : Box α d} {p : Point α d} (hb : b.Proper) (hp : p.Finite) :
    Denotes (b.distanceSquared p) ((List.finRange d).map fun i =>
      gapOf (b.lower.values i) (b.upper.values i) (p.values i) ^ 2).sum :=
  Denotes.squares (gap_denotes hb hp) _

theorem distanceSquared_ofPoint {p q : Point α d} (hp : p.Finite) (hq : q.Finite) :
    Denotes ((ofPoint p).distanceSquared q) (squaredDistance p.values q.values) := by
  have hgap : ∀ x y : ℝ, (x - y) ^ 2 = gapOf x x y ^ 2 := by
    intro x y
    unfold gapOf
    split_ifs with hless hgreater
    · rfl
    · ring
    · rw [le_antisymm (not_lt.mp hless) (not_lt.mp hgreater), sub_self]
  have hsum : squaredDistance p.values q.values = ((List.finRange d).map fun i =>
      gapOf ((ofPoint p).lower.values i) ((ofPoint p).upper.values i) (q.values i) ^ 2).sum :=
    congrArg List.sum (List.map_congr_left fun i _ => hgap _ _)
  rw [hsum]
  exact distanceSquared_denotes (Proper.ofPoint hp) hq

theorem Covers.distanceSquared_le {c b : Box α d} (h : c.Covers b) (hc : c.Proper) (hb : b.Proper)
    {p : Point α d} (hp : p.Finite) : c.distanceSquared p ≤ b.distanceSquared p := by
  rw [(distanceSquared_denotes hc hp).le_iff (distanceSquared_denotes hb hp)]
  apply List.sum_le_sum
  intro i _
  have hlower := (ExactCoord.le_iff (hc.lower i) (hb.lower i)).mp (h i).1
  have hupper := (ExactCoord.le_iff (hb.upper i) (hc.upper i)).mp (h i).2
  exact pow_le_pow_left₀ (gapOf_nonneg ..) (gapOf_mono hlower hupper (hb.ordered i)) 2

/-- A box around a point, widened by a distance, contains what lies within the
distance of the point. -/
theorem Covers.expanded_contains {b : Box α d} {center p : Point α d} {radius : α}
    (h : b.Covers (ofPoint center)) (hb : b.Proper) (hcenter : center.Finite) (hp : p.Finite)
    (hr : Coord.isFinite radius = true) (hpos : Coord.zero ≤ radius)
    (hnear : p.distanceSquared center ≤ radius * radius) :
    (b.expanded radius).contains p = true := by
  have hradius : Denotes radius (value radius) := .of_finite hr
  have hdistance := (Point.distanceSquared_denotes hp hcenter).le_iff (hradius.mul hradius)
  have haxis := abs_le_of_squaredDistance_le ((Denotes.zero.le_iff hradius).mp hpos)
    (hdistance.mp hnear)
  apply List.all_eq_true.mpr
  intro i _
  have hl : Denotes b.lower[i] (b.lower.values i) := .of_finite (hb.lower i)
  have hu : Denotes b.upper[i] (b.upper.values i) := .of_finite (hb.upper i)
  have hc : Denotes center[i] (center.values i) := .of_finite (hcenter i)
  have hx : Denotes p[i] (p.values i) := .of_finite (hp i)
  have hbelow : b.lower.values i ≤ center.values i := (hl.le_iff hc).mp (h i).1
  have habove : center.values i ≤ b.upper.values i := (hc.le_iff hu).mp (h i).2
  have hlower : b.lower[i] - radius ≤ p[i] :=
    ((hl.sub hradius).le_iff hx).mpr (by linarith [abs_le.mp (haxis i)])
  have hupper : p[i] ≤ b.upper[i] + radius :=
    (hx.le_iff (hu.add hradius)).mpr (by linarith [abs_le.mp (haxis i)])
  simp only [expanded, Fin.getElem_fin, Vector.getElem_ofFn, Bool.and_eq_true, decide_eq_true_eq]
  exact ⟨hlower, hupper⟩

theorem Proper.union {a b : Box α d} (ha : a.Proper) (hb : b.Proper) : (a.union b).Proper := by
  have hlower : (a.union b).lower.Finite := by
    intro i
    rw [lower_union]
    exact Coord.lesser_of (P := fun x => Coord.isFinite x = true) (ha.lower i) (hb.lower i)
  have hupper : (a.union b).upper.Finite := by
    intro i
    rw [upper_union]
    exact Coord.greater_of (P := fun x => Coord.isFinite x = true) (ha.upper i) (hb.upper i)
  refine ⟨hlower, hupper, fun i => ?_⟩
  have hcovers := (union_covers ha.numbers hb.numbers).1 i
  have hl := (ExactCoord.le_iff (hlower i) (ha.lower i)).mp hcovers.1
  have hu := (ExactCoord.le_iff (ha.upper i) (hupper i)).mp hcovers.2
  exact (hl.trans (ha.ordered i)).trans hu

theorem Proper.expanded_finite {b : Box α d} (hb : b.Proper) {radius : α}
    (hr : Coord.isFinite radius = true) :
    (b.expanded radius).lower.Finite ∧ (b.expanded radius).upper.Finite := by
  constructor
  · intro i
    simpa [expanded] using (ExactCoord.sub (hb.lower i) hr).1
  · intro i
    simpa [expanded] using (ExactCoord.add (hb.upper i) hr).1

theorem ofPoints_proper {points : List (Point α d)} (hpoints : ∀ p ∈ points, Point.Finite p)
    {scene : Box α d} (hscene : ofPoints points = some scene) : scene.Proper :=
  unionAll_of (fun _ _ => Proper.union) hscene
    (List.forall_mem_map.mpr fun q hq => .ofPoint (hpoints q hq))

/-- Points within a distance of some point lie in the widened box of all. -/
theorem ofPoints_contains {points : List (Point α d)} (hpoints : ∀ p ∈ points, Point.Finite p)
    {center p : Point α d} (hcenter : center ∈ points) (hp : p.Finite) {radius : α}
    (hr : Coord.isFinite radius = true) (hpos : Coord.zero ≤ radius)
    (hnear : p.distanceSquared center ≤ radius * radius) :
    ((ofPoints points).map fun b => b.expanded radius).any (fun b => b.contains p) = true := by
  have hnumbers : ∀ b ∈ points.map ofPoint, b.Numbers :=
    List.forall_mem_map.mpr fun q hq => (Proper.ofPoint (hpoints q hq)).numbers
  obtain ⟨scene, hscene⟩ : ∃ scene, ofPoints points = some scene := by
    cases points with
    | nil => simp at hcenter
    | cons q points => exact ⟨_, rfl⟩
  have hcovers := (unionAll_covers hscene hnumbers).2 _ (List.mem_map_of_mem hcenter)
  rw [hscene]
  exact hcovers.expanded_contains (ofPoints_proper hpoints hscene) (hpoints center hcenter) hp
    hr hpos hnear

end Box

omit [ExactCoord α] in
theorem Point.Finite.roundTrips [Codec α]
    (hcodec : ∀ x : α, Coord.isFinite x = true → Codec.RoundTrips x) {p : Point α d}
    (h : p.Finite) : Codec.RoundTrips p := by
  apply Codec.roundTrips_vector
  intro x hx
  obtain ⟨i, hi, rfl⟩ := Vector.getElem_of_mem hx
  exact hcodec _ (h ⟨i, hi⟩)

section Rationals

instance : Coord ℚ where
  zero := 0
  one := 1
  half := 1 / 2
  tenth := 1 / 10
  abs := abs
  sqrt q := Nat.sqrt ⌊q⌋₊
  isNaN _ := false
  isFinite _ := true
  ofNat n := n
  whole q := ⌊q⌋₊
  decLt := inferInstance
  decLe := inferInstance

instance : ExactCoord ℚ where
  le_trans h h' := h.trans h'
  le_total {a b} _ _ := Std.le_total (a := a) (b := b)
  lt_iff_not_le _ _ := not_le.symm
  value q := q
  number _ := rfl
  le_iff _ _ := Rat.cast_le.symm
  zero := ⟨rfl, Rat.cast_zero⟩
  add _ _ := ⟨rfl, Rat.cast_add _ _⟩
  sub _ _ := ⟨rfl, Rat.cast_sub _ _⟩
  mul _ _ := ⟨rfl, Rat.cast_mul _ _⟩

namespace Codec

def decodeUnary : Payload → Except CodecError (Nat × Payload)
  | [] => .error .endOfInput
  | byte :: rest =>
    if byte = 0 then .ok (0, rest) else (decodeUnary rest).map fun found => (found.1 + 1, found.2)

/-- A rational number travels as its number in an enumeration. -/
instance : Codec ℚ where
  encode q := List.replicate (Encodable.encode q) 1 ++ [0]
  decode := fun bytes => (decodeUnary bytes).bind fun found =>
    match Encodable.decode (α := ℚ) found.1 with
    | some q => .ok (q, found.2)
    | none => .error .endOfInput

theorem decodeUnary_replicate (count : Nat) (rest : Payload) :
    decodeUnary (List.replicate count 1 ++ 0 :: rest) = .ok (count, rest) := by
  induction count with
  | zero => rfl
  | succ count ih =>
    rw [List.replicate_succ, List.cons_append, decodeUnary, if_neg (by decide), ih]
    rfl

theorem roundTrips_rational (q : ℚ) : RoundTrips q := by
  intro rest
  have hcount := decodeUnary_replicate (Encodable.encode q) rest
  change (decodeUnary (List.replicate (Encodable.encode q) 1 ++ [0] ++ rest)).bind _ = _
  rw [List.append_assoc, List.singleton_append, hcount]
  simp only [Except.bind, Encodable.encodek]

end Codec

end Rationals

end Vicinity
