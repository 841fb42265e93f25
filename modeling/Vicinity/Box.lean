import Vicinity.Coord

/-!
# Points and boxes

Axis-aligned boxes in any number of dimensions. A box is well formed when no
corner has a NaN and no axis is inverted; a box with equal corners stands for
a point. Every test counts the boundary as part of the box.
-/

set_option autoImplicit false

namespace Vicinity

abbrev Point (α : Type) (d : Nat) := Vector α d

structure Box (α : Type) (d : Nat) where
  lower : Point α d
  upper : Point α d

variable {α : Type} {d : Nat} [Coord α]

def Point.distanceSquared (p q : Point α d) : α :=
  (List.finRange d).foldl (fun acc i => acc + (p[i] - q[i]) * (p[i] - q[i])) Coord.zero

def Point.Finite (p : Point α d) : Prop := ∀ i : Fin d, Coord.isFinite p[i] = true

namespace Box

def ofPoint (p : Point α d) : Box α d := ⟨p, p⟩

def isValid (b : Box α d) : Bool :=
  (List.finRange d).all fun i =>
    !Coord.isNaN b.lower[i] && !Coord.isNaN b.upper[i] && decide (b.lower[i] ≤ b.upper[i])

def Numbers (b : Box α d) : Prop :=
  ∀ i : Fin d, Coord.isNaN b.lower[i] = false ∧ Coord.isNaN b.upper[i] = false

def Covers (c b : Box α d) : Prop := ∀ i : Fin d, c.lower[i] ≤ b.lower[i] ∧ b.upper[i] ≤ c.upper[i]

def same (a b : Box α d) : Bool :=
  (List.finRange d).all fun i =>
    Coord.same a.lower[i] b.lower[i] && Coord.same a.upper[i] b.upper[i]

def isDegenerate (b : Box α d) : Bool :=
  (List.finRange d).all fun i => Coord.same b.lower[i] b.upper[i]

def contains (b : Box α d) (p : Point α d) : Bool :=
  (List.finRange d).all fun i => decide (b.lower[i] ≤ p[i]) && decide (p[i] ≤ b.upper[i])

def meets (a b : Box α d) : Bool :=
  (List.finRange d).all fun i =>
    decide (a.lower[i] ≤ b.upper[i]) && decide (b.lower[i] ≤ a.upper[i])

def union (a b : Box α d) : Box α d :=
  ⟨Vector.ofFn fun i => Coord.lesser a.lower[i] b.lower[i],
   Vector.ofFn fun i => Coord.greater a.upper[i] b.upper[i]⟩

@[simp] theorem lower_union (a b : Box α d) (i : Fin d) :
    (a.union b).lower[i] = Coord.lesser a.lower[i] b.lower[i] := by
  simp [union]

@[simp] theorem upper_union (a b : Box α d) (i : Fin d) :
    (a.union b).upper[i] = Coord.greater a.upper[i] b.upper[i] := by
  simp [union]

def unionAll : List (Box α d) → Option (Box α d)
  | [] => none
  | b :: bs => some (bs.foldl union b)

def ofPoints (ps : List (Point α d)) : Option (Box α d) :=
  unionAll (ps.map ofPoint)

def expanded (b : Box α d) (amount : α) : Box α d :=
  ⟨Vector.ofFn fun i => b.lower[i] - amount, Vector.ofFn fun i => b.upper[i] + amount⟩

def centroid (b : Box α d) : Point α d :=
  Vector.ofFn fun i => Coord.half * (b.lower[i] + b.upper[i])

def extents (b : Box α d) : Point α d :=
  Vector.ofFn fun i => b.upper[i] - b.lower[i]

def largestExtent (b : Box α d) : α :=
  b.extents.toList.foldl Coord.greater Coord.zero

def gap (b : Box α d) (p : Point α d) (i : Fin d) : α :=
  if p[i] < b.lower[i] then b.lower[i] - p[i]
  else if b.upper[i] < p[i] then p[i] - b.upper[i]
  else Coord.zero

def distanceSquared (b : Box α d) (p : Point α d) : α :=
  (List.finRange d).foldl (fun acc i => acc + b.gap p i * b.gap p i) Coord.zero

end Box

end Vicinity
