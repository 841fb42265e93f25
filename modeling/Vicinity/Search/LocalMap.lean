import Vicinity.Search.Error

/-!
# Local maps

A local map knows the geometry of entities: the centroid of one, where a point
lands in its reference frame, and whether a reference point lies inside. To
locate a point is to ask the last two in turn, unless a map has its own way.

The basic map covers points and boxes. A box has the unit cube as its frame;
an axis on which it is flat keeps the offset from the box, with zero as the
only inside value. A point has the offset from itself. Cells have a centroid
only.
-/

set_option autoImplicit false

namespace Vicinity

structure LocalMap (α : Type) where
  centroid : Entity α → Except (SearchError α) (Point α 3)
  toReference : Entity α → Point α 3 → Except (SearchError α) (Point α 3)
  isInside : Entity α → Point α 3 → α → Bool
  locate : Entity α → Point α 3 → α → Except (SearchError α) (Option (Point α 3)) :=
    fun e p tolerance => (toReference e p).map fun reference =>
      if isInside e reference tolerance then some reference else none

namespace LocalMap

variable {α : Type} [Coord α]

def center (e : Entity α) : Point α 3 :=
  match e.shape with
  | .point p => p
  | .box b => b.centroid
  | .cell b => b.centroid

def toUnitCube (b : Box α 3) (p : Point α 3) : Point α 3 :=
  Vector.ofFn fun i =>
    let extent := b.upper[i] - b.lower[i]
    let offset := p[i] - b.lower[i]
    if Coord.zero < extent then offset / extent else offset

def isInUnitCube (b : Box α 3) (reference : Point α 3) (tolerance : α) : Bool :=
  (List.finRange 3).all fun i =>
    let upper : α := if b.lower[i] < b.upper[i] then Coord.one else Coord.zero
    decide (-tolerance ≤ reference[i]) && decide (reference[i] ≤ upper + tolerance)

def basic : LocalMap α where
  centroid e := .ok (center e)
  toReference e p :=
    match e.shape with
    | .point q => .ok (Vector.ofFn fun i => p[i] - q[i])
    | .box b => .ok (toUnitCube b p)
    | .cell _ => .error (.unsupportedShape e.id)
  isInside e reference tolerance :=
    match e.shape with
    | .point _ => (List.finRange 3).all fun i => decide (Coord.abs reference[i] ≤ tolerance)
    | .box b => isInUnitCube b reference tolerance
    | .cell _ => false

/-- Reads a cell as the ellipsoid that fills its bounds. -/
def ellipsoid : LocalMap α where
  centroid := basic.centroid
  toReference e p :=
    match e.shape with
    | .cell b =>
      .ok (Vector.ofFn fun i => (p[i] - b.centroid[i]) / (Coord.half * b.extents[i]))
    | _ => basic.toReference e p
  isInside e r tolerance :=
    match e.shape with
    | .cell _ => decide (r[0] * r[0] + r[1] * r[1] + r[2] * r[2] ≤ Coord.one + tolerance)
    | _ => basic.isInside e r tolerance

/-- Knows nothing about cells, not even a centroid. -/
def strict : LocalMap α where
  centroid e :=
    match e.shape with
    | .cell _ => .error (.unsupportedShape e.id)
    | _ => basic.centroid e
  toReference := basic.toReference
  isInside := basic.isInside

end LocalMap

end Vicinity
