import Std.Data.HashMap
import Vicinity.Entity.Basic
import Vicinity.Text.Json
import Vicinity.Wire.Codec

/-!
# Correspondences

The matches that a rank knows, to be looked up from either side. A pair is kept
once, with the coordinates of its first record. The owner of a range entity is
the one that was set last, or else that of the first record that names it.
-/

set_option autoImplicit false

namespace Vicinity

structure Record (α : Type) where
  domain : EntityId
  range : EntityId
  rangeOwner : UInt64
  /-- The range entity in the reference frame of the domain entity. -/
  coordinates : Point α 3

instance {α : Type} [Codec α] : Codec (Record α) where
  encode r := Codec.encode r.domain ++ Codec.encode r.range ++ Codec.encode r.rangeOwner ++
    Codec.encode r.coordinates
  decode := do
    let domain ← Codec.decode
    let range ← Codec.decode
    let rangeOwner ← Codec.decode
    let coordinates ← Codec.decode
    pure ⟨domain, range, rangeOwner, coordinates⟩

def Record.fieldNames : List String :=
  ["domain_id", "range_id", "range_owner", "parametric_coordinates"]

def Record.ofJson? (j : Json) : Option (Record Float) := do
  match ← j.fields? fieldNames with
  | [some domain, some range, some owner, some coordinates] =>
    let xs := (← (← coordinates.list?).mapM Json.float?).toArray
    if h : xs.size = 3 then
      pure ⟨← domain.word?, ← range.word?, ← owner.word?, ⟨xs, h⟩⟩
    else none
  | _ => none

structure Correspondence (α : Type) where
  byDomain : Std.HashMap EntityId (List EntityId)
  byRange : Std.HashMap EntityId (List EntityId)
  coordinatesOf : Std.HashMap (EntityId × EntityId) (Point α 3)
  owners : Std.HashMap EntityId UInt64

namespace Correspondence

variable {α : Type}

def empty : Correspondence α := ⟨∅, ∅, ∅, ∅⟩

def rangeEntities (c : Correspondence α) (domain : EntityId) : List EntityId :=
  c.byDomain.getD domain []

def domainEntities (c : Correspondence α) (range : EntityId) : List EntityId :=
  c.byRange.getD range []

def coordinates? (c : Correspondence α) (domain range : EntityId) : Option (Point α 3) :=
  c.coordinatesOf[(domain, range)]?

def rangeOwner? (c : Correspondence α) (range : EntityId) : Option UInt64 := c.owners[range]?

def size (c : Correspondence α) : Nat := c.coordinatesOf.size

def isEmpty (c : Correspondence α) : Bool := c.coordinatesOf.isEmpty

def isNew (c : Correspondence α) (r : Record α) : Bool :=
  !c.coordinatesOf.contains (r.domain, r.range)

def insert (c : Correspondence α) (r : Record α) : Correspondence α :=
  let owners := c.owners.insertIfNew r.range r.rangeOwner
  if c.isNew r then
    { byDomain := c.byDomain.insert r.domain (c.rangeEntities r.domain ++ [r.range])
      byRange := c.byRange.insert r.range (c.domainEntities r.range ++ [r.domain])
      coordinatesOf := c.coordinatesOf.insert (r.domain, r.range) r.coordinates
      owners }
  else { c with owners }

def extend (c : Correspondence α) (rs : List (Record α)) : Correspondence α := rs.foldl insert c

def setRangeOwner (c : Correspondence α) (range : EntityId) (owner : UInt64) :
    Correspondence α :=
  { c with owners := c.owners.insert range owner }

end Correspondence

end Vicinity
