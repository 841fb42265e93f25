import Vicinity.Entity.Basic

/-!
# Entity sets and selections

What a rank holds of a distributed set, in insertion order, its own entities
and copies of others alike, and a cursor over the entities that a selection
lets through. Copying a cursor forks it at its position.
-/

set_option autoImplicit false

namespace Vicinity

variable {α : Type}

abbrev Selection (α : Type) := Entity α → Bool

namespace Selection

def everything : Selection α := fun _ => true

def surface : Selection α := Entity.onSurface

def ownedBy (rank : Nat) : Selection α := fun e => e.owner.toNat == rank

def ofDimension (d : Dimension) : Selection α := fun e => decide (e.dimension = d)

def ofDimension? (d : Option Dimension) : Selection α := fun e => d.all fun d => ofDimension d e

def both (a b : Selection α) : Selection α := fun e => a e && b e

end Selection

structure EntitySet (α : Type) where
  rank : Nat
  entities : List (Entity α)

structure Cursor (α : Type) where
  rest : List (Entity α)
  select : Selection α

namespace EntitySet

def empty (rank : Nat) : EntitySet α := ⟨rank, []⟩

def add (s : EntitySet α) (e : Entity α) : EntitySet α := ⟨s.rank, s.entities ++ [e]⟩

def extend (s : EntitySet α) (es : List (Entity α)) : EntitySet α := ⟨s.rank, s.entities ++ es⟩

def size (s : EntitySet α) : Nat := s.entities.length

def isEmpty (s : EntitySet α) : Bool := s.entities.isEmpty

def bounds [Coord α] (s : EntitySet α) : Option (Box α 3) :=
  Box.unionAll (s.entities.map Entity.bounds)

def cursor (s : EntitySet α) (dimension : Option Dimension) (select : Selection α) : Cursor α :=
  ⟨s.entities, (Selection.ofDimension? dimension).both select⟩

end EntitySet

namespace Cursor

def next (c : Cursor α) : Option (Entity α) × Cursor α :=
  match c.rest.dropWhile fun e => !c.select e with
  | [] => (none, ⟨[], c.select⟩)
  | e :: rest => (some e, ⟨rest, c.select⟩)

def take : Nat → Cursor α → List (Option (Entity α)) × Cursor α
  | 0, c => ([], c)
  | count + 1, c =>
    let (e, c) := c.next
    let (es, c) := take count c
    (e :: es, c)

def toList (c : Cursor α) : List (Entity α) := c.rest.filter c.select

def sizeHint (c : Cursor α) : Nat × Nat := (0, c.rest.length)

def drained (c : Cursor α) : Cursor α := ⟨[], c.select⟩

end Cursor

end Vicinity
