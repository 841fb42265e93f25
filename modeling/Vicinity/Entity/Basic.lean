import Vicinity.Box

/-!
# Entities

Geometric items of a distributed set: each has an id, a rank that owns it, a
topological dimension, marker flags and a shape. Of the flags only the one for
the surface has a meaning here; the others are kept as they are.
-/

set_option autoImplicit false

namespace Vicinity

abbrev EntityId := UInt64

inductive Dimension where
  | node | edge | face | volume
  deriving DecidableEq, Repr

namespace Dimension

def index : Dimension → Nat
  | node => 0
  | edge => 1
  | face => 2
  | volume => 3

def ofIndex? : Nat → Option Dimension
  | 0 => some node
  | 1 => some edge
  | 2 => some face
  | 3 => some volume
  | _ => none

def name : Dimension → String
  | node => "Node"
  | edge => "Edge"
  | face => "Face"
  | volume => "Volume"

def all : List Dimension := [node, edge, face, volume]

def ofName? (s : String) : Option Dimension := all.find? fun d => d.name = s

end Dimension

inductive Shape (α : Type) where
  | point (p : Point α 3)
  | box (b : Box α 3)
  /-- A cell whose geometry only a local map knows, within these bounds. -/
  | cell (bounds : Box α 3)

structure Entity (α : Type) where
  id : EntityId
  owner : UInt64
  dimension : Dimension
  flags : UInt8
  shape : Shape α

namespace Entity

variable {α : Type}

def surfaceFlag : UInt8 := 1

def ofPoint (id : EntityId) (owner : UInt64) (p : Point α 3) (surface : Bool) : Entity α :=
  ⟨id, owner, .node, if surface then surfaceFlag else 0, .point p⟩

def ofBox (id : EntityId) (owner : UInt64) (b : Box α 3) : Entity α :=
  ⟨id, owner, .volume, 0, .box b⟩

def ofCell (id : EntityId) (owner : UInt64) (dimension : Dimension) (bounds : Box α 3) :
    Entity α :=
  ⟨id, owner, dimension, 0, .cell bounds⟩

def withFlags (e : Entity α) (flags : UInt8) : Entity α := { e with flags }

def onSurface (e : Entity α) : Bool := e.flags &&& surfaceFlag == surfaceFlag

def bounds (e : Entity α) : Box α 3 :=
  match e.shape with
  | .point p => Box.ofPoint p
  | .box b => b
  | .cell b => b

end Entity

end Vicinity
