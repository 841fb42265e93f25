/-!
# Coordinates

The arithmetic that boxes, keys and distances are computed with. The class
holds operations only, so that one program text runs on machine numbers and
can be reasoned about over any arithmetic; what a proof assumes of the
operations is stated where it is used.
-/

set_option autoImplicit false

namespace Vicinity

class Coord (α : Type) extends Add α, Sub α, Mul α, Div α, Neg α, LT α, LE α where
  zero : α
  one : α
  half : α
  tenth : α
  abs : α → α
  sqrt : α → α
  isNaN : α → Bool
  isFinite : α → Bool
  ofNat : Nat → α
  /-- The whole part of a number that is not negative, and zero for every other. -/
  whole : α → Nat
  decLt : DecidableLT α
  decLe : DecidableLE α

namespace Coord

variable {α : Type} [Coord α]

instance (a b : α) : Decidable (a < b) := decLt a b

instance (a b : α) : Decidable (a ≤ b) := decLe a b

/-- The smaller operand. A NaN loses against any number. -/
def lesser (a b : α) : α :=
  if isNaN a then b else if isNaN b then a else if b < a then b else a

def greater (a b : α) : α :=
  if isNaN a then b else if isNaN b then a else if a < b then b else a

def clampUnit (a : α) : α :=
  if a < zero then zero else if one < a then one else a

/-- Equality as numbers: both zeros are equal and a NaN equals nothing. -/
def same (a b : α) : Bool := decide (a ≤ b) && decide (b ≤ a)

end Coord

instance : Coord Float where
  zero := 0.0
  one := 1.0
  half := 0.5
  tenth := 0.1
  abs := Float.abs
  sqrt := Float.sqrt
  isNaN := Float.isNaN
  isFinite := Float.isFinite
  ofNat := Float.ofNat
  whole a := a.toUInt64.toNat
  decLt := Float.decLt
  decLe := Float.decLe

end Vicinity
