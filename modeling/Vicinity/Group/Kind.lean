import Vicinity.Wire.Codec

/-!
# Kinds of values in scripts

A script names the kind of each value it sends or expects. A kind stands for a
type with its payload format, and for the ways in which two of its values
combine.
-/

set_option autoImplicit false

namespace Vicinity

inductive Kind where
  | byte | word | integer | coord | bool | char | text | point
  | maybeWord | words | texts | pair
  deriving DecidableEq, Repr

namespace Kind

variable (α : Type)

abbrev Carrier : Kind → Type
  | byte => UInt8
  | word => UInt64
  | integer => Int64
  | coord => α
  | bool => Bool
  | char => Char
  | text => String
  | point => Point α 3
  | maybeWord => Option UInt64
  | words => List UInt64
  | texts => List String
  | pair => UInt64 × String

/-- The bytes that a value of the kind takes in a list, without what it points to. -/
def width : Kind → Nat
  | byte => 1
  | bool => 1
  | char => 4
  | word => 8
  | integer => 8
  | coord => 8
  | maybeWord => 16
  | text => 24
  | point => 24
  | words => 24
  | texts => 24
  | pair => 32

instance [Codec α] : (k : Kind) → Codec (k.Carrier α)
  | byte => inferInstanceAs (Codec UInt8)
  | word => inferInstanceAs (Codec UInt64)
  | integer => inferInstanceAs (Codec Int64)
  | coord => inferInstanceAs (Codec α)
  | bool => inferInstanceAs (Codec Bool)
  | char => inferInstanceAs (Codec Char)
  | text => inferInstanceAs (Codec String)
  | point => inferInstanceAs (Codec (Point α 3))
  | maybeWord => inferInstanceAs (Codec (Option UInt64))
  | words => inferInstanceAs (Codec (List UInt64))
  | texts => inferInstanceAs (Codec (List String))
  | pair => inferInstanceAs (Codec (UInt64 × String))

end Kind

inductive Combine where
  | first | last | sum | sub | min | max | concat
  deriving DecidableEq, Repr

namespace Combine

variable {α : Type} [Coord α]

/-- How an accumulated value and the next one combine, where the kind has such
a combination. Words and integers wrap around; texts compare by code points. -/
def on? : Combine → (k : Kind) → Option (k.Carrier α → k.Carrier α → k.Carrier α)
  | first, _ => some fun a _ => a
  | last, _ => some fun _ b => b
  | sum, .word => some (· + ·)
  | sum, .integer => some (· + ·)
  | sum, .coord => some (· + ·)
  | sub, .word => some (· - ·)
  | sub, .integer => some (· - ·)
  | sub, .coord => some (· - ·)
  | min, .word => some fun a b => if b < a then b else a
  | min, .integer => some fun a b => if b < a then b else a
  | min, .text => some fun a b => if b < a then b else a
  | max, .word => some fun a b => if a < b then b else a
  | max, .integer => some fun a b => if a < b then b else a
  | concat, .text => some (· ++ ·)
  | concat, .words => some (· ++ ·)
  | _, _ => none

end Combine

end Vicinity
