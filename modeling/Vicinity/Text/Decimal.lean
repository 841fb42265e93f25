/-!
# Decimal text of binary numbers

The fewest digits that read back as the same number and, of those, the nearest
to it, a tie going up; written either always positionally or, outside of a
middle range, with an exponent. Reading takes a decimal to the nearest number.
-/

set_option autoImplicit false

namespace Vicinity

structure Decimal where
  digits : Nat
  exponent : Int
  deriving DecidableEq, Repr

namespace Decimal

/-- A positive number `mantissa * 2 ^ exponent` among its neighbours in a binary
format. -/
structure Binary where
  mantissa : Nat
  exponent : Int
  /-- The next smaller number is only half as far away as the next larger one. -/
  atPower : Bool

def Binary.ofFloat (x : Float) : Binary :=
  let bits : Nat := x.toBits.toNat
  let fraction : Nat := bits % Nat.pow 2 52
  let field : Nat := bits / Nat.pow 2 52 % Nat.pow 2 11
  if field = 0 then ⟨fraction, -1074, false⟩
  else ⟨Nat.pow 2 52 + fraction, (field : Int) - 1075, fraction = 0 ∧ 1 < field⟩

/-- The point of the grid `10 ^ spacing` in the interval of reals that are read
as the number, the nearer one if both neighbours are, the upper one on a tie. -/
def Binary.onGrid? (b : Binary) (spacing : Int) : Option Nat :=
  -- Four times the number, its interval and the grid, over one denominator.
  let scale := Nat.pow 2 b.exponent.toNat * Nat.pow 10 (-spacing).toNat
  let step := 4 * Nat.pow 2 (-b.exponent).toNat * Nat.pow 10 spacing.toNat
  let value := 4 * b.mantissa * scale
  let low := (4 * b.mantissa - if b.atPower then 1 else 2) * scale
  let high := (4 * b.mantissa + 2) * scale
  let inside (n : Nat) : Bool :=
    if b.mantissa % 2 = 0 then decide (low ≤ n * step) && decide (n * step ≤ high)
    else decide (low < n * step) && decide (n * step < high)
  let below := value / step
  if value % step = 0 then some below
  else if inside below && inside (below + 1) then
    some (if value - below * step < (below + 1) * step - value then below else below + 1)
  else if inside below then some below
  else if inside (below + 1) then some (below + 1)
  else none

/-- The exponent of the leading decimal digit. -/
def Binary.magnitude (b : Binary) : Int :=
  let whole := b.mantissa * Nat.pow 2 b.exponent.toNat / Nat.pow 2 (-b.exponent).toNat
  if 0 < whole then ((Nat.toDigits 10 whole).length : Int) - 1
  else
    let isReached (j : Nat) : Bool :=
      decide (Nat.pow 2 (-b.exponent).toNat ≤ b.mantissa * Nat.pow 10 j)
    let places : Nat := ((List.range 400).find? isReached).getD 400
    (-places : Int)

def normalize : Nat → Decimal → Decimal
  | 0, d => d
  | steps + 1, d =>
    if d.digits ≠ 0 ∧ d.digits % 10 = 0 then normalize steps ⟨d.digits / 10, d.exponent + 1⟩
    else d

def shortest (b : Binary) : Decimal :=
  let top := b.magnitude
  let tryPlaces (places : Nat) : Option Decimal :=
    let spacing := top - places
    (b.onGrid? spacing).map fun n => normalize 20 ⟨n, spacing⟩
  ((List.range 18).findSome? tryPlaces).getD ⟨b.mantissa, b.exponent⟩

def digitText (n : Nat) : String := String.ofList (Nat.toDigits 10 n)

def zeros (n : Nat) : String := String.ofList (List.replicate n '0')

def positional (d : Decimal) : String :=
  let text := digitText d.digits
  if 0 ≤ d.exponent then text ++ zeros d.exponent.toNat
  else
    let places := (-d.exponent).toNat
    let padded := zeros (places + 1 - text.length) ++ text
    let cut := padded.length - places
    String.ofList (padded.toList.take cut) ++ "." ++ String.ofList (padded.toList.drop cut)

def scientific (d : Decimal) : String :=
  let text := Nat.toDigits 10 d.digits
  let exponent := d.exponent + (text.length - 1 : Nat)
  String.ofList (text.take 1) ++
    (if text.length = 1 then "" else "." ++ String.ofList (text.drop 1)) ++
    "e" ++ toString exponent

def isNegative (x : Float) : Bool := x.toBits ≥ 0x8000000000000000

def format (magnitude : Decimal → String) (zero : String) (x : Float) : String :=
  if x.isNaN then "NaN"
  else
    let sign := if isNegative x then "-" else ""
    if x.isInf then sign ++ "inf"
    else if x == 0 then sign ++ zero
    else sign ++ magnitude (shortest (Binary.ofFloat x))

/-- Never an exponent, and no point in a whole number. -/
def plain (x : Float) : String := format positional "0" x

def marked (x : Float) : String :=
  if x.abs ≥ 1e16 || (x.abs < 1e-4 && x.abs > 0) then format scientific "0.0" x
  else format (fun d => if 0 ≤ d.exponent then positional d ++ ".0" else positional d) "0.0" x

def toFloat? (negative : Bool) (d : Decimal) : Option Float :=
  let sign (x : Float) := if negative then -x else x
  let top := ((Nat.toDigits 10 d.digits).length : Int) + d.exponent
  if d.digits = 0 || top < -400 then some (sign 0.0)
  else if 400 < top then none
  else
    let x := Float.ofScientific d.digits (d.exponent < 0) d.exponent.natAbs
    if x.isInf then none else some (sign x)

end Decimal

end Vicinity
