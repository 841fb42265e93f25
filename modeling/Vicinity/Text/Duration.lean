/-!
# Durations

Text of a time span in its largest unit that is not zero, with as many places
as it needs.
-/

set_option autoImplicit false

namespace Vicinity.Duration

def places (width n : Nat) : String :=
  let digits := (List.range width).map fun i => n / Nat.pow 10 (width - 1 - i) % 10
  String.ofList ((digits.reverse.dropWhile (· = 0)).reverse.map Nat.digitChar)

def withUnit (whole width rest : Nat) (unit : String) : String :=
  let fraction := places width rest
  toString whole ++ (if fraction.isEmpty then "" else "." ++ fraction) ++ unit

def ofMillis (millis : Nat) : String :=
  if millis = 0 then "0ns"
  else if millis < 1000 then withUnit millis 0 0 "ms"
  else withUnit (millis / 1000) 3 (millis % 1000) "s"

end Vicinity.Duration
