import Vicinity.Text.Decimal

/-!
# JSON texts

Reads a text by the grammar of the format into a tree. Numbers keep their exact
decimal value and whether they are written as plain integers. A string in which
an escaped surrogate stands alone is well formed but has no text. Members keep
their order and may repeat.
-/

set_option autoImplicit false

namespace Vicinity

inductive Json where
  | null
  | bool (value : Bool)
  | number (negative integral : Bool) (value : Decimal)
  | string (text : Option String)
  | array (items : List Json)
  | object (members : List (Option String × Json))

namespace Json

def skipBlank (cs : List Char) : List Char :=
  cs.dropWhile fun c => c = ' ' || c = '\n' || c = '\t' || c = '\r'

def hexValue? (c : Char) : Option Nat :=
  if c.isDigit then some (c.toNat - '0'.toNat)
  else if 'a' ≤ c ∧ c ≤ 'f' then some (c.toNat - 'a'.toNat + 10)
  else if 'A' ≤ c ∧ c ≤ 'F' then some (c.toNat - 'A'.toNat + 10)
  else none

def hex4? (a b c d : Char) : Option Nat := do
  pure ((((← hexValue? a) * 16 + (← hexValue? b)) * 16 + (← hexValue? c)) * 16 + (← hexValue? d))

def letterEscape? : Char → Option Char
  | '"' => some '"'
  | '\\' => some '\\'
  | '/' => some '/'
  | 'b' => some '\x08'
  | 'f' => some '\x0c'
  | 'n' => some '\n'
  | 'r' => some '\r'
  | 't' => some '\t'
  | _ => none

def scanString : List Char → Option (List Nat × List Char)
  | '"' :: rest => some ([], rest)
  | '\\' :: 'u' :: a :: b :: c :: d :: rest => do
    let unit ← hex4? a b c d
    let (units, rest) ← scanString rest
    pure (unit :: units, rest)
  | '\\' :: e :: rest => do
    let c ← letterEscape? e
    let (units, rest) ← scanString rest
    pure (c.toNat :: units, rest)
  | c :: rest => do
    if c.toNat < 0x20 then none
    let (units, rest) ← scanString rest
    pure (c.toNat :: units, rest)
  | [] => none

def isHigh (u : Nat) : Bool := decide (0xd800 ≤ u) && decide (u < 0xdc00)

def isLow (u : Nat) : Bool := decide (0xdc00 ≤ u) && decide (u < 0xe000)

def joinSurrogates : List Nat → Option (List Char)
  | [] => some []
  | high :: low :: rest =>
    if isHigh high && isLow low then
      (Char.ofNat (0x10000 + (high - 0xd800) * 0x400 + (low - 0xdc00)) :: ·) <$>
        joinSurrogates rest
    else if isHigh high || isLow high then none
    else (Char.ofNat high :: ·) <$> joinSurrogates (low :: rest)
  | [u] => if isHigh u || isLow u then none else some [Char.ofNat u]

def stringOf (units : List Nat) : Option String := String.ofList <$> joinSurrogates units

def takeDigits (cs : List Char) : List Char × List Char :=
  (cs.takeWhile Char.isDigit, cs.dropWhile Char.isDigit)

def natOf (digits : List Char) : Nat :=
  digits.foldl (fun n c => n * 10 + (c.toNat - '0'.toNat)) 0

def someDigits (cs : List Char) : Option (List Char × List Char) :=
  let (digits, rest) := takeDigits cs
  if digits.isEmpty then none else some (digits, rest)

def wholeDigits : List Char → Option (List Char × List Char)
  | '0' :: rest => some (['0'], rest)
  | cs => someDigits cs

def scanFraction : List Char → Option (List Char × List Char)
  | '.' :: rest => someDigits rest
  | cs => some ([], cs)

def isExponentMark (c : Char) : Bool := c = 'e' || c = 'E'

def scanExponent : List Char → Option (Option Int × List Char)
  | [] => some (none, [])
  | c :: rest =>
    if isExponentMark c then do
      let (negative, rest) : Bool × List Char :=
        match rest with
        | '+' :: rest => (false, rest)
        | '-' :: rest => (true, rest)
        | rest => (false, rest)
      let (digits, rest) ← someDigits rest
      let n : Int := natOf digits
      pure (some (if negative then -n else n), rest)
    else some (none, c :: rest)

def scanNumber (negative : Bool) (cs : List Char) : Option (Json × List Char) := do
  let (whole, rest) ← wholeDigits cs
  let (fraction, rest) ← scanFraction rest
  let (exponent, rest) ← scanExponent rest
  let value : Decimal := ⟨natOf (whole ++ fraction), exponent.getD 0 - fraction.length⟩
  pure (.number negative (fraction.isEmpty && exponent.isNone) value, rest)

mutual

/-- One value, with at most `depth` further calls in a row. -/
def scanValue : Nat → List Char → Option (Json × List Char)
  | 0, _ => none
  | depth + 1, cs =>
    match skipBlank cs with
    | 'n' :: 'u' :: 'l' :: 'l' :: rest => some (.null, rest)
    | 't' :: 'r' :: 'u' :: 'e' :: rest => some (.bool true, rest)
    | 'f' :: 'a' :: 'l' :: 's' :: 'e' :: rest => some (.bool false, rest)
    | '"' :: rest => do
      let (units, rest) ← scanString rest
      pure (.string (stringOf units), rest)
    | '-' :: rest => scanNumber true rest
    | '[' :: rest =>
      match skipBlank rest with
      | ']' :: rest => some (.array [], rest)
      | rest => do
        let (items, rest) ← scanItems depth rest
        pure (.array items, rest)
    | '\x7b' :: rest =>
      match skipBlank rest with
      | '\x7d' :: rest => some (.object [], rest)
      | rest => do
        let (members, rest) ← scanMembers depth rest
        pure (.object members, rest)
    | cs => scanNumber false cs

def scanItems : Nat → List Char → Option (List Json × List Char)
  | 0, _ => none
  | depth + 1, cs => do
    let (item, rest) ← scanValue depth cs
    match skipBlank rest with
    | ']' :: rest => pure ([item], rest)
    | ',' :: rest =>
      let (items, rest) ← scanItems depth rest
      pure (item :: items, rest)
    | _ => none

def scanMembers : Nat → List Char → Option (List (Option String × Json) × List Char)
  | 0, _ => none
  | depth + 1, cs =>
    match skipBlank cs with
    | '"' :: rest => do
      let (units, rest) ← scanString rest
      match skipBlank rest with
      | ':' :: rest =>
        let (value, rest) ← scanValue depth rest
        match skipBlank rest with
        | '\x7d' :: rest => pure ([(stringOf units, value)], rest)
        | ',' :: rest =>
          let (members, rest) ← scanMembers depth rest
          pure ((stringOf units, value) :: members, rest)
        | _ => none
      | _ => none
    | _ => none

end

/-- The value of a text that holds one value and nothing after it. Every call
in a row consumes a character. -/
def parse? (text : String) : Option Json := do
  let (value, rest) ← scanValue (text.length + 2) text.toList
  if (skipBlank rest).isEmpty then some value else none

def float? : Json → Option Float
  | .number negative _ value => value.toFloat? negative
  | _ => none

def word? : Json → Option UInt64
  | .number false true value => if value.digits < UInt64.size then some (UInt64.ofNat value.digits) else none
  | _ => none

def bool? : Json → Option Bool
  | .bool value => some value
  | _ => none

def list? : Json → Option (List Json)
  | .array items => some items
  | _ => none

/-- The name of a case: as a string, or as the only member of an object. -/
def case? : Json → Option String
  | .string name => name
  | .object [(name, .null)] => name
  | _ => none

def nullable? {τ : Type} (read : Json → Option τ) : Json → Option (Option τ)
  | .null => some none
  | j => some <$> read j

/-- What a record gives for each of its fields: by name, unknown names being
skipped, or by position. A name may not repeat. -/
def fields? (names : List String) : Json → Option (List (Option Json))
  | .array items =>
    if items.length ≤ names.length then
      some (items.map some ++ List.replicate (names.length - items.length) none)
    else none
  | .object members => do
    let members ← members.mapM fun (name, value) => name.map fun name => (name, value)
    names.mapM fun name =>
      match members.filter fun m => m.1 == name with
      | [] => some none
      | [(_, value)] => some (some value)
      | _ => none
  | _ => none

def orElse {τ : Type} (default : τ) (read : Json → Option τ) : Option Json → Option τ
  | none => some default
  | some j => read j

end Json

end Vicinity
