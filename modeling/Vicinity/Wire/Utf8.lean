/-!
# UTF-8

Text as octets. Decoding names the first place where the octets are no text:
either a sequence that no text continues, with its length, or an end in the
middle of a character.
-/

set_option autoImplicit false

namespace Vicinity.Utf8

inductive Fault where
  | invalid (length index : Nat)
  | incomplete (index : Nat)
  deriving DecidableEq, Repr

def Fault.message : Fault → String
  | .invalid length index =>
    "invalid utf-8 sequence of " ++ toString length ++ " bytes from index " ++ toString index
  | .incomplete index => "incomplete utf-8 byte sequence from index " ++ toString index

def width (b : UInt8) : Nat :=
  if b < 0x80 then 1
  else if b < 0xc2 then 0
  else if b < 0xe0 then 2
  else if b < 0xf0 then 3
  else if b < 0xf5 then 4
  else 0

def isTail (b : UInt8) : Bool := decide (0x80 ≤ b) && decide (b ≤ 0xbf)

/-- The second octets that some first octets allow are fewer than all tails:
none may spell a short character at length, a surrogate, or more than the last
code point. -/
def isSecond (first b : UInt8) : Bool :=
  isTail b &&
    (if first = 0xe0 then decide (0xa0 ≤ b)
    else if first = 0xed then decide (b ≤ 0x9f)
    else if first = 0xf0 then decide (0x90 ≤ b)
    else if first = 0xf4 then decide (b ≤ 0x8f)
    else true)

def assemble (first : UInt8) (tails : List UInt8) : Char :=
  Char.ofNat (tails.foldl (fun n b => n * 64 + b.toNat % 64) first.toNat)

def encode (s : List Char) : List UInt8 := s.flatMap String.utf8EncodeChar

def decodeFrom (index : Nat) : List UInt8 → Except Fault (List Char)
  | [] => .ok []
  | a :: rest =>
    match width a with
    | 1 => (assemble a [] :: ·) <$> decodeFrom (index + 1) rest
    | 2 =>
      match rest with
      | [] => .error (.incomplete index)
      | b :: rest =>
        if isSecond a b then
          (assemble (a &&& 0x1f) [b] :: ·) <$> decodeFrom (index + 2) rest
        else .error (.invalid 1 index)
    | 3 =>
      match rest with
      | [] => .error (.incomplete index)
      | [b] => .error (if isSecond a b then .incomplete index else .invalid 1 index)
      | b :: c :: rest =>
        if !isSecond a b then .error (.invalid 1 index)
        else if !isTail c then .error (.invalid 2 index)
        else (assemble (a &&& 0x0f) [b, c] :: ·) <$> decodeFrom (index + 3) rest
    | 4 =>
      match rest with
      | [] => .error (.incomplete index)
      | [b] => .error (if isSecond a b then .incomplete index else .invalid 1 index)
      | [b, c] =>
        .error (if !isSecond a b then .invalid 1 index
          else if !isTail c then .invalid 2 index else .incomplete index)
      | b :: c :: e :: rest =>
        if !isSecond a b then .error (.invalid 1 index)
        else if !isTail c then .error (.invalid 2 index)
        else if !isTail e then .error (.invalid 3 index)
        else (assemble (a &&& 0x07) [b, c, e] :: ·) <$> decodeFrom (index + 4) rest
    | _ => .error (.invalid 1 index)

def decode (bytes : List UInt8) : Except Fault (List Char) := decodeFrom 0 bytes

end Vicinity.Utf8
