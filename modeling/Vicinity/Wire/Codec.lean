import Vicinity.Box
import Vicinity.Wire.Utf8

/-!
# Payload bytes

How values are written into messages: words of fixed width with the lowest
byte first, a word of 64 bits for the length of a text or a sequence, one byte
in front of an optional value, and the parts of a compound in order with
nothing between them. A decoder leaves what follows the value alone.
-/

set_option autoImplicit false

namespace Vicinity

inductive CodecError where
  | endOfInput
  | shortText
  | badBool (byte : UInt8)
  | badChar
  | badOption (byte : UInt8)
  | badText (fault : Utf8.Fault)
  deriving DecidableEq, Repr

def CodecError.message : CodecError → String
  | .endOfInput => "io error: unexpected end of file"
  | .shortText => "io error: "
  | .badBool byte =>
    "invalid u8 while decoding bool, expected 0 or 1, found " ++ toString byte.toNat
  | .badChar => "char is not valid"
  | .badOption byte => "tag for enum is not valid, found " ++ toString byte.toNat
  | .badText fault => "string is not valid utf8: " ++ fault.message

abbrev Payload := List UInt8

abbrev Decoder := StateT Payload (Except CodecError)

class Codec (τ : Type) where
  encode : τ → Payload
  decode : Decoder τ

namespace Codec

def read {τ : Type} [Codec τ] (bytes : Payload) : Except CodecError τ :=
  (·.1) <$> (decode : Decoder τ).run bytes

def littleEndian : Nat → Nat → Payload
  | 0, _ => []
  | width + 1, n => UInt8.ofNat n :: littleEndian width (n / 256)

def decodeByte : Decoder UInt8 := fun
  | [] => .error .endOfInput
  | b :: rest => .ok (b, rest)

def decodeLittleEndian : Nat → Decoder Nat
  | 0 => pure 0
  | width + 1 => do
    let low ← decodeByte
    let high ← decodeLittleEndian width
    pure (low.toNat + 256 * high)

instance : Codec UInt8 where
  encode b := [b]
  decode := decodeByte

instance : Codec UInt64 where
  encode w := littleEndian 8 w.toNat
  decode := do pure (UInt64.ofNat (← decodeLittleEndian 8))

/-- Counts and ranks travel as words of 64 bits. -/
instance : Codec Nat where
  encode n := littleEndian 8 n
  decode := decodeLittleEndian 8

instance : Codec Int64 where
  encode i := encode i.toUInt64
  decode := do pure (← decode (τ := UInt64)).toInt64

instance : Codec Float where
  encode x := encode x.toBits
  decode := do pure (Float.ofBits (← decode))

instance : Codec Bool where
  encode b := [if b then 1 else 0]
  decode := do
    match ← decodeByte with
    | 0 => pure false
    | 1 => pure true
    | byte => throw (.badBool byte)

def takeBytes (count : Nat) (fault : CodecError) : Decoder Payload := fun bytes =>
  if (bytes.take count).length = count then .ok (bytes.take count, bytes.drop count)
  else .error fault

instance : Codec Char where
  encode c := String.utf8EncodeChar c
  decode := do
    let first ← decodeByte
    let width := Utf8.width first
    if width = 0 then throw .badChar
    let tails ← takeBytes (width - 1) .badChar
    match Utf8.decode (first :: tails) with
    | .ok [c] => pure c
    | _ => throw .badChar

instance : Codec String where
  encode s := encode (Utf8.encode s.toList).length ++ Utf8.encode s.toList
  decode := do
    let bytes ← takeBytes (← decode) .shortText
    match Utf8.decode bytes with
    | .ok s => pure (String.ofList s)
    | .error fault => throw (.badText fault)

section

variable {τ σ : Type} [Codec τ] [Codec σ]

def decodeMany : Nat → Decoder (List τ)
  | 0 => pure []
  | count + 1 => do
    let x ← decode
    let xs ← decodeMany count
    pure (x :: xs)

instance : Codec (List τ) where
  encode xs := encode xs.length ++ xs.flatMap encode
  decode := do decodeMany (← decode)

instance : Codec (Option τ) where
  encode
    | none => [0]
    | some x => 1 :: encode x
  decode := do
    match ← decodeByte with
    | 0 => pure none
    | 1 => some <$> decode
    | byte => throw (.badOption byte)

instance : Codec (τ × σ) where
  encode p := encode p.1 ++ encode p.2
  decode := do
    let x ← decode
    let y ← decode
    pure (x, y)

def decodeVector : (n : Nat) → Decoder (Vector τ n)
  | 0 => pure #v[]
  | n + 1 => do
    let xs ← decodeVector n
    let x ← decode
    pure (xs.push x)

instance {n : Nat} : Codec (Vector τ n) where
  encode xs := xs.toList.flatMap encode
  decode := decodeVector n

instance {d : Nat} : Codec (Box τ d) where
  encode b := encode b.lower ++ encode b.upper
  decode := do
    let lower ← decode
    let upper ← decode
    pure ⟨lower, upper⟩

end

end Codec

end Vicinity
