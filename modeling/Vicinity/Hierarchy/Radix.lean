/-!
# Ranges and splits of a sorted key list

The shape of the tree over `n` sorted keys. A key is read as a word of 128
bits, the key itself followed by its position, so that equal keys differ as
well. Branch `i` covers the keys around position `i` that share more leading
bits with it than its other neighbour does, and divides them at the highest
bit in which they differ. Every branch is found on its own, without the others.
-/

set_option autoImplicit false

namespace Vicinity.Radix

def leadingZeros (w : Nat) : Nat := if w = 0 then 64 else 63 - w.log2

/-- Leading bits that the words at `i` and `j` have in common, and `-1` where
`j` is no position. -/
def commonPrefix (keys : Array UInt64) (i : Nat) (j : Int) : Int :=
  if j < 0 then -1
  else match keys[i]?, keys[j.toNat]? with
    | some a, some b =>
      if a = b then 64 + leadingZeros (i ^^^ j.toNat) else leadingZeros (a ^^^ b).toNat
    | _, _ => -1

def reach (keys : Array UInt64) (i : Nat) (direction least : Int) (step : Nat) : Nat :=
  if 0 < step ∧ step ≤ keys.size ∧
      least < commonPrefix keys i (i + step * direction) then
    reach keys i direction least (2 * step)
  else step
termination_by keys.size + 1 - step

def farthest (keys : Array UInt64) (i : Nat) (direction least : Int)
    (offset step : Nat) : Nat :=
  if step ≤ 1 then offset
  else
    let half := step / 2
    let offset :=
      if least < commonPrefix keys i (i + (offset + half : Nat) * direction) then offset + half
      else offset
    farthest keys i direction least offset half
termination_by step

def range (keys : Array UInt64) (i : Nat) : Nat × Nat :=
  let direction : Int :=
    if commonPrefix keys i (i - 1) < commonPrefix keys i (i + 1) then 1 else -1
  let least := commonPrefix keys i (i - direction)
  let offset := farthest keys i direction least 0 (reach keys i direction least 2)
  let j := ((i : Int) + offset * direction).natAbs
  (min i j, max i j)

def splitFrom (keys : Array UInt64) (first last : Nat) (common : Int)
    (split step : Nat) : Nat :=
  let half := (step + 1) / 2
  let candidate := split + half
  let split :=
    if candidate < last ∧ common < commonPrefix keys first candidate then candidate else split
  if half ≤ 1 then split else splitFrom keys first last common split half
termination_by step

/-- The last position before `last` whose word agrees with the first one
beyond the bits that the whole range has in common. -/
def split (keys : Array UInt64) (first last : Nat) : Nat :=
  splitFrom keys first last (commonPrefix keys first last) first (last - first)

/-- Where the children of branch `i` stand when `n - 1` branches are followed
by `n` leaves. -/
def children (keys : Array UInt64) (i : Nat) : Nat × Nat :=
  let (first, last) := range keys i
  let s := split keys first last
  let leaf (j : Nat) := keys.size - 1 + j
  (if s = first then leaf s else s, if s + 1 = last then leaf (s + 1) else s + 1)

end Vicinity.Radix
