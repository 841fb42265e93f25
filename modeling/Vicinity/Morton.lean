import Vicinity.Box

/-!
# Keys along the Z-order curve

A point is normalised against a scene box, each coordinate is cut into cells,
and the bits of the cells are interleaved with axis 0 lowest. Sorting by key
puts points that are close together next to each other.
-/

set_option autoImplicit false

namespace Vicinity.Morton

def bitsPerAxis (d : Nat) : Nat := min (63 / d) 32

inductive AxisFault where
  | noAxes
  deriving DecidableEq, Repr

def AxisFault.message : AxisFault → String
  | .noAxes => "attempt to divide by zero"

def bitsPerAxis? (d : Nat) : Except AxisFault Nat :=
  if d = 0 then .error .noAxes else .ok (bitsPerAxis d)

/-- Bit `b` of the cell on axis `i` goes to bit `b * d + i` of the key. -/
def interleave {d : Nat} (cells : Vector UInt64 d) (bits : Nat) : UInt64 :=
  (List.range bits).foldl (fun key b =>
    (List.finRange d).foldl (fun key i =>
      key ||| (((cells.get i >>> UInt64.ofNat b) &&& 1) <<< UInt64.ofNat (b * d + i.val))) key) 0

/-- The low 21 bits of a word, each followed by two zero bits. -/
def spread (x : UInt64) : UInt64 :=
  let x := x &&& 0x1fffff
  let x := (x ||| x <<< 32) &&& 0x001f00000000ffff
  let x := (x ||| x <<< 16) &&& 0x001f0000ff0000ff
  let x := (x ||| x <<< 8) &&& 0x100f00f00f00f00f
  let x := (x ||| x <<< 4) &&& 0x10c30c30c30c30c3
  (x ||| x <<< 2) &&& 0x1249249249249249

def interleave3 (x y z : UInt64) : UInt64 :=
  spread x ||| (spread y <<< 1) ||| (spread z <<< 2)

variable {α : Type} {d : Nat} [Coord α]

/-- The cell of a point on one axis. Points outside of the scene count as on
its boundary, the upper boundary belongs to the last cell, and a flat axis has
cell 0 only. -/
def cell (scene : Box α d) (p : Point α d) (i : Fin d) : Nat :=
  let cells := Nat.pow 2 (bitsPerAxis d)
  let span := scene.upper.get i - scene.lower.get i
  let t := if Coord.zero < span then Coord.clampUnit ((p.get i - scene.lower.get i) / span)
    else Coord.zero
  min (Coord.whole (t * Coord.ofNat cells)) (cells - 1)

def interleaveCells {d : Nat} (cells : Vector UInt64 d) : UInt64 :=
  if h : d = 3 then
    interleave3 (cells.get ⟨0, by omega⟩) (cells.get ⟨1, by omega⟩) (cells.get ⟨2, by omega⟩)
  else interleave cells (bitsPerAxis d)

def key (scene : Box α d) (p : Point α d) : UInt64 :=
  interleaveCells (Vector.ofFn fun i => UInt64.ofNat (cell scene p i))

end Vicinity.Morton
