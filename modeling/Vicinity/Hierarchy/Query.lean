import Vicinity.Hierarchy.Basic
import Vicinity.Memory

/-!
# Questions to a hierarchy

Overlap, distance and nearest neighbours. A subtree is left out when its box
already fails the test, which is sound because a branch box holds every box
below it. Of neighbours at the same distance the one with the smaller id
comes first. Room for the nearest is set aside before the search, and a count
for which no memory has room is refused.
-/

set_option autoImplicit false

namespace Vicinity

inductive QueryFault where
  | capacity
  deriving DecidableEq, Repr

def QueryFault.message : QueryFault → String
  | .capacity => "capacity overflow"

structure Neighbor (α ι : Type) where
  distance : α
  id : ι

namespace Neighbor

variable {α ι : Type} [Coord α] [Ord ι]

def before (a b : Neighbor α ι) : Bool :=
  decide (a.distance < b.distance) ||
    (!decide (b.distance < a.distance) && compare a.id b.id == .lt)

def insert (a : Neighbor α ι) : List (Neighbor α ι) → List (Neighbor α ι)
  | [] => [a]
  | b :: bs => if a.before b then a :: b :: bs else b :: insert a bs

/-- Whether the `k` best and one more can be held, at 16 bytes each: a distance
and an id of 1 to 8 bytes. -/
def hasRoom (k : Nat) : Bool := Memory.hasRoom (Memory.word (k + 1)) 16

def offer (k : Nat) (a : Neighbor α ι) (best : List (Neighbor α ι)) : List (Neighbor α ι) :=
  (insert a best).take k

end Neighbor

namespace Hierarchy

variable {α ι : Type} {d : Nat} [Coord α]

def collect (nodes : Array (Node α ι d)) (keep : Box α d → Bool) : Nat → Nat → List ι
  | 0, _ => []
  | depth + 1, i =>
    match nodes[i]? with
    | none => []
    | some node =>
      if keep node.box then
        match node.kind with
        | .leaf id => [id]
        | .branch left right => collect nodes keep depth left ++ collect nodes keep depth right
      else []

def collectWhere (h : Hierarchy α ι d) (keep : Box α d → Bool) : List ι :=
  collect h.nodes keep h.nodes.size 0

def query (h : Hierarchy α ι d) (box : Box α d) : List ι :=
  h.collectWhere fun b => b.meets box

def withinDistance (h : Hierarchy α ι d) (p : Point α d) (radius : α) : List ι :=
  h.collectWhere fun b => decide (b.distanceSquared p ≤ radius * radius)

variable [Ord ι]

/-- No item at distance `lower` or beyond can still be among the `k` best. -/
def hopeless (k : Nat) (lower : α) (best : List (Neighbor α ι)) : Bool :=
  match best.getLast? with
  | none => false
  | some worst => best.length == k && decide (worst.distance < lower)

def nearestBelow (nodes : Array (Node α ι d)) (p : Point α d) (k : Nat) :
    Nat → Nat → List (Neighbor α ι) → List (Neighbor α ι)
  | 0, _, best => best
  | depth + 1, i, best =>
    match nodes[i]? with
    | none => best
    | some node =>
      let lower := node.box.distanceSquared p
      if hopeless k lower best then best
      else match node.kind with
        | .leaf id => Neighbor.offer k ⟨lower, id⟩ best
        | .branch left right =>
          match nodes[left]?, nodes[right]? with
          | some l, some r =>
            if l.box.distanceSquared p ≤ r.box.distanceSquared p then
              nearestBelow nodes p k depth right (nearestBelow nodes p k depth left best)
            else
              nearestBelow nodes p k depth left (nearestBelow nodes p k depth right best)
          | _, _ => best

def closest (h : Hierarchy α ι d) (p : Point α d) (k : Nat) : List (Neighbor α ι) :=
  nearestBelow h.nodes p k h.nodes.size 0 []

def nearestWithDistance (h : Hierarchy α ι d) (p : Point α d) (k : Nat) :
    Except QueryFault (List (Neighbor α ι)) :=
  if h.isEmpty || k = 0 || Neighbor.hasRoom k then .ok (h.closest p k)
  else .error .capacity

def nearest (h : Hierarchy α ι d) (p : Point α d) (k : Nat) : Except QueryFault (List ι) :=
  (h.nearestWithDistance p k).map fun found => found.map (·.id)

end Hierarchy

end Vicinity
