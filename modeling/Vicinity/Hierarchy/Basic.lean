import Vicinity.Morton
import Vicinity.Hierarchy.Radix

/-!
# Bounding volume hierarchies

A binary tree over boxes, kept in one arena: with `n` items the branches stand
at positions below `n - 1`, the leaves after them in key order, and the root
at position 0. Branch boxes are filled in from the leaves up: of the two walks
that reach a branch the first stops there, and the second finds both children
final and goes on.
-/

set_option autoImplicit false

namespace Vicinity

inductive IndexError where
  | invalidVolume (position : Nat)
  deriving DecidableEq, Repr

def IndexError.message : IndexError → String
  | .invalidVolume position =>
    "bounding volume at position " ++ toString position ++ " is malformed (NaN or inverted)"

inductive NodeKind (ι : Type) where
  | leaf (id : ι)
  | branch (left right : Nat)

structure Node (α ι : Type) (d : Nat) where
  box : Box α d
  kind : NodeKind ι

structure Hierarchy (α ι : Type) (d : Nat) where
  nodes : Array (Node α ι d)

namespace Hierarchy

variable {α ι : Type} {d : Nat} [Coord α]

def empty : Hierarchy α ι d := ⟨#[]⟩

/-- Keys with the positions of their items, ascending; the position decides
between equal keys. -/
def keyed (scene : Box α d) (boxes : List (Box α d)) : List (UInt64 × Nat) :=
  (boxes.zipIdx.map fun (b, i) => (Morton.key scene b.centroid, i)).mergeSort
    fun a b => decide (a.1 < b.1) || (a.1 == b.1 && decide (a.2 ≤ b.2))

def parents (links : Array (Nat × Nat)) : Array (Option Nat) :=
  links.zipIdx.foldl
    (fun ps ((left, right), i) => (ps.setIfInBounds left (some i)).setIfInBounds right (some i))
    (Array.replicate (2 * links.size + 1) none)

/-- One walk towards the root. A branch that was not visited is marked and ends
the walk; a visited one is complete and joins `order`. -/
def climb (parents : Array (Option Nat)) :
    Nat → Option Nat → Array Bool × List Nat → Array Bool × List Nat
  | 0, _, state => state
  | _, none, state => state
  | steps + 1, some i, (visited, order) =>
    if visited.getD i true then climb parents steps (parents.getD i none) (visited, i :: order)
    else (visited.setIfInBounds i true, order)

def refitOrder (links : Array (Nat × Nat)) : List Nat :=
  let ps := parents links
  let walk := fun state leaf =>
    climb ps (links.size + 1) (ps.getD (links.size + leaf) none) state
  ((List.range (links.size + 1)).foldl walk (Array.replicate links.size false, [])).2.reverse

def refitNode (nodes : Array (Node α ι d)) (i : Nat) : Array (Node α ι d) :=
  match nodes[i]? with
  | some ⟨_, .branch left right⟩ =>
    match nodes[left]?, nodes[right]? with
    | some l, some r => nodes.setIfInBounds i ⟨l.box.union r.box, .branch left right⟩
    | _, _ => nodes
  | _ => nodes

def refit (links : Array (Nat × Nat)) (nodes : Array (Node α ι d)) : Array (Node α ι d) :=
  (refitOrder links).foldl refitNode nodes

def arena (scene : Box α d) (links : Array (Nat × Nat)) (leaves : List (ι × Box α d)) :
    Array (Node α ι d) :=
  links.map (fun (left, right) => ⟨scene, .branch left right⟩) ++
    (leaves.map fun (id, box) => (⟨box, .leaf id⟩ : Node α ι d)).toArray

def build (items : List (ι × Box α d)) : Except IndexError (Hierarchy α ι d) :=
  match items.findIdx? fun item => !item.2.isValid with
  | some position => .error (.invalidVolume position)
  | none =>
    match Box.unionAll (items.map (·.2)) with
    | none => .ok empty
    | some scene =>
      let sorted := keyed scene (items.map (·.2))
      let keys := (sorted.map (·.1)).toArray
      let links := (Array.range (keys.size - 1)).map (Radix.children keys)
      let stored := items.toArray
      let leaves := sorted.filterMap fun (_, position) => stored[position]?
      .ok ⟨refit links (arena scene links leaves)⟩

def size (h : Hierarchy α ι d) : Nat := (h.nodes.size + 1) / 2

def isEmpty (h : Hierarchy α ι d) : Bool := h.nodes.isEmpty

def bounds (h : Hierarchy α ι d) : Option (Box α d) := h.nodes[0]?.map (·.box)

def describe (h : Hierarchy α ι d) : String :=
  "Bvh \x7b items: " ++ toString h.size ++ ", arena_nodes: " ++ toString h.nodes.size ++
    ", has_root: " ++ toString (!h.isEmpty) ++ ", .. \x7d"

end Hierarchy

end Vicinity
