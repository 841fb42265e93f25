import Vicinity.Group.Plan

/-!
# Routing items to several ranks

A routing sends each local item to every rank that it may concern. It is a plan
over the pairs of an item and a destination, in item order, and carries one
value for each item to all destinations of the item.
-/

set_option autoImplicit false

namespace Vicinity

structure Routing (n : Nat) where
  plan : Plan n
  /-- The item of every pair. -/
  exports : List Nat
  numItems : Nat

namespace Routing

variable {n : Nat}

def build {ι : Type} (me : Fin n) (items : List ι) (dests : ι → List Nat) :
    Routine n CommError (Routing n) := do
  let pairs := items.zipIdx.flatMap fun (item, i) => (dests item).map fun dest => (i, dest)
  let plan ← Plan.build me (pairs.map (·.2))
  pure ⟨plan, pairs.map (·.1), items.length⟩

def numExports (r : Routing n) : Nat := r.exports.length

def numImports (r : Routing n) : Nat := r.plan.numImports

def importRanks (r : Routing n) : List (Fin n) := r.plan.importRanks

def distributeWith {τ : Type} [Codec τ] (pause : Routine n CommError Unit) (r : Routing n)
    (values : List τ) : Routine n CommError (List τ) := do
  if values.length ≠ r.numItems then throw (.lengthMismatch r.numItems values.length)
  let stored := values.toArray
  r.plan.distributeWith pause (r.exports.filterMap fun i => stored[i]?)

def distribute {τ : Type} [Codec τ] (r : Routing n) (values : List τ) :
    Routine n CommError (List τ) := r.distributeWith (pure ()) values

def distributeInRoom {τ : Type} [Codec τ] (width : Nat) (r : Routing n) (values : List τ) :
    Routine n CommError (List τ) :=
  r.distributeWith (Routine.requireRoom (Memory.word r.numImports) width) values

section

variable {α : Type} [Coord α] [Codec α]

def gatherBoxes (me : Fin n) (box : Option (Box α 3)) :
    Routine n CommError (List (Option (Box α 3))) :=
  Routine.allGather me box

def globalBox (me : Fin n) (box : Option (Box α 3)) : Routine n CommError (Option (Box α 3)) := do
  pure (Box.unionAll ((← gatherBoxes me box).filterMap id))

def ranksWhere (boxes : List (Option (Box α 3))) (test : Box α 3 → Bool) : List Nat :=
  boxes.zipIdx.filterMap fun (box, r) => if box.any test then some r else none

def ofQueryBoxes (me : Fin n) (queries : List (Box α 3)) (peers : List (Option (Box α 3))) :
    Routine n CommError (Routing n) :=
  build me queries fun query => ranksWhere peers fun peer => peer.meets query

def towardTargets (me : Fin n) (sources targets : List (Point α 3)) (proximity : α) :
    Routine n CommError (Routing n) := do
  let near := (Box.ofPoints targets).map fun box => box.expanded proximity
  let regions ← gatherBoxes me near
  build me sources fun source => ranksWhere regions fun region => region.contains source

def ofCenters (me : Fin n) (sources targets : List (Point α 3)) (proximity : α) :
    Routine n CommError (Routing n × List (Point α 3)) := do
  let routing ← towardTargets me sources targets proximity
  let imported ← routing.distribute sources
  pure (routing, imported)

end

end Routing

end Vicinity
