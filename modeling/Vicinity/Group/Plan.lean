import Vicinity.Group.Collective

/-!
# Exchange plans

A plan fixes for each local item the rank it goes to and can then carry any
number of payloads along. What a rank receives is grouped by source in rank
order, and within a source keeps the order the source had.
-/

set_option autoImplicit false

namespace Vicinity

structure Plan (n : Nat) where
  me : Fin n
  /-- The positions of the local items by destination and, for one destination,
  in item order. -/
  order : List Nat
  /-- How many items go to every rank. -/
  exportCounts : List Nat
  importCounts : List Nat

namespace Plan

variable {n : Nat}

/-- The positions of items sorted by where they go. The sort is stable. -/
def orderOf (targets : List (Fin n)) : List Nat :=
  (targets.zipIdx.mergeSort fun a b => decide (a.1 ≤ b.1)).map (·.2)

def build (me : Fin n) (dests : List Nat) : Routine n CommError (Plan n) := do
  let targets ← dests.mapM Routine.rank
  let exportCounts := (List.finRange n).map fun r => targets.count r
  let importCounts ← Routine.exchangeCounts me exportCounts
  pure ⟨me, orderOf targets, exportCounts, importCounts⟩

def numExports (p : Plan n) : Nat := p.order.length

def numImports (p : Plan n) : Nat := p.importCounts.foldr (· + ·) 0

def exportCount (p : Plan n) (dest : Fin n) : Nat := p.exportCounts.getD dest 0

def importCount (p : Plan n) (source : Fin n) : Nat := p.importCounts.getD source 0

def offset (p : Plan n) (dest : Fin n) : Nat :=
  (p.exportCounts.take dest).foldr (· + ·) 0

def importRanks (p : Plan n) : List (Fin n) :=
  (List.finRange n).flatMap fun source => List.replicate (p.importCount source) source

variable {τ : Type}

def batch (p : Plan n) (values : List τ) (dest : Fin n) : List τ :=
  let stored := values.toArray
  ((p.order.drop (p.offset dest)).take (p.exportCount dest)).filterMap fun i => stored[i]?

def checked (count : Nat) (received : List τ) : Except CommError (List τ) :=
  if received.length = count then .ok received
  else .error (.lengthMismatch count received.length)

def intake [Codec τ] (p : Plan n) (values : List τ) (source : Fin n) : Intake (List τ) :=
  let count := p.importCount source
  if count = 0 then .ready (.ok [])
  else if source = p.me then .ready (checked count (p.batch values p.me))
  else .awaited fun payload => Routine.readValue payload >>= checked count

/-- Carries one value for each item along the plan, and does something between
sending and taking in. Ranks between which no item goes exchange no letter. -/
def distributeWith [Codec τ] (pause : Routine n CommError Unit) (p : Plan n) (values : List τ) :
    Routine n CommError (List τ) := do
  if values.length ≠ p.numExports then throw (.lengthMismatch p.numExports values.length)
  let outgoing (dest : Fin n) :=
    if p.exportCount dest = 0 then none else some (Codec.encode (p.batch values dest))
  List.flatten <$> Routine.roundWith pause p.me Tag.distribute outgoing (p.intake values)

/-- A distribution whose imports have room, as those of all plans that ranks
make together. -/
def distribute [Codec τ] (p : Plan n) (values : List τ) : Routine n CommError (List τ) :=
  p.distributeWith (pure ()) values

/-- A distribution that sets room aside for its imports, of `width` bytes each. -/
def distributeInRoom [Codec τ] (width : Nat) (p : Plan n) (values : List τ) :
    Routine n CommError (List τ) :=
  p.distributeWith (Routine.requireRoom (Memory.word p.numImports) width) values

end Plan

end Vicinity
