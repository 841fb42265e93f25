import Vicinity.Group.Process

/-!
# Collectives

Operations that every rank of a group calls in the same order, also a rank with
nothing to contribute. Each is one round: a rank first sends in rank order to
the others it has something for, and then takes in from every rank in rank
order. Its own part never travels.
-/

set_option autoImplicit false

namespace Vicinity

def others {n : Nat} (me : Fin n) : List (Fin n) := (List.finRange n).filter (· ≠ me)

inductive Intake (τ : Type) where
  | ready (value : Except CommError τ)
  | awaited (read : Payload → Except CommError τ)

namespace Routine

variable {n : Nat} {τ : Type}

def takeIn (tag : Tag) (source : Fin n) : Intake τ → Routine n CommError τ
  | .ready value => ofExcept value
  | .awaited read => do ofExcept (read (← receive source tag))

/-- One round of letters with the same tag: a rank sends, does something of its
own, and takes in. The first failure ends it. -/
def roundWith (pause : Routine n CommError Unit) (me : Fin n) (tag : Tag)
    (outgoing : Fin n → Option Payload) (intake : Fin n → Intake τ) :
    Routine n CommError (List τ) := do
  (others me).forM fun dest =>
    match outgoing dest with
    | none => pure ()
    | some payload => send dest tag payload
  pause
  (List.finRange n).mapM fun source => takeIn tag source (intake source)

def round (me : Fin n) (tag : Tag) (outgoing : Fin n → Option Payload)
    (intake : Fin n → Intake τ) : Routine n CommError (List τ) :=
  roundWith (pure ()) me tag outgoing intake

def barrier (me : Fin n) : Routine n CommError Unit := do
  note .barrierEntered
  discard (round me Tag.barrier (fun _ => some []) fun source =>
    if source = me then .ready (.ok ()) else .awaited fun _ => .ok ())
  note .barrierPassed

variable [Codec τ]

def allGather (me : Fin n) (value : τ) : Routine n CommError (List τ) :=
  round me Tag.gather (fun _ => some (Codec.encode value)) fun source =>
    if source = me then .ready (.ok value) else .awaited readValue

def allReduce (me : Fin n) (value : τ) (combine : τ → τ → τ) : Routine n CommError τ := do
  match ← allGather me value with
  | [] => pure value
  | first :: rest => pure (rest.foldl combine first)

/-- What every rank counts for this one, by rank, where `counts` holds what
this rank counts for every other. -/
def exchangeCounts (me : Fin n) (counts : List Nat) : Routine n CommError (List Nat) := do
  if counts.length ≠ n then throw (.lengthMismatch n counts.length)
  let count (r : Fin n) := counts.getD r 0
  round me Tag.counts (fun dest => some (Codec.encode (count dest))) fun source =>
    if source = me then .ready (.ok (count me)) else .awaited readValue

end Routine

end Vicinity
