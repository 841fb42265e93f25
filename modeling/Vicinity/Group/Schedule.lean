import Vicinity.Group.Process

/-!
# Running a group

The ranks of a group with one channel for each ordered pair. A rank can step
on its own whenever it is not waiting; `step?` is that one step, and every
interleaving is a choice of a rank for each step. `run` lets the lowest rank
that can step go first until none can. It ends because a step replaces one
program by a part of it.
-/

set_option autoImplicit false

namespace Vicinity

structure Network (n : Nat) (α : Type) where
  programs : Vector (Proc n α) n
  /-- The letters under way, by source and then by destination, oldest first. -/
  channels : Vector (Vector (List Envelope) n) n
  left : Vector Bool n
  journals : Vector (List Event) n

namespace Proc

variable {n : Nat} {α : Type}

inductive Part : Proc n α → Proc n α → Prop where
  | send (dest letter next r) : Part (next r) (.send dest letter next)
  | receive (source tag next r) : Part (next r) (.receive source tag next)
  | awaitLeft (peer next) : Part next (.awaitLeft peer next)
  | leave (next) : Part next (.leave next)
  | note (event next) : Part next (.note event next)

theorem part_acc (p : Proc n α) : Acc Part p := by
  induction p with
  | done => exact ⟨_, fun _ h => nomatch h⟩
  | send _ _ _ ih => exact ⟨_, fun _ h => by cases h; exact ih _⟩
  | receive _ _ _ ih => exact ⟨_, fun _ h => by cases h; exact ih _⟩
  | awaitLeft _ _ ih => exact ⟨_, fun _ h => by cases h; exact ih⟩
  | leave _ ih => exact ⟨_, fun _ h => by cases h; exact ih⟩
  | note _ _ ih => exact ⟨_, fun _ h => by cases h; exact ih⟩
  | abort => exact ⟨_, fun _ h => nomatch h⟩

inductive Advanced : List (Proc n α) → List (Proc n α) → Prop where
  | here {p q} (rest) : Part q p → Advanced (q :: rest) (p :: rest)
  | there (p) {rest rest'} : Advanced rest' rest → Advanced (p :: rest') (p :: rest)

theorem advanced_acc_cons {p : Proc n α} {ps : List (Proc n α)} (hp : Acc Part p)
    (hps : Acc Advanced ps) : Acc Advanced (p :: ps) := by
  induction hp generalizing ps with
  | intro p _ ihp =>
    induction hps with
    | intro ps hacc ihps =>
      refine ⟨_, fun _ h => ?_⟩
      cases h with
      | here _ hq => exact ihp _ hq ⟨_, hacc⟩
      | there _ hrest => exact ihps _ hrest

theorem advanced_acc : ∀ ps : List (Proc n α), Acc Advanced ps
  | [] => ⟨_, fun _ h => nomatch h⟩
  | p :: ps => advanced_acc_cons (part_acc p) (advanced_acc ps)

theorem advanced_wf : WellFounded (Advanced (n := n) (α := α)) := ⟨advanced_acc⟩

theorem advanced_set (ps : List (Proc n α)) (i : Nat) (h : i < ps.length) {q : Proc n α}
    (hq : Part q ps[i]) : Advanced (ps.set i q) ps := by
  induction ps generalizing i with
  | nil => simp at h
  | cons p ps ih =>
    cases i with
    | zero => exact .here _ hq
    | succ i => exact .there _ (ih i (by simpa using h) (by simpa using hq))

end Proc

namespace Network

variable {n : Nat} {α : Type}

def start (programs : Fin n → Proc n α) : Network n α where
  programs := Vector.ofFn programs
  channels := Vector.replicate n (Vector.replicate n [])
  left := Vector.replicate n false
  journals := Vector.replicate n []

def channel (g : Network n α) (source dest : Fin n) : List Envelope := (g.channels.get source).get dest

def setChannel (g : Network n α) (source dest : Fin n) (letters : List Envelope) : Network n α :=
  { g with
    channels :=
      g.channels.set source ((g.channels.get source).set dest letters dest.isLt) source.isLt }

def setProgram (g : Network n α) (r : Fin n) (p : Proc n α) : Network n α :=
  { g with programs := g.programs.set r p r.isLt }

/-- The step of one rank, if it can take one. A letter with the wrong tag is
consumed. From a rank that has left, what it had sent is still received. -/
def step? (g : Network n α) (r : Fin n) : Option (Network n α) :=
  match g.programs.get r with
  | .done _ => none
  | .abort => none
  | .send dest letter next =>
    if g.left.get dest then some (g.setProgram r (next (.error (.disconnected dest))))
    else some ((g.setChannel r dest (g.channel r dest ++ [letter])).setProgram r (next (.ok ())))
  | .receive source tag next =>
    match g.channel source r with
    | letter :: rest =>
      let result :=
        if letter.tag = tag then .ok letter.payload
        else .error (.tagMismatch source tag letter.tag)
      some ((g.setChannel source r rest).setProgram r (next result))
    | [] =>
      if g.left.get source then some (g.setProgram r (next (.error (.disconnected source))))
      else none
  | .awaitLeft peer next => if g.left.get peer then some (g.setProgram r next) else none
  | .leave next => some ({ g with left := g.left.set r true r.isLt }.setProgram r next)
  | .note event next =>
    some ({ g with journals := g.journals.set r (g.journals.get r ++ [event]) r.isLt }.setProgram r next)

theorem step?_advanced {g g' : Network n α} {r : Fin n} (h : g.step? r = some g') :
    Proc.Advanced g'.programs.toList g.programs.toList := by
  have key : ∀ q, Proc.Part q (g.programs.get r) →
      Proc.Advanced (g.programs.set r q r.isLt).toList g.programs.toList := by
    intro q hq
    rw [Vector.toList_set]
    exact Proc.advanced_set _ _ (by simp) (by rw [Vector.getElem_toList]; exact hq)
  unfold step? at h
  split at h
  · cases h
  · cases h
  · rename_i dest letter next hp
    have hq := fun x => key (next x) (hp ▸ .send dest letter next x)
    split at h <;> cases h <;> exact hq _
  · rename_i source tag next hp
    have hq := fun x => key (next x) (hp ▸ .receive source tag next x)
    split at h
    · cases h
      exact hq _
    · split at h
      · cases h
        exact hq _
      · cases h
  · rename_i peer next hp
    split at h
    · cases h
      exact key _ (hp ▸ .awaitLeft peer next)
    · cases h
  · rename_i next hp
    cases h
    exact key _ (hp ▸ .leave next)
  · rename_i event next hp
    cases h
    exact key _ (hp ▸ .note event next)

def next? (g : Network n α) : Option (Network n α) := (List.finRange n).findSome? g.step?

theorem next?_advanced {g g' : Network n α} (h : g.next? = some g') :
    Proc.Advanced g'.programs.toList g.programs.toList := by
  obtain ⟨_, r, _, _, hr, _⟩ := List.findSome?_eq_some_iff.1 h
  exact step?_advanced hr

def run (g : Network n α) : Network n α :=
  match _h : g.next? with
  | none => g
  | some g' => run g'
termination_by Proc.advanced_wf.wrap g.programs.toList
decreasing_by exact next?_advanced ‹_›

def expire (g : Network n α) : Network n α :=
  { g with programs := g.programs.map fun
      | .receive source _ next => next (.error (.timeout source))
      | p => p }

def aborted? (g : Network n α) : Option (Fin n) :=
  (List.finRange n).find? fun r =>
    match g.programs.get r with
    | .abort => true
    | _ => false

def results (g : Network n α) : Except CommError (List (Option α)) :=
  match g.aborted? with
  | some r => .error (.rankPanicked r)
  | none => .ok (g.programs.toList.map Proc.value?)

end Network

inductive GroupFault where
  | noRanks
  deriving DecidableEq, Repr

def GroupFault.message : GroupFault → String
  | .noRanks => "a process group needs at least one rank"

def runGroup {α : Type} (n : Nat) (programs : Fin n → Proc n α) :
    Except GroupFault (Except CommError (List (Option α))) :=
  if n = 0 then .error .noRanks
  else .ok (Network.start programs).run.expire.results

end Vicinity
