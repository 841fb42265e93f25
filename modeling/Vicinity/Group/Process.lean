import Vicinity.Group.Error
import Vicinity.Memory

/-!
# The program of one rank

A process is a finite tree of what a rank does with its endpoint: it sends,
receives, waits for a peer to leave, leaves, or ends. What it does next may
depend on everything it has received. A process by itself runs nowhere; the
group gives it its channels.
-/

set_option autoImplicit false

namespace Vicinity

structure Envelope where
  tag : Tag
  payload : Payload
  deriving DecidableEq, Repr

inductive Event where
  | barrierEntered
  | barrierPassed
  deriving DecidableEq, Repr

inductive Proc (n : Nat) (α : Type) where
  | done (value : α)
  | send (dest : Fin n) (letter : Envelope) (next : Except CommError Unit → Proc n α)
  | receive (source : Fin n) (tag : Tag) (next : Except CommError Payload → Proc n α)
  | awaitLeft (peer : Fin n) (next : Proc n α)
  | leave (next : Proc n α)
  | note (event : Event) (next : Proc n α)
  | abort

namespace Proc

variable {n : Nat} {α β : Type}

def bind : Proc n α → (α → Proc n β) → Proc n β
  | done value, f => f value
  | send dest letter next, f => send dest letter fun r => (next r).bind f
  | receive source tag next, f => receive source tag fun r => (next r).bind f
  | awaitLeft peer next, f => awaitLeft peer (next.bind f)
  | leave next, f => leave (next.bind f)
  | note event next, f => note event (next.bind f)
  | abort, _ => abort

instance : Monad (Proc n) where
  pure := done
  bind := bind

theorem bind_done (p : Proc n α) : p.bind done = p := by
  induction p with
  | done value => rfl
  | send dest letter next ih => exact congrArg (send dest letter) (funext ih)
  | receive source tag next ih => exact congrArg (receive source tag) (funext ih)
  | awaitLeft peer next ih => exact congrArg (awaitLeft peer) ih
  | leave next ih => exact congrArg leave ih
  | note event next ih => exact congrArg (note event) ih
  | abort => rfl

theorem bind_assoc {γ : Type} (p : Proc n α) (f : α → Proc n β) (g : β → Proc n γ) :
    (p.bind f).bind g = p.bind fun value => (f value).bind g := by
  induction p with
  | done value => rfl
  | send dest letter next ih => exact congrArg (send dest letter) (funext ih)
  | receive source tag next ih => exact congrArg (receive source tag) (funext ih)
  | awaitLeft peer next ih => exact congrArg (awaitLeft peer) ih
  | leave next ih => exact congrArg leave ih
  | note event next ih => exact congrArg (note event) ih
  | abort => rfl

instance : LawfulMonad (Proc n) := LawfulMonad.mk' _ bind_done (fun _ _ => rfl) bind_assoc

def value? : Proc n α → Option α
  | done value => some value
  | _ => none

end Proc

abbrev Routine (n : Nat) (ε : Type) := ExceptT ε (Proc n)

namespace Routine

variable {n : Nat} {ε ε' α : Type}

def mapError (f : ε → ε') (r : Routine n ε α) : Routine n ε' α :=
  ExceptT.mk (r.run.bind fun
    | .ok value => .done (.ok value)
    | .error e => .done (.error (f e)))

def ofExcept : Except ε α → Routine n ε α
  | .ok value => pure value
  | .error e => throw e

def note (event : Event) : Routine n ε Unit := ExceptT.mk (.note event (.done (.ok ())))

/-- Breaks the rank off, which closes its endpoint. -/
def abort : Routine n ε α := ExceptT.mk (.leave .abort)

/-- Breaks off where a list of `count` elements of `width` bytes cannot exist,
as when a peer announced more than it has. -/
def requireRoom (count width : Nat) : Routine n ε Unit :=
  if Memory.hasRoom count width then pure () else abort

def orAbort : Except ε' α → Routine n ε α
  | .ok value => pure value
  | .error _ => abort

def rank (number : Nat) : Routine n CommError (Fin n) :=
  if h : number < n then pure ⟨number, h⟩ else throw (.invalidRank number n)

def send (dest : Fin n) (tag : Tag) (payload : Payload) : Routine n CommError Unit :=
  ExceptT.mk (.send dest ⟨tag, payload⟩ .done)

def receive (source : Fin n) (tag : Tag) : Routine n CommError Payload :=
  ExceptT.mk (.receive source tag .done)

section

variable {τ : Type} [Codec τ]

def sendValue (dest : Fin n) (tag : Tag) (value : τ) : Routine n CommError Unit :=
  send dest tag (Codec.encode value)

def readValue (payload : Payload) : Except CommError τ :=
  (Codec.read payload).mapError .codec

def receiveValue (source : Fin n) (tag : Tag) : Routine n CommError τ := do
  ofExcept (readValue (← receive source tag))

end

end Routine

end Vicinity
