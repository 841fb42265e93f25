import Mathlib
import Vicinity.Proofs.Group.Composition

/-!
# Orderly processes

A process is orderly when it never leaves and ends at once when a receive runs
out of time. All operations of a group are, whatever their arguments and
whatever they receive, and so is every program made of them.
-/

set_option autoImplicit false

namespace Vicinity

namespace Proc

variable {n : Nat} {α β : Type}

/-- A process that never leaves. Its value satisfies `holds none`, and
`holds (some peer)` where it ends because `peer` sent nothing in time. -/
def Orderly (holds : Option (Fin n) → α → Prop) : Proc n α → Prop
  | done value => holds none value
  | send _ _ next => ∀ result, Prompt result → (next result).Orderly holds
  | receive source _ next =>
    (∃ value, next (.error (.timeout source)) = .done value ∧ holds (some source) value) ∧
      ∀ result, Prompt result → (next result).Orderly holds
  | note _ next => next.Orderly holds
  | awaitLeft _ _ => False
  | leave _ => False
  | abort => False

theorem Orderly.bind {holds : Option (Fin n) → α → Prop} {holds' : Option (Fin n) → β → Prop}
    {p : Proc n α} {f : α → Proc n β} (hp : p.Orderly holds)
    (hdone : ∀ value, holds none value → (f value).Orderly holds')
    (hlate : ∀ peer value, holds (some peer) value →
      ∃ value', f value = .done value' ∧ holds' (some peer) value') :
    (p.bind f).Orderly holds' := by
  induction p with
  | done value => exact hdone value hp
  | send dest letter next ih => exact fun result hr => ih result (hp result hr)
  | receive source tag next ih =>
    obtain ⟨⟨value, hnext, hvalue⟩, hrest⟩ := hp
    obtain ⟨value', hf, hvalue'⟩ := hlate source value hvalue
    exact ⟨⟨value', (congrArg (Proc.bind · f) hnext).trans hf, hvalue'⟩,
      fun result hr => ih result (hrest result hr)⟩
  | note event next ih => exact ih hp
  | awaitLeft peer next => exact hp
  | leave next => exact hp
  | abort => exact hp

end Proc

namespace Routine

variable {n : Nat} {τ : Type}

def Ends : Option (Fin n) → Except CommError τ → Prop
  | none, result => Prompt result
  | some peer, result => result = .error (.timeout peer)

def Orderly (r : Routine n CommError τ) : Prop := r.run.Orderly Ends

namespace Orderly

theorem compositional : Compositional (fun e => e.isTimeout = false) (@Orderly n) where
  pure value := Prompt.ok value
  throw he := Prompt.error he
  bind {τ σ r f} hr hf := by
    apply Proc.Orderly.bind hr
    · intro result hresult
      cases result with
      | ok value => exact hf value
      | error e => exact Prompt.error (hresult e rfl)
    · intro peer result hresult
      cases hresult
      exact ⟨_, rfl, rfl⟩

theorem conversational : Conversational (fun _ => True) (@Orderly n) where
  toCompositional := compositional
  tags_of_ne _ := trivial
  send _ _ _ _ := fun _ h => h
  receive source _ := ⟨⟨.error (.timeout source), rfl, rfl⟩, fun _ h => h⟩

theorem barrier (me : Fin n) : Orderly (Routine.barrier me) :=
  conversational.barrier trivial (fun _ => Prompt.ok ()) me

end Orderly

end Routine

end Vicinity
