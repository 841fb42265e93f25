import Mathlib
import Vicinity.Group.Routing

/-!
# Properties of composed routines

A property that a routine has where its parts have it also holds of loops. If it
moreover holds of sends and receives, it holds of every operation of a group,
whatever the arguments and whatever is received.
-/

set_option autoImplicit false

namespace Vicinity

/-- A result that does not come from waiting too long. -/
def Prompt {τ : Type} (result : Except CommError τ) : Prop :=
  ∀ e, result = .error e → e.isTimeout = false

namespace Prompt

variable {τ σ : Type}

theorem ok (value : τ) : Prompt (.ok value) := fun _ h => nomatch h

theorem error {e : CommError} (h : e.isTimeout = false) :
    Prompt (.error e : Except CommError τ) := by
  intro e' he
  cases he
  exact h

theorem bind {x : Except CommError τ} {f : τ → Except CommError σ} (hx : Prompt x)
    (hf : ∀ value, Prompt (f value)) : Prompt (x >>= f) := by
  cases x with
  | ok value => exact hf value
  | error e => exact error (hx e rfl)

theorem readValue [Codec τ] (payload : Payload) :
    Prompt (Routine.readValue payload : Except CommError τ) := by
  unfold Routine.readValue
  cases (Codec.read payload : Except CodecError τ) with
  | ok value => exact ok value
  | error fault => exact error rfl

theorem checked (count : Nat) (received : List τ) : Prompt (Plan.checked count received) := by
  unfold Plan.checked
  split
  · exact ok received
  · exact error rfl

end Prompt

namespace Intake

variable {n : Nat} {τ : Type}

def Prompt : Intake τ → Prop
  | ready value => Vicinity.Prompt value
  | awaited read => ∀ payload, Vicinity.Prompt (read payload)

/-- A rank's own value, and the letters of the others. -/
theorem prompt_ite {me source : Fin n} {own : Except CommError τ}
    {read : Payload → Except CommError τ} (hown : Vicinity.Prompt own)
    (hread : ∀ payload, Vicinity.Prompt (read payload)) :
    (if source = me then ready own else awaited read).Prompt := by
  split
  · exact hown
  · exact hread

end Intake

theorem Plan.intake_prompt {n : Nat} {τ : Type} [Codec τ] (p : Plan n) (values : List τ)
    (source : Fin n) : (p.intake values source).Prompt := by
  unfold intake
  simp only
  split
  · exact Prompt.ok []
  · exact Intake.prompt_ite (.checked _ _) fun payload =>
      (Prompt.readValue payload).bind (.checked _)

namespace Routine

variable {n : Nat}

section

variable {ε ι τ σ : Type}

/-- A property that a routine has where its parts have it. A routine that only
fails has it at least where its error `fails`. -/
structure Compositional (fails : ε → Prop) (P : (τ : Type) → Routine n ε τ → Prop) : Prop where
  pure : ∀ {τ : Type} (value : τ), P τ (Pure.pure value)
  throw : ∀ {τ : Type} {e : ε}, fails e → P τ (MonadExcept.throw e)
  bind : ∀ {τ σ : Type} {r : Routine n ε τ} {f : τ → Routine n ε σ},
    P τ r → (∀ value, P σ (f value)) → P σ (r >>= f)

namespace Compositional

variable {fails : ε → Prop} {P : (τ : Type) → Routine n ε τ → Prop}

theorem mono (h : Compositional fails P) {fails' : ε → Prop} (hfails : ∀ e, fails' e → fails e) :
    Compositional fails' P where
  pure := h.pure
  throw he := h.throw (hfails _ he)
  bind := h.bind

theorem map (h : Compositional fails P) (f : τ → σ) {r : Routine n ε τ} (hr : P τ r) :
    P σ (f <$> r) := by
  rw [← bind_pure_comp]
  exact h.bind hr fun value => h.pure (f value)

theorem ofExcept (h : Compositional fails P) {result : Except ε τ}
    (hresult : ∀ e, result = .error e → fails e) : P τ (Routine.ofExcept result) := by
  cases result with
  | ok value => exact h.pure value
  | error e => exact h.throw (hresult e rfl)

theorem guarded (h : Compositional fails P) {c : Prop} [Decidable c] {e : ε} (he : fails e)
    {r : Routine n ε τ} (hr : P τ r) : P τ (do
      if c then MonadExcept.throw e
      r) := by
  split
  · exact h.bind (h.throw he) fun _ => hr
  · exact hr

theorem forM (h : Compositional fails P) {f : ι → Routine n ε Unit} (xs : List ι)
    (hf : ∀ x, P Unit (f x)) : P Unit (xs.forM f) := by
  induction xs with
  | nil => exact h.pure ()
  | cons x xs ih => exact h.bind (hf x) fun _ => ih

theorem mapM (h : Compositional fails P) {f : ι → Routine n ε τ} (xs : List ι)
    (hf : ∀ x, P τ (f x)) : P (List τ) (xs.mapM f) := by
  induction xs with
  | nil =>
    rw [List.mapM_nil]
    exact h.pure []
  | cons x xs ih =>
    rw [List.mapM_cons]
    exact h.bind (hf x) fun y => h.bind ih fun ys => h.pure (y :: ys)

end Compositional

end

/-- A property that also holds of every receive and of every send with one of
the `tags`, among them all but perhaps that of barriers. -/
structure Conversational (tags : Tag → Prop) (P : (τ : Type) → Routine n CommError τ → Prop) : Prop
    extends Compositional (fun e => e.isTimeout = false) P where
  tags_of_ne : ∀ {tag : Tag}, tag ≠ Tag.barrier → tags tag
  send : ∀ (dest : Fin n) {tag : Tag} (payload : Payload), tags tag →
    P Unit (Routine.send dest tag payload)
  receive : ∀ (source : Fin n) (tag : Tag), P Payload (Routine.receive source tag)

namespace Conversational

variable {tags : Tag → Prop} {P : (τ : Type) → Routine n CommError τ → Prop} {τ : Type}

theorem rank (h : Conversational tags P) (number : Nat) : P (Fin n) (Routine.rank number) := by
  unfold Routine.rank
  split
  · exact h.pure _
  · exact h.throw rfl

theorem receiveValue [Codec τ] (h : Conversational tags P) (source : Fin n) (tag : Tag) :
    P τ (Routine.receiveValue source tag) :=
  h.bind (h.receive source tag) fun payload => h.ofExcept (Prompt.readValue payload)

theorem takeIn (h : Conversational tags P) (tag : Tag) (source : Fin n) {intake : Intake τ}
    (hintake : intake.Prompt) : P τ (Routine.takeIn tag source intake) := by
  cases intake with
  | ready value => exact h.ofExcept hintake
  | awaited read =>
    exact h.bind (h.receive source tag) fun payload => h.ofExcept (hintake payload)

theorem round (h : Conversational tags P) (me : Fin n) {tag : Tag} (htag : tags tag)
    (outgoing : Fin n → Option Payload) {intake : Fin n → Intake τ}
    (hintake : ∀ source, (intake source).Prompt) :
    P (List τ) (Routine.round me tag outgoing intake) := by
  apply h.bind
  · apply h.forM
    intro dest
    cases outgoing dest with
    | none => exact h.pure ()
    | some payload => exact h.send dest payload htag
  · intro _
    apply h.bind (h.pure ())
    intro _
    apply h.mapM
    intro source
    exact h.takeIn tag source (hintake source)

theorem barrier (h : Conversational tags P) (htag : tags Tag.barrier)
    (hnote : ∀ event, P Unit (Routine.note event)) (me : Fin n) :
    P Unit (Routine.barrier me) := by
  apply h.bind (hnote _)
  intro _
  apply h.bind
  · apply h.map
    apply h.round me htag
    intro source
    exact Intake.prompt_ite (.ok ()) fun _ => .ok ()
  · intro _
    exact hnote _

theorem exchangeCounts (h : Conversational tags P) (me : Fin n) (counts : List Nat) :
    P (List Nat) (Routine.exchangeCounts me counts) := by
  apply h.guarded
  · rfl
  · apply h.round me (h.tags_of_ne (by decide))
    intro source
    exact Intake.prompt_ite (.ok _) .readValue

theorem plan (h : Conversational tags P) (me : Fin n) (dests : List Nat) :
    P (Plan n) (Plan.build me dests) :=
  h.bind (h.mapM dests h.rank) fun _ => h.bind (h.exchangeCounts me _) fun _ => h.pure _

theorem routing {ι : Type} (h : Conversational tags P) (me : Fin n) (items : List ι)
    (dests : ι → List Nat) : P (Routing n) (Routing.build me items dests) :=
  h.bind (h.plan me _) fun _ => h.pure _

variable [Codec τ]

theorem allGather (h : Conversational tags P) (me : Fin n) (value : τ) :
    P (List τ) (Routine.allGather me value) :=
  h.round me (h.tags_of_ne (by decide)) _ fun _ => Intake.prompt_ite (.ok value) .readValue

theorem allReduce (h : Conversational tags P) (me : Fin n) (value : τ) (combine : τ → τ → τ) :
    P τ (Routine.allReduce me value combine) := by
  apply h.bind (h.allGather me value)
  intro values
  cases values with
  | nil => exact h.pure value
  | cons first rest => exact h.pure _

theorem distribute (h : Conversational tags P) (p : Plan n) (values : List τ) :
    P (List τ) (p.distribute values) := by
  apply h.guarded
  · rfl
  · apply h.map
    exact h.round p.me (h.tags_of_ne (by decide)) _ (p.intake_prompt values)

theorem distributeRouting (h : Conversational tags P) (routing : Routing n) (values : List τ) :
    P (List τ) (routing.distribute values) := by
  apply h.guarded
  · rfl
  · exact h.distribute routing.plan _

end Conversational

end Routine

end Vicinity
