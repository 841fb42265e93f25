import Mathlib
import Vicinity.Proofs.Group.Barrier
import Vicinity.Proofs.Group.Delivery
import Vicinity.Proofs.Group.Orderly

/-!
# What a process can end with

A postcondition of a process holds of every value that it can end with, whatever
its peers send it and whatever fails on the way. In any run of any group it then
holds of the value with which the rank ends. What comes along a plan is one
batch from every rank, as long as announced.
-/

set_option autoImplicit false

namespace Vicinity

variable {n : Nat} {α β : Type}

namespace Proc

def Returns (post : α → Prop) : Proc n α → Prop
  | done value => post value
  | send _ _ next => ∀ result, (next result).Returns post
  | receive _ _ next => ∀ result, (next result).Returns post
  | awaitLeft _ next => next.Returns post
  | leave next => next.Returns post
  | note _ next => next.Returns post
  | abort => True

theorem Returns.bind {post : α → Prop} {post' : β → Prop} {p : Proc n α} {f : α → Proc n β}
    (hp : p.Returns post) (hf : ∀ value, post value → (f value).Returns post') :
    (p.bind f).Returns post' := by
  induction p with
  | done value => exact hf value hp
  | send dest letter next ih => exact fun result => ih result (hp result)
  | receive source tag next ih => exact fun result => ih result (hp result)
  | awaitLeft peer next ih => exact ih hp
  | leave next ih => exact ih hp
  | note event next ih => exact ih hp
  | abort => trivial

theorem Returns.mono {post post' : α → Prop} {p : Proc n α} (hp : p.Returns post)
    (h : ∀ value, post value → post' value) : p.Returns post' := by
  rw [← p.bind_done]
  exact hp.bind h

theorem returns_any (p : Proc n α) : p.Returns fun _ => True := by
  induction p with
  | done value => trivial
  | send dest letter next ih => exact ih
  | receive source tag next ih => exact ih
  | awaitLeft peer next ih => exact ih
  | leave next ih => exact ih
  | note event next ih => exact ih
  | abort => trivial

theorem Returns.part {post : α → Prop} {p q : Proc n α} (hp : p.Returns post)
    (hq : Proc.Part q p) : q.Returns post := by
  cases hq with
  | send dest letter next result => exact hp result
  | receive source tag next result => exact hp result
  | awaitLeft peer next => exact hp
  | leave next => exact hp
  | note event next => exact hp

def Stays : Proc n α → Prop
  | done _ => True
  | send _ _ next => ∀ result, Prompt result → (next result).Stays
  | receive _ _ next => ∀ result, Prompt result → (next result).Stays
  | note _ next => next.Stays
  | awaitLeft _ _ => False
  | leave _ => False
  | abort => True

theorem Stays.bind {p : Proc n α} {f : α → Proc n β} (hp : p.Stays)
    (hf : ∀ value, (f value).Stays) : (p.bind f).Stays := by
  induction p with
  | done value => exact hf value
  | send dest letter next ih => exact fun result hr => ih result (hp result hr)
  | receive source tag next ih => exact fun result hr => ih result (hp result hr)
  | note event next ih => exact ih hp
  | awaitLeft peer next => exact hp
  | leave next => exact hp
  | abort => trivial

end Proc

namespace Network

variable {g g' : Network n α}

theorem step?_part {r : Fin n} (h : g.step? r = some g') :
    Proc.Part (g'.programs.get r) (g.programs.get r) := by
  unfold step? at h
  split at h
  · cases h
  · cases h
  · next dest letter next hp =>
    rw [hp]
    split at h <;> cases h <;> simpa using .send dest letter next _
  · next source tag next hp =>
    rw [hp]
    split at h
    · cases h
      simpa using .receive source tag next _
    · split at h
      · cases h
        simpa using .receive source tag next _
      · cases h
  · next peer next hp =>
    rw [hp]
    split at h
    · cases h
      simpa using .awaitLeft peer next
    · cases h
  · next next hp =>
    rw [hp]
    cases h
    simpa using .leave next
  · next event next hp =>
    rw [hp]
    cases h
    simpa using .note event next

/-- In one move a rank goes on with a part of its program, or stands still. -/
theorem Moves.part (h : Moves g g') (r : Fin n) :
    g'.programs.get r = g.programs.get r ∨ Proc.Part (g'.programs.get r) (g.programs.get r) := by
  cases h with
  | step q h =>
    by_cases hr : r = q
    · exact .inr (hr ▸ step?_part h)
    · exact .inl ((step?_frame h).1 r hr)
  | @timeout q source tag next h _ =>
    rw [programs_setProgram]
    split
    · next hr =>
      subst hr
      rw [h]
      exact .inr (.receive source tag next _)
    · exact .inl rfl

theorem reached_returns {post : α → Prop} {r : Fin n} (hr : (g.programs.get r).Returns post)
    (h : Relation.ReflTransGen Moves g g') : (g'.programs.get r).Returns post := by
  induction h with
  | refl => exact hr
  | tail _ hmove ih =>
    rcases hmove.part r with hsame | hpart
    · rwa [hsame]
    · exact ih.part hpart

/-- However the ranks move, a rank that ends does so with a value that its
program allows. -/
theorem reached_done {post : α → Prop} {r : Fin n} (hr : (g.programs.get r).Returns post)
    (h : Relation.ReflTransGen Moves g g') {value : α} (hdone : g'.programs.get r = .done value) :
    post value := by
  have hend := reached_returns hr h
  rwa [hdone] at hend

theorem step?_stays {r : Fin n} (hr : (g.programs.get r).Stays) (h : g.step? r = some g') :
    (g'.programs.get r).Stays ∧ g'.left = g.left := by
  unfold step? at h
  split at h
  · cases h
  · cases h
  · next dest letter next hp =>
    rw [hp] at hr
    split at h
    · cases h
      exact ⟨by simpa using hr _ (Prompt.error rfl), rfl⟩
    · cases h
      exact ⟨by simpa using hr _ (Prompt.ok ()), rfl⟩
  · next source tag next hp =>
    rw [hp] at hr
    split at h
    · next letter rest hchannel =>
      cases h
      have hresult : Prompt (if letter.tag = tag then .ok letter.payload
          else .error (.tagMismatch source tag letter.tag)) := by
        split
        · exact Prompt.ok _
        · exact Prompt.error rfl
      exact ⟨by simpa using hr _ hresult, rfl⟩
    · split at h
      · cases h
        exact ⟨by simpa using hr _ (Prompt.error rfl), rfl⟩
      · cases h
  · next peer next hp =>
    rw [hp] at hr
    exact hr.elim
  · next next hp =>
    rw [hp] at hr
    exact hr.elim
  · next event next hp =>
    rw [hp] at hr
    have hnext : next.Stays := hr
    cases h
    exact ⟨by simpa using hnext, rfl⟩

/-- A group of processes that never leave is complete at any time. -/
theorem follow_allHere (hstays : ∀ r, (g.programs.get r).Stays) (here : g.AllHere)
    {schedule : List (Fin n)} (h : g.follow schedule = some g') : g'.AllHere := by
  have hstep : ∀ {g g' : Network n α} {q : Fin n},
      (∀ r, (g.programs.get r).Stays) ∧ g.AllHere → g.step? q = some g' →
        (∀ r, (g'.programs.get r).Stays) ∧ g'.AllHere := by
    rintro g g' q ⟨hstays, here⟩ hstep
    obtain ⟨hq, hleft⟩ := step?_stays (hstays q) hstep
    refine ⟨fun r => ?_, fun r => hleft ▸ here r⟩
    by_cases hr : r = q
    · exact hr ▸ hq
    · rw [(step?_frame hstep).1 r hr]
      exact hstays r
  exact (follow_keeps hstep ⟨hstays, here⟩ h).2

theorem start_allHere (processes : Fin n → Proc n α) : (start processes).AllHere := by
  intro r
  simp [start, Vector.get_eq_getElem]

/-- Processes that never leave come to rest in one state. -/
theorem exists_settles {processes : Fin n → Proc n α} (hstays : ∀ r, (processes r).Stays) :
    ∃ letters final, (start processes).Settles letters final := by
  obtain ⟨schedule, hfollow, hquiet⟩ := (start processes).follow_run
  have hprograms : ∀ r, ((start processes).programs.get r).Stays := fun r => by
    simpa [start, Vector.get_eq_getElem] using hstays r
  exact ⟨_, _, settles hfollow hquiet (follow_allHere hprograms (start_allHere processes) hfollow)⟩

end Network

namespace Routine

variable {ε ε' τ σ ι : Type}

def Stays (r : Routine n ε τ) : Prop := r.run.Stays

namespace Stays

theorem compositional : Compositional (fun _ => True) (@Stays n ε) where
  pure _ := trivial
  throw _ := trivial
  bind hr hf := Proc.Stays.bind hr fun
    | .ok value => hf value
    | .error _ => trivial

theorem conversational : Conversational (fun _ => True) (@Stays n CommError) where
  toCompositional := compositional.mono fun _ _ => trivial
  tags_of_ne _ := trivial
  send _ _ _ _ := fun _ _ => trivial
  receive _ _ := fun _ _ => trivial

theorem mapError {r : Routine n ε τ} (hr : Stays r) (f : ε → ε') : Stays (r.mapError f) := by
  apply Proc.Stays.bind hr
  intro result
  cases result <;> trivial

end Stays

/-- Whatever answers it gets, a routine gives a `good` value or fails with a
`bad` error, if it ends at all. -/
def Gives (good : τ → Prop) (bad : ε → Prop) (r : Routine n ε τ) : Prop :=
  r.run.Returns fun
    | .ok value => good value
    | .error e => bad e

namespace Gives

variable {good : τ → Prop} {bad : ε → Prop} {r : Routine n ε τ}

theorem pure {value : τ} (h : good value) :
    Gives good bad (pure value : Routine n ε τ) := h

theorem bind {good' : σ → Prop} {f : τ → Routine n ε σ} (hr : Gives good bad r)
    (hf : ∀ value, good value → Gives good' bad (f value)) : Gives good' bad (r >>= f) := by
  apply Proc.Returns.bind hr
  intro result hresult
  cases result with
  | ok value => exact hf value hresult
  | error e => exact hresult

theorem compositional : Compositional bad fun _ => @Gives n ε _ (fun _ => True) bad where
  pure _ := trivial
  throw he := he
  bind hr hf := hr.bind fun value _ => hf value

theorem guarded {c : Prop} [Decidable c] {e : ε} (he : bad e) (hr : Gives good bad r) :
    Gives good bad (do
      if c then MonadExcept.throw e
      r) := by
  split
  · exact (compositional.throw he).bind fun _ _ => hr
  · exact hr

theorem map {good' : σ → Prop} (hr : Gives good bad r) (f : τ → σ)
    (hf : ∀ value, good value → good' (f value)) : Gives good' bad (f <$> r) := by
  rw [← bind_pure_comp]
  exact hr.bind fun value hvalue => pure (hf value hvalue)

theorem ofExcept {result : Except ε τ} (hok : ∀ value, result = .ok value → good value)
    (herror : ∀ e, result = .error e → bad e) :
    Gives good bad (Routine.ofExcept result : Routine n ε τ) := by
  cases result with
  | ok value => exact hok value rfl
  | error e => exact herror e rfl

theorem mapError {bad' : ε' → Prop} {f : ε → ε'} (hr : Gives good bad r)
    (hf : ∀ e, bad e → bad' (f e)) : Gives good bad' (r.mapError f) := by
  apply Proc.Returns.bind hr
  intro result hresult
  cases result with
  | ok value => exact hresult
  | error e => exact hf e hresult

theorem any (r : Routine n ε τ) : Gives (fun _ => True) (fun _ => True) r :=
  r.run.returns_any.mono fun result _ => by cases result <;> trivial

theorem mapM {holds : ι → τ → Prop} {f : ι → Routine n ε τ} (items : List ι)
    (hf : ∀ item ∈ items, Gives (holds item) bad (f item)) :
    Gives (List.Forall₂ holds items) bad (items.mapM f) := by
  induction items with
  | nil => exact pure .nil
  | cons item items ih =>
    rw [List.mapM_cons]
    have hrest := ih fun item hitem => hf item (List.mem_cons_of_mem _ hitem)
    exact (hf item List.mem_cons_self).bind fun value hvalue =>
      hrest.bind fun values hvalues => pure (.cons hvalue hvalues)

/-- What one rank sends in a round comes in its place. -/
theorem round (me : Fin n) {tag : Tag} (outgoing : Fin n → Option Payload)
    {intake : Fin n → Intake τ} {holds : Fin n → τ → Prop}
    (h : ∀ source, Gives (holds source) (fun _ => True) (takeIn tag source (intake source))) :
    Gives (List.Forall₂ holds (List.finRange n)) (fun _ => True)
      (Routine.round me tag outgoing intake) :=
  (any _).bind fun _ _ => mapM _ fun source _ => h source

end Gives

/-- One value for each rank, in a list. -/
theorem exists_values {holds : Fin n → τ → Prop} {values : List τ}
    (h : List.Forall₂ holds (List.finRange n) values) :
    ∃ value : Fin n → τ, values = (List.finRange n).map value ∧ ∀ s, holds s (value s) := by
  obtain ⟨hlength, hget⟩ := List.forall₂_iff_get.mp h
  rw [List.length_finRange] at hlength
  refine ⟨fun s => values.get ⟨s.val, hlength ▸ s.isLt⟩, ?_, fun s => ?_⟩
  · apply List.ext_getElem
    · simp [hlength]
    · intro i hi hi'
      simp
  · simpa using hget s.val (by simp) (hlength ▸ s.isLt)

end Routine

namespace Plan

def GroupedByRank {τ : Type} (items : List (τ × Fin n)) : Prop :=
  ∃ batches : Fin n → List τ,
    items = (List.finRange n).flatMap fun s => (batches s).map fun value => (value, s)

variable {τ : Type} [Codec τ]

theorem takeIn_batch (p : Plan n) (values : List τ) (source : Fin n) :
    Routine.Gives (fun batch => batch.length = p.importCount source) (fun _ => True)
      (Routine.takeIn Tag.distribute source (p.intake values source)) := by
  have hchecked : ∀ count (received batch : List τ),
      checked count received = .ok batch → batch.length = count := by
    intro count received batch h
    unfold checked at h
    split at h
    · next hlength =>
      cases h
      exact hlength
    · cases h
  rw [intake]
  split
  · next hzero => exact hzero.symm
  · split
    · exact .ofExcept (fun batch h => hchecked _ _ batch h) fun _ _ => trivial
    · refine (Routine.Gives.any _).bind fun payload _ => .ofExcept (fun batch h => ?_)
        fun _ _ => trivial
      change (Routine.readValue payload >>= checked (p.importCount source)) = .ok batch at h
      cases hread : (Routine.readValue payload : Except CommError (List τ)) with
      | ok received =>
        rw [hread] at h
        exact hchecked _ received batch h
      | error e =>
        rw [hread] at h
        cases h

omit [Codec τ] in
theorem grouped_flatten (p : Plan n) {received : List (List τ)}
    (h : List.Forall₂ (fun s batch => batch.length = p.importCount s) (List.finRange n) received) :
    GroupedByRank (received.flatten.zip p.importRanks) := by
  obtain ⟨batches, rfl, hlength⟩ := Routine.exists_values h
  refine ⟨batches, ?_⟩
  rw [importRanks, ← List.flatMap_def, ← zip_flatMap]
  simp only [List.map_const', hlength]

/-- Whatever comes along a plan comes rank by rank. -/
theorem distribute_grouped (p : Plan n) (values : List τ) :
    Routine.Gives (fun received => GroupedByRank (received.zip p.importRanks)) (fun _ => True)
      (p.distribute values) := by
  apply Routine.Gives.guarded
  · trivial
  · exact (Routine.Gives.round p.me _ (p.takeIn_batch values)).map _ fun _ => p.grouped_flatten

end Plan

namespace Routing

theorem distribute_grouped {τ : Type} [Codec τ] (routing : Routing n) (values : List τ) :
    Routine.Gives (fun received => Plan.GroupedByRank (received.zip routing.importRanks))
      (fun _ => True) (routing.distribute values) := by
  apply Routine.Gives.guarded
  · trivial
  · exact routing.plan.distribute_grouped _

end Routing

end Vicinity
