import Mathlib
import Vicinity.Group.Schedule

/-!
# Interleavings of a group

A channel has one writer and one reader, so the next steps of two ranks can be
taken in either order. If one interleaving brings the group to rest with every
rank still there, all of them do, in the same state, after the same number of
steps and with the same letters.
-/

set_option autoImplicit false

namespace Vicinity

inductive Deed (n : Nat) where
  | post (dest : Fin n) (letter : Envelope)
  | take (source : Fin n)
  | note (event : Event)

namespace Deed

variable {n : Nat}

def edit (r : Fin n) (deed : Deed n) (s d : Fin n) (letters : List Envelope) : List Envelope :=
  match deed with
  | post dest letter => if s = r ∧ d = dest then letters ++ [letter] else letters
  | take source => if s = source ∧ d = r then letters.tail else letters
  | note _ => letters

def record (r : Fin n) (deed : Deed n) (s : Fin n) (events : List Event) : List Event :=
  match deed with
  | note event => if s = r then events ++ [event] else events
  | _ => events

theorem post_take_comm {r q s d source dest : Fin n} {letter : Envelope} {letters : List Envelope}
    (h : s = source ∧ d = q → letters ≠ []) :
    edit r (post dest letter) s d (edit q (take source) s d letters) =
      edit q (take source) s d (edit r (post dest letter) s d letters) := by
  by_cases hsd : s = source ∧ d = q
  · obtain ⟨first, rest, rfl⟩ := List.exists_cons_of_ne_nil (h hsd)
    simp only [edit, if_pos hsd]
    split_ifs <;> rfl
  · simp only [edit, if_neg hsd]

/-- Deeds of different ranks commute on every channel, provided that a letter
is taken only where there is one. -/
theorem edit_comm {r q s d : Fin n} (hne : r ≠ q) {a b : Deed n} {letters : List Envelope}
    (ha : ∀ source, a = take source → s = source ∧ d = r → letters ≠ [])
    (hb : ∀ source, b = take source → s = source ∧ d = q → letters ≠ []) :
    edit r a s d (edit q b s d letters) = edit q b s d (edit r a s d letters) := by
  cases a with
  | note => rfl
  | post dest letter =>
    cases b with
    | note => rfl
    | post dest' letter' =>
      by_cases h : s = r
      · subst h
        simp [edit, hne]
      · simp [edit, h]
    | take source => exact post_take_comm (hb source rfl)
  | take source =>
    cases b with
    | note => rfl
    | post dest letter => exact (post_take_comm (ha source rfl)).symm
    | take source' =>
      by_cases h : d = r
      · subst h
        simp [edit, hne]
      · simp [edit, h]

theorem record_comm {r q s : Fin n} (hne : r ≠ q) {a b : Deed n} {events : List Event} :
    record r a s (record q b s events) = record q b s (record r a s events) := by
  cases a <;> cases b <;> simp only [record]
  by_cases h : s = r
  · subst h
    simp [hne]
  · simp [h]

end Deed

def Proc.letters {n : Nat} {α : Type} (p : Proc n α) (d : Fin n) : List Envelope :=
  match p with
  | .send dest letter _ => if d = dest then [letter] else []
  | _ => []

namespace Network

variable {n : Nat} {α : Type}

def follow (g : Network n α) : List (Fin n) → Option (Network n α)
  | [] => some g
  | r :: rest => (g.step? r).bind fun g' => g'.follow rest

def sent (g : Network n α) : List (Fin n) → Fin n → Fin n → List Envelope
  | [], _, _ => []
  | r :: rest, s, d =>
    (if s = r then (g.programs.get r).letters d else []) ++
      (g.step? r).elim [] fun g' => g'.sent rest s d

def Quiet (g : Network n α) : Prop := ∀ r, g.step? r = none

def AllHere (g : Network n α) : Prop := ∀ r, g.left.get r = false

theorem follow_append (g : Network n α) (first second : List (Fin n)) :
    g.follow (first ++ second) = (g.follow first).bind fun g' => g'.follow second := by
  induction first generalizing g with
  | nil => rfl
  | cons r rest ih =>
    cases h : g.step? r with
    | none => simp [follow, h]
    | some g₁ => simp [follow, h, ih]

theorem get_set {τ : Type} (xs : Vector τ n) (i j : Fin n) (x : τ) :
    (xs.set i x i.isLt).get j = if j = i then x else xs.get j := by
  simp only [Vector.get_eq_getElem, Vector.getElem_set, Fin.ext_iff, eq_comm]

@[simp] theorem programs_setProgram (g : Network n α) (r s : Fin n) (p : Proc n α) :
    (g.setProgram r p).programs.get s = if s = r then p else g.programs.get s :=
  get_set g.programs r s p

@[simp] theorem channel_setProgram (g : Network n α) (r s d : Fin n) (p : Proc n α) :
    (g.setProgram r p).channel s d = g.channel s d := rfl

@[simp] theorem left_setProgram (g : Network n α) (r : Fin n) (p : Proc n α) :
    (g.setProgram r p).left = g.left := rfl

@[simp] theorem journals_setProgram (g : Network n α) (r : Fin n) (p : Proc n α) :
    (g.setProgram r p).journals = g.journals := rfl

@[simp] theorem channel_setChannel (g : Network n α) (s d s' d' : Fin n)
    (letters : List Envelope) : (g.setChannel s d letters).channel s' d' =
      if s' = s ∧ d' = d then letters else g.channel s' d' := by
  simp only [channel, setChannel, get_set]
  by_cases hs : s' = s
  · subst hs
    simp only [if_true, get_set, true_and]
  · simp only [hs, if_false, false_and]

@[simp] theorem programs_setChannel (g : Network n α) (s d : Fin n) (letters : List Envelope) :
    (g.setChannel s d letters).programs = g.programs := rfl

@[simp] theorem left_setChannel (g : Network n α) (s d : Fin n) (letters : List Envelope) :
    (g.setChannel s d letters).left = g.left := rfl

@[simp] theorem journals_setChannel (g : Network n α) (s d : Fin n) (letters : List Envelope) :
    (g.setChannel s d letters).journals = g.journals := rfl

theorem get_ext {τ : Type} {xs ys : Vector τ n} (h : ∀ i, xs.get i = ys.get i) : xs = ys :=
  Vector.ext fun i hi => h ⟨i, hi⟩

theorem ext_get {g g' : Network n α} (programs : ∀ r, g.programs.get r = g'.programs.get r)
    (channels : ∀ s d, g.channel s d = g'.channel s d) (left : ∀ r, g.left.get r = g'.left.get r)
    (journals : ∀ r, g.journals.get r = g'.journals.get r) : g = g' := by
  cases g
  cases g'
  simp only [mk.injEq]
  exact ⟨get_ext programs, get_ext fun s => get_ext (channels s), get_ext left, get_ext journals⟩

def perform (g : Network n α) (r : Fin n) (deed : Deed n) (p : Proc n α) : Network n α :=
  match deed with
  | .post dest letter => (g.setChannel r dest (g.channel r dest ++ [letter])).setProgram r p
  | .take source => (g.setChannel source r (g.channel source r).tail).setProgram r p
  | .note event =>
    { g with journals := g.journals.set r (g.journals.get r ++ [event]) r.isLt }.setProgram r p

@[simp] theorem programs_perform (g : Network n α) (r s : Fin n) (deed : Deed n) (p : Proc n α) :
    (g.perform r deed p).programs.get s = if s = r then p else g.programs.get s := by
  cases deed <;> exact programs_setProgram _ r s p

@[simp] theorem channel_perform (g : Network n α) (r s d : Fin n) (deed : Deed n) (p : Proc n α) :
    (g.perform r deed p).channel s d = deed.edit r s d (g.channel s d) := by
  cases deed with
  | note => rfl
  | post dest letter =>
    simp only [perform, channel_setProgram, channel_setChannel, Deed.edit]
    split
    · next h => rw [h.1, h.2]
    · rfl
  | take source =>
    simp only [perform, channel_setProgram, channel_setChannel, Deed.edit]
    split
    · next h => rw [h.1, h.2]
    · rfl

@[simp] theorem left_perform (g : Network n α) (r : Fin n) (deed : Deed n) (p : Proc n α) :
    (g.perform r deed p).left = g.left := by
  cases deed <;> rfl

@[simp] theorem journals_perform (g : Network n α) (r s : Fin n) (deed : Deed n) (p : Proc n α) :
    (g.perform r deed p).journals.get s = deed.record r s (g.journals.get s) := by
  cases deed with
  | post => rfl
  | take => rfl
  | note event =>
    simp only [perform, journals_setProgram, get_set, Deed.record]
    split
    · next h => rw [h]
    · rfl

def offer? (g : Network n α) (r : Fin n) : Option (Deed n × Proc n α) :=
  match g.programs.get r with
  | .send dest letter next => some (.post dest letter, next (.ok ()))
  | .receive source tag next =>
    (g.channel source r).head?.map fun letter => (.take source, next
      (if letter.tag = tag then .ok letter.payload
      else .error (.tagMismatch source tag letter.tag)))
  | .note event next => some (.note event, next)
  | _ => none

theorem step?_eq_offer? {g : Network n α} (here : g.AllHere) {r : Fin n}
    (stays : ∀ next, g.programs.get r ≠ .leave next) :
    g.step? r = (g.offer? r).map fun offer => g.perform r offer.1 offer.2 := by
  unfold step? offer?
  split
  · next hp => rw [hp]; rfl
  · next hp => rw [hp]; rfl
  · next dest letter next hp => simp [hp, here dest, perform]
  · next source tag next hp =>
    cases hchannel : g.channel source r with
    | nil => simp [hp, hchannel, here source]
    | cons letter rest => simp [hp, hchannel, perform]
  · next peer next hp => simp [hp, here peer]
  · next next hp => exact absurd hp (stays next)
  · next event next hp => simp [hp, perform]

theorem offer?_take {g : Network n α} {r source : Fin n} {p : Proc n α}
    (h : g.offer? r = some (.take source, p)) : g.channel source r ≠ [] := by
  unfold offer? at h
  split at h
  · cases h
  · obtain ⟨letter, hletter, he⟩ := Option.map_eq_some_iff.mp h
    cases he
    intro hempty
    rw [hempty] at hletter
    cases hletter
  · cases h
  · cases h

/-- What a rank can do stays the same while others step: letters are added
behind the one it waits for. -/
theorem offer?_perform {g : Network n α} {r q : Fin n} (hne : r ≠ q) {offer : Deed n × Proc n α}
    (hr : g.offer? r = some offer) (deed : Deed n) (p : Proc n α) :
    (g.perform q deed p).offer? r = some offer := by
  unfold offer? at hr ⊢
  rw [programs_perform, if_neg hne]
  split at hr
  · exact hr
  · next source tag next hp =>
    rw [channel_perform]
    obtain ⟨letter, hletter, rfl⟩ := Option.map_eq_some_iff.mp hr
    have hhead : (deed.edit q source r (g.channel source r)).head? = some letter := by
      cases deed with
      | note => exact hletter
      | post dest letter' =>
        simp only [Deed.edit]
        split
        · rw [List.head?_append, hletter, Option.some_or]
        · exact hletter
      | take source' => simpa [Deed.edit, hne] using hletter
    rw [hhead, Option.map_some]
  · exact hr
  · exact hr

theorem perform_comm {g : Network n α} {r q : Fin n} (hne : r ≠ q) {a b : Deed n} {p p' : Proc n α}
    (hr : g.offer? r = some (a, p)) (hq : g.offer? q = some (b, p')) :
    (g.perform q b p').perform r a p = (g.perform r a p).perform q b p' := by
  apply ext_get
  · intro s
    simp only [programs_perform]
    by_cases h : s = r
    · simp [h, hne]
    · simp [h]
  · intro s d
    simp only [channel_perform]
    apply Deed.edit_comm hne
    · intro source ha h
      rw [h.1, h.2]
      exact offer?_take (ha ▸ hr)
    · intro source hb h
      rw [h.1, h.2]
      exact offer?_take (hb ▸ hq)
  · intro s
    simp
  · intro s
    simpa using Deed.record_comm hne

theorem step?_frame {g g' : Network n α} {r : Fin n} (h : g.step? r = some g') :
    (∀ s, s ≠ r → g'.programs.get s = g.programs.get s) ∧
      ∀ s, g.left.get s = true → g'.left.get s = true := by
  unfold step? at h
  split at h
  · cases h
  · cases h
  · split at h <;> cases h <;> exact ⟨fun s hs => by simp [hs], fun s hs => hs⟩
  · split at h
    · cases h
      exact ⟨fun s hs => by simp [hs], fun s hs => hs⟩
    · split at h
      · cases h
        exact ⟨fun s hs => by simp [hs], fun s hs => hs⟩
      · cases h
  · split at h
    · cases h
      exact ⟨fun s hs => by simp [hs], fun s hs => hs⟩
    · cases h
  · cases h
    refine ⟨fun s hs => by simp [hs], fun s hs => ?_⟩
    rw [left_setProgram, get_set]
    split
    · rfl
    · exact hs
  · cases h
    exact ⟨fun s hs => by simp [hs], fun s hs => hs⟩

/-- What every step keeps, every run keeps. -/
theorem follow_keeps {P : Network n α → Prop}
    (hstep : ∀ {g g' : Network n α} {r : Fin n}, P g → g.step? r = some g' → P g')
    {g g' : Network n α} {schedule : List (Fin n)} (hg : P g)
    (h : g.follow schedule = some g') : P g' := by
  induction schedule generalizing g with
  | nil =>
    cases h
    exact hg
  | cons r rest ih =>
    obtain ⟨g₁, hr, hrest⟩ := Option.bind_eq_some_iff.mp h
    exact ih (hstep hg hr) hrest

theorem follow_left {g g' : Network n α} {schedule : List (Fin n)}
    (h : g.follow schedule = some g') {s : Fin n} (hs : g.left.get s = true) :
    g'.left.get s = true :=
  follow_keeps (P := fun g => g.left.get s = true)
    (fun hs hstep => (step?_frame hstep).2 s hs) hs h

theorem follow_here {g g' : Network n α} {schedule : List (Fin n)}
    (h : g.follow schedule = some g') (here : g'.AllHere) : g.AllHere := by
  intro s
  by_contra hs
  rw [Bool.not_eq_false] at hs
  have := here s
  rw [follow_left h hs] at this
  cases this

/-- Where the group comes to rest with every rank there, no rank was about to
leave on the way. -/
theorem follow_stays {g final : Network n α} {schedule : List (Fin n)}
    (h : g.follow schedule = some final) (quiet : final.Quiet) (here : final.AllHere) (r : Fin n)
    (next : Proc n α) : g.programs.get r ≠ .leave next := by
  intro hp
  -- From then on the rank is about to leave or has left.
  have hstep : ∀ {g g' : Network n α} {q : Fin n},
      g.programs.get r = .leave next ∨ g.left.get r = true → g.step? q = some g' →
        g'.programs.get r = .leave next ∨ g'.left.get r = true := by
    rintro g g' q (hp | hleft) hstep
    · by_cases hq : r = q
      · subst hq
        simp only [step?, hp, Option.some.injEq] at hstep
        exact .inr (by simp [← hstep, get_set])
      · exact .inl (((step?_frame hstep).1 r hq).trans hp)
    · exact .inr ((step?_frame hstep).2 r hleft)
  rcases follow_keeps hstep (.inl hp) h with hleave | hleft
  · have := quiet r
    simp [step?, hleave] at this
  · have := here r
    rw [hleft] at this
    cases this

/-- Next steps of two ranks can be taken in either order. -/
theorem step?_diamond {g g₁ g₂ : Network n α} {r q : Fin n} (hne : r ≠ q) (here : g.AllHere)
    (staysR : ∀ next, g.programs.get r ≠ .leave next)
    (staysQ : ∀ next, g.programs.get q ≠ .leave next)
    (hr : g.step? r = some g₁) (hq : g.step? q = some g₂) :
    ∃ g₃, g₁.step? q = some g₃ ∧ g₂.step? r = some g₃ := by
  obtain ⟨⟨a, p⟩, hofferR, rfl⟩ := Option.map_eq_some_iff.mp (step?_eq_offer? here staysR ▸ hr)
  obtain ⟨⟨b, p'⟩, hofferQ, rfl⟩ := Option.map_eq_some_iff.mp (step?_eq_offer? here staysQ ▸ hq)
  have hq₁ := offer?_perform hne.symm hofferQ a p
  have hr₂ := offer?_perform hne hofferR b p'
  refine ⟨(g.perform r a p).perform q b p', ?_, ?_⟩
  · rw [step?_eq_offer? (fun s => (left_perform g r a p) ▸ here s) fun next => ?_, hq₁]
    · rfl
    · rw [programs_perform, if_neg hne.symm]
      exact staysQ next
  · rw [step?_eq_offer? (fun s => (left_perform g q b p') ▸ here s) fun next => ?_, hr₂,
      Option.map_some, perform_comm hne hofferR hofferQ]
    rw [programs_perform, if_neg hne]
    exact staysR next

/-- A step that is possible at the start of a run to rest can be taken first. -/
theorem follow_first {g g₁ final : Network n α} {r : Fin n} {schedule : List (Fin n)}
    (hfinal : g.follow schedule = some final) (quiet : final.Quiet) (here : final.AllHere)
    (hr : g.step? r = some g₁) :
    ∃ rest, g₁.follow rest = some final ∧ rest.length + 1 = schedule.length ∧
      ∀ s d, g.sent (r :: rest) s d = g.sent schedule s d := by
  induction schedule generalizing g g₁ with
  | nil =>
    cases hfinal
    rw [quiet r] at hr
    cases hr
  | cons q schedule ih =>
    obtain ⟨g₂, hq, hfollow⟩ := Option.bind_eq_some_iff.mp hfinal
    by_cases hne : r = q
    · subst hne
      obtain rfl : g₁ = g₂ := Option.some.inj (hr.symm.trans hq)
      exact ⟨schedule, hfollow, rfl, fun s d => rfl⟩
    · have stays := follow_stays hfinal quiet here
      -- The run begins with another rank: the first two steps trade places.
      obtain ⟨g₃, hq₃, hr₃⟩ := step?_diamond hne (follow_here hfinal here) (stays r) (stays q) hr hq
      obtain ⟨rest, hrest, hlength, hsent⟩ := ih hfollow hr₃
      refine ⟨q :: rest, ?_, ?_, ?_⟩
      · rw [follow, hq₃, Option.bind_some, hrest]
      · simp [hlength]
      · intro s d
        have hsent := hsent s d
        simp only [sent, hr, hq, hr₃, hq₃, Option.elim_some] at hsent ⊢
        rw [← hsent, (step?_frame hr).1 q (Ne.symm hne), (step?_frame hq).1 r hne]
        by_cases hs : s = r
        · simp [hs, hne]
        · simp [hs]

/-- Every interleaving of a run to rest can go on to the same end. -/
theorem follow_converges {g g' final : Network n α} {schedule schedule' : List (Fin n)}
    (hfinal : g.follow schedule = some final) (quiet : final.Quiet) (here : final.AllHere)
    (h : g.follow schedule' = some g') :
    ∃ rest, g'.follow rest = some final ∧ schedule'.length + rest.length = schedule.length ∧
      ∀ s d, g.sent schedule' s d ++ g'.sent rest s d = g.sent schedule s d := by
  induction schedule' generalizing g schedule with
  | nil =>
    cases h
    exact ⟨schedule, hfinal, Nat.zero_add _, fun s d => rfl⟩
  | cons r schedule' ih =>
    obtain ⟨g₁, hr, hrest⟩ := Option.bind_eq_some_iff.mp h
    obtain ⟨schedule₁, hfinal₁, hlength, hsent⟩ := follow_first hfinal quiet here hr
    obtain ⟨rest, hfollow, hlength', hsent'⟩ := ih hfinal₁ hrest
    refine ⟨rest, hfollow, ?_, ?_⟩
    · rw [List.length_cons]
      omega
    · intro s d
      rw [← hsent s d]
      simp only [sent, hr, Option.elim_some]
      rw [List.append_assoc, hsent' s d]

/-- Whatever order the ranks step in, the group ends in one state, after one
number of steps and with the same letters from every rank to every other. -/
structure Settles (g : Network n α) (letters : Fin n → Fin n → List Envelope)
    (final : Network n α) : Prop where
  quiet : final.Quiet
  goes_on : ∃ steps, ∀ schedule g', g.follow schedule = some g' → ∃ rest,
    g'.follow rest = some final ∧ schedule.length + rest.length = steps ∧
      ∀ s d, g.sent schedule s d ++ g'.sent rest s d = letters s d

theorem settles {g final : Network n α} {schedule : List (Fin n)}
    (h : g.follow schedule = some final) (quiet : final.Quiet) (here : final.AllHere) :
    g.Settles (g.sent schedule) final where
  quiet := quiet
  goes_on := ⟨schedule.length, fun _ _ h' => follow_converges h quiet here h'⟩

theorem Quiet.follow_eq {g g' : Network n α} (quiet : g.Quiet) {schedule : List (Fin n)}
    (h : g.follow schedule = some g') : g' = g ∧ schedule = [] := by
  cases schedule with
  | nil => exact ⟨(Option.some.inj h).symm, rfl⟩
  | cons r rest =>
    rw [follow, quiet r] at h
    cases h

theorem Settles.unique {g g' final : Network n α} {letters : Fin n → Fin n → List Envelope}
    (h : g.Settles letters final) {schedule : List (Fin n)} (h' : g.follow schedule = some g')
    (quiet : g'.Quiet) : g' = final ∧ ∀ s d, g.sent schedule s d = letters s d := by
  obtain ⟨steps, hsteps⟩ := h.goes_on
  obtain ⟨rest, hrest, -, hsent⟩ := hsteps schedule g' h'
  obtain ⟨rfl, rfl⟩ := quiet.follow_eq hrest
  exact ⟨rfl, fun s d => by simpa [sent] using hsent s d⟩

/-- Running is one of the interleavings, and it ends at rest. -/
theorem follow_run (g : Network n α) :
    ∃ schedule, g.follow schedule = some g.run ∧ g.run.Quiet := by
  fun_induction run g with
  | case1 g h =>
    refine ⟨[], rfl, ?_⟩
    intro r
    exact List.findSome?_eq_none_iff.mp h r (List.mem_finRange r)
  | case2 g g₁ h ih =>
    obtain ⟨schedule, hfollow, quiet⟩ := ih
    obtain ⟨-, r, -, -, hr, -⟩ := List.findSome?_eq_some_iff.mp h
    exact ⟨r :: schedule, by rw [follow, hr, Option.bind_some, hfollow], quiet⟩

end Network

end Vicinity
