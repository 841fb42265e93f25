import Mathlib
import Vicinity.Group.Collective
import Vicinity.Proofs.Group.Confluence

/-!
# Rounds

When all ranks are in the same round, and each expects what the others send it,
one interleaving completes the round on every rank: first all send, then all
take in. Nothing is left under way, so routines made of rounds complete one
round after the other.
-/

set_option autoImplicit false

namespace Vicinity

namespace Network

variable {n : Nat} {α : Type}

def present (journals : Fin n → List Event) (channels : Fin n → Fin n → List Envelope)
    (programs : Fin n → Proc n α) : Network n α where
  programs := Vector.ofFn programs
  channels := Vector.ofFn fun s => Vector.ofFn (channels s)
  left := Vector.replicate n false
  journals := Vector.ofFn journals

def resting (journals : Fin n → List Event) (programs : Fin n → Proc n α) : Network n α :=
  present journals (fun _ _ => []) programs

section Present

variable {journals : Fin n → List Event} {channels : Fin n → Fin n → List Envelope}
  {programs : Fin n → Proc n α}

@[simp] theorem programs_present (r : Fin n) :
    (present journals channels programs).programs.get r = programs r := by
  simp [present, Vector.get_eq_getElem]

@[simp] theorem channel_present (s d : Fin n) :
    (present journals channels programs).channel s d = channels s d := by
  simp [present, channel, Vector.get_eq_getElem]

@[simp] theorem left_present (r : Fin n) :
    (present journals channels programs).left.get r = false := by
  simp [present, Vector.get_eq_getElem]

@[simp] theorem journals_present (r : Fin n) :
    (present journals channels programs).journals.get r = journals r := by
  simp [present, Vector.get_eq_getElem]

theorem start_eq (programs : Fin n → Proc n α) : start programs = resting (fun _ => []) programs := by
  refine ext_get (fun r => ?_) (fun s d => ?_) (fun r => ?_) fun r => ?_ <;>
    simp [start, resting, channel, Vector.get_eq_getElem, present]

theorem step?_present {r : Fin n} {deed : Deed n} {p : Proc n α}
    (h : (present journals channels programs).offer? r = some (deed, p)) :
    (present journals channels programs).step? r = some (present
      (fun s => deed.record r s (journals s)) (fun s d => deed.edit r s d (channels s d))
      (Function.update programs r p)) := by
  have stays : ∀ next, (present journals channels programs).programs.get r ≠ .leave next := by
    intro next hp
    simp [offer?, hp] at h
  rw [step?_eq_offer? (fun _ => left_present _) stays, h, Option.map_some]
  congr 1
  apply ext_get
  · intro s
    simp [Function.update_apply]
  · intro s d
    simp
  · intro s
    simp
  · intro s
    simp

end Present

/-- Some interleaving leads from one state to the other, with these letters
from every rank to every other. -/
def Leads (g : Network n α) (letters : Fin n → Fin n → List Envelope) (g' : Network n α) : Prop :=
  ∃ schedule, g.follow schedule = some g' ∧ ∀ s d, g.sent schedule s d = letters s d

theorem sent_append {g g' : Network n α} {first : List (Fin n)} (h : g.follow first = some g')
    (second : List (Fin n)) (s d : Fin n) :
    g.sent (first ++ second) s d = g.sent first s d ++ g'.sent second s d := by
  induction first generalizing g with
  | nil =>
    cases h
    rfl
  | cons r rest ih =>
    obtain ⟨g₁, hstep, hrest⟩ := Option.bind_eq_some_iff.mp h
    simp only [List.cons_append, sent, hstep, Option.elim_some, ih hrest, List.append_assoc]

namespace Leads

variable {g g' g'' : Network n α} {letters letters' : Fin n → Fin n → List Envelope}

theorem refl (g : Network n α) : g.Leads (fun _ _ => []) g := ⟨[], rfl, fun _ _ => rfl⟩

theorem trans (h : g.Leads letters g') (h' : g'.Leads letters' g'') :
    g.Leads (fun s d => letters s d ++ letters' s d) g'' := by
  obtain ⟨schedule, hfollow, hsent⟩ := h
  obtain ⟨schedule', hfollow', hsent'⟩ := h'
  refine ⟨schedule ++ schedule', by rw [follow_append, hfollow, Option.bind_some, hfollow'],
    fun s d => ?_⟩
  rw [sent_append hfollow, hsent, hsent']

theorem congr (h : g.Leads letters g') (hletters : ∀ s d, letters s d = letters' s d)
    (hg : g' = g'') : g.Leads letters' g'' := by
  subst hg
  obtain ⟨schedule, hfollow, hsent⟩ := h
  exact ⟨schedule, hfollow, fun s d => (hsent s d).trans (hletters s d)⟩

theorem step {r : Fin n} (h : g.step? r = some g') :
    g.Leads (fun s d => if s = r then (g.programs.get r).letters d else []) g' :=
  ⟨[r], by rw [follow, h]; rfl, fun s d => by simp [sent, h]⟩

end Leads

section Phases

variable (journals : Fin n → List Event) (channels : Fin n → Fin n → List Envelope)
  {programs : Fin n → Proc n α} {r : Fin n}

theorem leads_send {dest : Fin n} {letter : Envelope} {next : Except CommError Unit → Proc n α}
    (h : programs r = .send dest letter next) :
    (present journals channels programs).Leads
      (fun s d => if s = r ∧ d = dest then [letter] else [])
      (present journals
        (fun s d => if s = r ∧ d = dest then channels s d ++ [letter] else channels s d)
        (Function.update programs r (next (.ok ())))) := by
  have hoffer : (present journals channels programs).offer? r =
      some (.post dest letter, next (.ok ())) := by
    simp [offer?, h]
  apply (Leads.step (step?_present hoffer)).congr
  · intro s d
    rw [programs_present, h, Proc.letters]
    by_cases hs : s = r
    · simp [hs]
    · simp [hs]
  · rfl

theorem leads_receive {source : Fin n} {tag : Tag} {payload : Payload} {rest : List Envelope}
    {next : Except CommError Payload → Proc n α} (h : programs r = .receive source tag next)
    (hchannel : channels source r = ⟨tag, payload⟩ :: rest) :
    (present journals channels programs).Leads (fun _ _ => [])
      (present journals (fun s d => if s = source ∧ d = r then rest else channels s d)
        (Function.update programs r (next (.ok payload)))) := by
  have hoffer : (present journals channels programs).offer? r =
      some (.take source, next (.ok payload)) := by
    simp [offer?, h, hchannel]
  apply (Leads.step (step?_present hoffer)).congr
  · intro s d
    rw [programs_present, h]
    simp [Proc.letters]
  · congr 1
    funext s d
    simp only [Deed.edit]
    split
    · next hs => rw [hs.1, hs.2, hchannel, List.tail_cons]
    · rfl

theorem leads_note {event : Event} {next : Proc n α} (h : programs r = .note event next) :
    (present journals channels programs).Leads (fun _ _ => [])
      (present (fun s => if s = r then journals s ++ [event] else journals s) channels
        (Function.update programs r next)) := by
  have hoffer : (present journals channels programs).offer? r = some (.note event, next) := by
    simp [offer?, h]
  apply (Leads.step (step?_present hoffer)).congr
  · intro s d
    rw [programs_present, h]
    simp [Proc.letters]
  · rfl

theorem leads_each (state : List (Fin n) → Network n α) (letters : Fin n → Fin n → List Envelope)
    (hstep : ∀ r rest, (r :: rest).Nodup →
      (state (r :: rest)).Leads (fun s d => if s = r then letters s d else []) (state rest))
    {ranks : List (Fin n)} (nodup : ranks.Nodup) :
    (state ranks).Leads (fun s d => if s ∈ ranks then letters s d else []) (state []) := by
  induction ranks with
  | nil => exact (Leads.refl _).congr (fun s d => by simp) rfl
  | cons r rest ih =>
    have hr : r ∉ rest := (List.nodup_cons.mp nodup).1
    apply ((hstep r rest nodup).trans (ih nodup.of_cons)).congr
    · intro s d
      by_cases hs : s = r
      · subst hs
        simp [hr]
      · simp [hs]
    · rfl

end Phases

end Network

/-- Whatever the ranks go on with, they can first perform these processes
together, with these letters and these values. Nothing is under way before
and after. -/
def Proc.Completes {n : Nat} {τ : Type} (processes : Fin n → Proc n τ)
    (letters : Fin n → Fin n → List Envelope) (values : Fin n → τ) : Prop :=
  ∀ (α : Type) (journals : Fin n → List Event) (next : Fin n → τ → Proc n α),
    ∃ journals', (Network.resting journals fun r => (processes r).bind (next r)).Leads letters
      (Network.resting journals' fun r => next r (values r))

namespace Proc.Completes

variable {n : Nat} {τ σ : Type} {letters letters' : Fin n → Fin n → List Envelope}

theorem done (values : Fin n → τ) : Completes (fun r => .done (values r)) (fun _ _ => []) values :=
  fun _ journals _ => ⟨journals, Network.Leads.refl _⟩

theorem bind {processes : Fin n → Proc n τ} {values : Fin n → τ} {f : Fin n → τ → Proc n σ}
    {values' : Fin n → σ} (h : Completes processes letters values)
    (h' : Completes (fun r => f r (values r)) letters' values') :
    Completes (fun r => (processes r).bind (f r)) (fun s d => letters s d ++ letters' s d)
      values' := by
  intro α journals next
  obtain ⟨journals₁, h₁⟩ := h α journals fun r value => (f r value).bind (next r)
  obtain ⟨journals₂, h₂⟩ := h' α journals₁ next
  simp only [Proc.bind_assoc]
  exact ⟨journals₂, h₁.trans h₂⟩

theorem congr {processes processes' : Fin n → Proc n τ} {values values' : Fin n → τ}
    (h : Completes processes letters values) (hprocesses : ∀ r, processes r = processes' r)
    (hletters : ∀ s d, letters s d = letters' s d) (hvalues : ∀ r, values r = values' r) :
    Completes processes' letters' values' := by
  obtain rfl : processes = processes' := funext hprocesses
  obtain rfl : letters = letters' := funext fun s => funext (hletters s)
  obtain rfl : values = values' := funext hvalues
  exact h

/-- However their steps interleave, processes that complete do so on every
rank, and nobody leaves. -/
theorem rests {processes : Fin n → Proc n τ} {values : Fin n → τ}
    (h : Completes processes letters values) :
    ∃ final, (Network.start processes).Settles letters final ∧ final.AllHere ∧
      (∀ s d, final.channel s d = []) ∧ ∀ r, final.programs.get r = .done (values r) := by
  obtain ⟨journals, schedule, hfollow, hsent⟩ := h _ (fun _ => []) fun _ => .done
  simp only [Proc.bind_done] at hfollow hsent
  rw [← Network.start_eq] at hfollow hsent
  have hdone : ∀ r, (Network.resting journals fun r => Proc.done (n := n)
      (values r)).programs.get r = .done (values r) := fun r => Network.programs_present r
  have here : (Network.resting journals fun r => Proc.done (n := n) (values r)).AllHere :=
    fun r => Network.left_present r
  have hsettles := Network.settles hfollow (fun r => by rw [Network.step?, hdone r]) here
  rw [show (Network.start processes).sent schedule = letters from
    funext fun s => funext (hsent s)] at hsettles
  exact ⟨_, hsettles, here, Network.channel_present, hdone⟩

theorem settles {processes : Fin n → Proc n τ} {values : Fin n → τ}
    (h : Completes processes letters values) :
    ∃ final, (Network.start processes).Settles letters final ∧
      (∀ s d, final.channel s d = []) ∧ ∀ r, final.programs.get r = .done (values r) := by
  obtain ⟨final, hsettles, -, hempty, hdone⟩ := h.rests
  exact ⟨final, hsettles, hempty, hdone⟩

end Proc.Completes

namespace Routine

variable {n : Nat} {ε τ σ : Type} {α : Type}

def resume (f : τ → Routine n ε σ) (next : Except ε σ → Proc n α) : Except ε τ → Proc n α
  | .ok value => (f value).run.bind next
  | .error e => next (.error e)

theorem run_bind (r : Routine n ε τ) (f : τ → Routine n ε σ) (next : Except ε σ → Proc n α) :
    (r >>= f).run.bind next = r.run.bind (resume f next) := by
  apply (Proc.bind_assoc _ _ _).trans
  apply congrArg r.run.bind
  funext result
  cases result with
  | ok value => rfl
  | error e => rfl

def Completes (routines : Fin n → Routine n ε τ) (letters : Fin n → Fin n → List Envelope)
    (values : Fin n → τ) : Prop :=
  Proc.Completes (fun r => (routines r).run) letters fun r => .ok (values r)

namespace Completes

variable {routines : Fin n → Routine n ε τ} {letters letters' : Fin n → Fin n → List Envelope}
  {values : Fin n → τ}

theorem pure (values : Fin n → τ) :
    Completes (fun r => (pure (values r) : Routine n ε τ)) (fun _ _ => []) values :=
  Proc.Completes.done fun r => (Except.ok (values r) : Except ε τ)

theorem bind {f : Fin n → τ → Routine n ε σ} {values' : Fin n → σ}
    (h : Completes routines letters values)
    (h' : Completes (fun r => f r (values r)) letters' values') :
    Completes (fun r => routines r >>= f r) (fun s d => letters s d ++ letters' s d) values' :=
  Proc.Completes.bind h h'

theorem congr {routines' : Fin n → Routine n ε τ} {values' : Fin n → τ}
    (h : Completes routines letters values) (hroutines : ∀ r, routines r = routines' r)
    (hletters : ∀ s d, letters s d = letters' s d) (hvalues : ∀ r, values r = values' r) :
    Completes routines' letters' values' :=
  Proc.Completes.congr h hroutines hletters fun r => congrArg Except.ok (hvalues r)

theorem map (h : Completes routines letters values) (f : Fin n → τ → σ) :
    Completes (fun r => f r <$> routines r) letters fun r => f r (values r) :=
  (h.bind (f := fun r value => Pure.pure (f r value)) (pure fun r => f r (values r))).congr
    (fun _ => bind_pure_comp _ _) (fun _ _ => List.append_nil _) fun _ => rfl

end Completes

def parcel (tag : Tag) (payload : Option Payload) : List Envelope :=
  payload.toList.map fun bytes => ⟨tag, bytes⟩

def sendOne (tag : Tag) (dest : Fin n) : Option Payload → Routine n CommError Unit
  | none => Pure.pure ()
  | some payload => send dest tag payload

def sendAll (tag : Tag) (outgoing : Fin n → Option Payload) (dests : List (Fin n)) :
    Routine n CommError Unit :=
  dests.forM fun dest => sendOne tag dest (outgoing dest)

def takeAll (tag : Tag) (intake : Fin n → Intake τ) (sources : List (Fin n)) :
    Routine n CommError (List τ) :=
  sources.mapM fun source => takeIn tag source (intake source)

theorem round_eq (me : Fin n) (tag : Tag) (outgoing : Fin n → Option Payload)
    (intake : Fin n → Intake τ) : round me tag outgoing intake =
      sendAll tag outgoing (others me) >>= fun _ => takeAll tag intake (List.finRange n) := rfl

section Halves

variable (journals : Fin n → List Event) (channels : Fin n → Fin n → List Envelope)
  {programs : Fin n → Proc n α} {r : Fin n} {tag : Tag}

theorem leads_sendOne {dest : Fin n} {payload : Option Payload}
    {next : Except CommError Unit → Proc n α}
    (h : programs r = (sendOne tag dest payload).run.bind next) :
    (Network.present journals channels programs).Leads
      (fun s d => if s = r ∧ d = dest then parcel tag payload else [])
      (Network.present journals
        (fun s d => if s = r ∧ d = dest then channels s d ++ parcel tag payload else channels s d)
        (Function.update programs r (next (.ok ())))) := by
  cases payload with
  | none =>
    apply (Network.Leads.refl _).congr
    · intro s d
      simp [parcel]
    · rw [show next (.ok ()) = programs r from h.symm, Function.update_eq_self]
      simp [parcel]
  | some payload => exact Network.leads_send journals channels h

theorem leads_sendAll {outgoing : Fin n → Option Payload} {next : Except CommError Unit → Proc n α}
    {dests : List (Fin n)} (nodup : dests.Nodup)
    (h : programs r = (sendAll tag outgoing dests).run.bind next) :
    (Network.present journals channels programs).Leads
      (fun s d => if s = r ∧ d ∈ dests then parcel tag (outgoing d) else [])
      (Network.present journals
        (fun s d => if s = r ∧ d ∈ dests then channels s d ++ parcel tag (outgoing d)
          else channels s d)
        (Function.update programs r (next (.ok ())))) := by
  induction dests generalizing channels programs with
  | nil =>
    apply (Network.Leads.refl _).congr
    · intro s d
      simp
    · rw [show next (.ok ()) = programs r from h.symm, Function.update_eq_self]
      simp
  | cons dest dests ih =>
    have hdest : dest ∉ dests := (List.nodup_cons.mp nodup).1
    rw [sendAll, List.forM_eq_forM, List.forM_cons, run_bind] at h
    have hsend := leads_sendOne journals channels h
    apply (hsend.trans (ih _ nodup.of_cons (Function.update_self ..))).congr
    · intro s d
      by_cases hd : d = dest
      · subst hd
        simp [hdest]
      · simp [hd]
    · rw [Function.update_idem]
      congr 1
      funext s d
      by_cases hd : d = dest
      · subst hd
        simp [hdest]
      · simp [hd]

def Arrived (tag : Tag) (intake : Intake τ) (value : τ) (letters : List Envelope) : Prop :=
  (intake = .ready (.ok value) ∧ letters = []) ∨
    ∃ read payload, intake = .awaited read ∧ read payload = .ok value ∧ letters = [⟨tag, payload⟩]

theorem leads_takeIn {intake : Intake τ} {value : τ} {source : Fin n}
    {next : Except CommError τ → Proc n α} (arrived : Arrived tag intake value (channels source r))
    (h : programs r = (takeIn tag source intake).run.bind next) :
    (Network.present journals channels programs).Leads (fun _ _ => [])
      (Network.present journals
        (fun s d => if s = source ∧ d = r then [] else channels s d)
        (Function.update programs r (next (.ok value)))) := by
  rcases arrived with ⟨rfl, hempty⟩ | ⟨read, payload, rfl, hread, hletter⟩
  · apply (Network.Leads.refl _).congr
    · intro s d
      rfl
    · rw [show next (.ok value) = programs r from h.symm, Function.update_eq_self]
      congr 1
      funext s d
      split
      · next hs => rw [hs.1, hs.2, hempty]
      · rfl
  · rw [takeIn, run_bind] at h
    have hnext : (ofExcept (read payload) : Routine n CommError τ).run.bind next =
        next (.ok value) := by
      rw [hread]
      rfl
    apply (Network.leads_receive journals channels h hletter).congr
    · intro s d
      rfl
    · exact congrArg (fun p => Network.present journals _ (Function.update programs r p)) hnext

theorem leads_takeAll {intake : Fin n → Intake τ} (value : Fin n → τ)
    {next : Except CommError (List τ) → Proc n α} {sources : List (Fin n)} (nodup : sources.Nodup)
    (arrived : ∀ s ∈ sources, Arrived tag (intake s) (value s) (channels s r))
    (h : programs r = (takeAll tag intake sources).run.bind next) :
    (Network.present journals channels programs).Leads (fun _ _ => [])
      (Network.present journals
        (fun s d => if s ∈ sources ∧ d = r then [] else channels s d)
        (Function.update programs r (next (.ok (sources.map value))))) := by
  induction sources generalizing channels programs next with
  | nil =>
    apply (Network.Leads.refl _).congr
    · intro s d
      rfl
    · rw [show next (.ok ([].map value)) = programs r from h.symm, Function.update_eq_self]
      simp
  | cons source sources ih =>
    have hsource : source ∉ sources := (List.nodup_cons.mp nodup).1
    rw [takeAll, List.mapM_cons, run_bind] at h
    have hfirst := leads_takeIn journals channels (arrived source (by simp)) h
    have harrived : ∀ s ∈ sources, Arrived tag (intake s) (value s)
        (if s = source ∧ r = r then [] else channels s r) := by
      intro s hs
      have hne : s ≠ source := fun he => hsource (he ▸ hs)
      simpa [hne] using arrived s (by simp [hs])
    have hnext := run_bind (takeAll tag intake sources)
      (fun values => Pure.pure (value source :: values)) next
    apply (hfirst.trans (ih (fun s d => if s = source ∧ d = r then [] else channels s d)
      nodup.of_cons harrived ((Function.update_self ..).trans hnext))).congr
    · intro s d
      rfl
    · rw [Function.update_idem]
      congr 1
      funext s d
      by_cases hs : s = source
      · subst hs
        by_cases hd : d = r <;> simp [hd, hsource]
      · simp [hs]

end Halves

theorem nodup_others (me : Fin n) : (others me).Nodup :=
  (List.nodup_finRange n).filter _

theorem mem_others {me r : Fin n} : r ∈ others me ↔ r ≠ me := by
  simp [others]

section All

variable (journals : Fin n → List Event) (tag : Tag)

theorem leads_sends (outgoing : Fin n → Fin n → Option Payload)
    (next : Fin n → Except CommError Unit → Proc n α) :
    (Network.present journals (fun _ _ => []) fun r =>
        (sendAll tag (outgoing r) (others r)).run.bind (next r)).Leads
      (fun s d => if s = d then [] else parcel tag (outgoing s d))
      (Network.present journals (fun s d => if s = d then [] else parcel tag (outgoing s d))
        fun r => next r (.ok ())) := by
  -- In between, `ranks` are those that have not sent yet.
  have hall := Network.leads_each (fun ranks => Network.present journals
      (fun s d => if s ∈ ranks then [] else if s = d then [] else parcel tag (outgoing s d))
      (fun r => if r ∈ ranks then (sendAll tag (outgoing r) (others r)).run.bind (next r)
        else next r (.ok ())))
    (fun s d => if s = d then [] else parcel tag (outgoing s d)) ?_ (List.nodup_finRange n)
  · simpa only [List.mem_finRange, if_true, List.not_mem_nil, if_false] using hall
  · intro r rest hnodup
    have hr : r ∉ rest := (List.nodup_cons.mp hnodup).1
    have hsending : (if r ∈ r :: rest then
        (sendAll tag (outgoing r) (others r)).run.bind (next r) else next r (.ok ())) =
          (sendAll tag (outgoing r) (others r)).run.bind (next r) := if_pos (by simp)
    apply (leads_sendAll _ _ (nodup_others r) hsending).congr
    · intro s d
      by_cases hs : s = r
      · subst hs
        by_cases hd : s = d <;> simp [mem_others, hd, eq_comm]
      · simp [hs]
    · congr 1
      · funext s d
        by_cases hs : s = r
        · subst hs
          by_cases hd : s = d <;> simp [mem_others, hd, hr, eq_comm]
        · simp [hs]
      · funext r'
        by_cases hr' : r' = r
        · simp [hr', hr]
        · simp [hr']

theorem leads_takes {channels : Fin n → Fin n → List Envelope} {intake : Fin n → Fin n → Intake τ}
    {values : Fin n → Fin n → τ}
    (arrived : ∀ s r, Arrived tag (intake r s) (values r s) (channels s r))
    (next : Fin n → Except CommError (List τ) → Proc n α) :
    (Network.present journals channels fun r =>
        (takeAll tag (intake r) (List.finRange n)).run.bind (next r)).Leads (fun _ _ => [])
      (Network.resting journals fun r => next r (.ok ((List.finRange n).map (values r)))) := by
  -- In between, `ranks` are those that have not taken in yet.
  have hall := Network.leads_each (fun ranks => Network.present journals
      (fun s d => if d ∈ ranks then channels s d else [])
      (fun r => if r ∈ ranks then (takeAll tag (intake r) (List.finRange n)).run.bind (next r)
        else next r (.ok ((List.finRange n).map (values r)))))
    (fun _ _ => []) ?_ (List.nodup_finRange n)
  · simpa only [Network.resting, List.mem_finRange, if_true, List.not_mem_nil, if_false] using hall
  · intro r rest hnodup
    have hr : r ∉ rest := (List.nodup_cons.mp hnodup).1
    have htaking : (if r ∈ r :: rest then
        (takeAll tag (intake r) (List.finRange n)).run.bind (next r)
          else next r (.ok ((List.finRange n).map (values r)))) =
            (takeAll tag (intake r) (List.finRange n)).run.bind (next r) := if_pos (by simp)
    have harrived : ∀ s ∈ List.finRange n, Arrived tag (intake r s) (values r s)
        (if r ∈ r :: rest then channels s r else []) := by
      intro s _
      simpa using arrived s r
    apply (leads_takeAll _ _ (values r) (List.nodup_finRange n) harrived htaking).congr
    · intro s d
      simp
    · congr 1
      · funext s d
        by_cases hd : d = r
        · simp [hd, hr]
        · simp [hd]
      · funext r'
        by_cases hr' : r' = r
        · simp [hr', hr]
        · simp [hr']

end All

/-- All ranks complete a round in which each takes in what the others send. -/
theorem round_completes (tag : Tag) (outgoing : Fin n → Fin n → Option Payload)
    (intake : Fin n → Fin n → Intake τ) (values : Fin n → Fin n → τ)
    (arrived : ∀ s r, Arrived tag (intake r s) (values r s)
      (if s = r then [] else parcel tag (outgoing s r))) :
    Completes (fun r => round r tag (outgoing r) (intake r))
      (fun s d => if s = d then [] else parcel tag (outgoing s d))
      fun r => (List.finRange n).map (values r) := by
  intro α journals next
  simp only [round_eq, run_bind]
  have hsend := leads_sends journals tag outgoing fun r =>
    resume (fun _ => takeAll tag (intake r) (List.finRange n)) (next r)
  have htake := leads_takes journals tag arrived next
  refine ⟨journals, ?_⟩
  apply (hsend.trans htake).congr
  · intro s d
    exact List.append_nil _
  · rfl

end Routine

end Vicinity
