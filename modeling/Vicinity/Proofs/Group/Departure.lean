import Mathlib
import Vicinity.Proofs.Group.Round

/-!
# Ranks that leave when they have ended

A group that ends with every rank done and nothing under way does so as well
when ranks leave as soon as they have ended, with what they have or broken off
without it. Nobody sends to a rank that has ended, for the letter would never
be taken, and nobody waits for a letter of one that has sent all of its own.
-/

set_option autoImplicit false

namespace Vicinity

variable {n : Nat} {α β : Type}

namespace Proc

def ending (leaves : Bool) (value : α) : Proc n α :=
  if leaves then .leave (.done value) else .done value

inductive Over : Proc n α → Prop where
  | done (value : α) : Over (.done value)
  | abort : Over .abort

inductive Closing : Proc n α → Prop where
  | stays {p : Proc n α} (h : p.Over) : Closing p
  | leaves {p : Proc n α} (h : p.Over) : Closing (.leave p)

def departs : Proc n α → Bool
  | leave _ => true
  | _ => false

def closed : Proc n α → Proc n α
  | leave next => next
  | p => p

theorem Closing.cases {p : Proc n α} (h : p.Closing) :
    (p.departs = false ∧ p.closed = p ∧ p.Over) ∨
      (p.departs = true ∧ p = .leave p.closed ∧ p.closed.Over) := by
  cases h with
  | stays h =>
    left
    cases h with
    | done value => exact ⟨rfl, rfl, .done value⟩
    | abort => exact ⟨rfl, rfl, .abort⟩
  | leaves h => exact .inr ⟨rfl, rfl, h⟩

theorem ending_closing (leaves : Bool) (value : α) : (ending leaves value : Proc n α).Closing := by
  cases leaves with
  | false => exact .stays (.done value)
  | true => exact .leaves (.done value)

end Proc

namespace Network

/-- Steps lead to an end at which every rank is there and done, and nothing is
under way. -/
def Finishing (g : Network n α) : Prop :=
  ∃ schedule final, g.follow schedule = some final ∧ final.AllHere ∧
    (∀ s d, final.channel s d = []) ∧ ∀ r, ∃ value, final.programs.get r = .done value

theorem step?_of_over {g : Network n α} {r : Fin n} (h : (g.programs.get r).Over) :
    g.step? r = none := by
  unfold step?
  cases hp : g.programs.get r with
  | done value => rfl
  | abort => rfl
  | _ =>
    rw [hp] at h
    cases h

theorem quiet_of_done {g : Network n α} (h : ∀ r, ∃ value, g.programs.get r = .done value) :
    g.Quiet := by
  intro r
  obtain ⟨value, hvalue⟩ := h r
  rw [step?, hvalue]

namespace Finishing

variable {g g' : Network n α}

theorem step (h : g.Finishing) {r : Fin n} (hr : g.step? r = some g') : g'.Finishing := by
  obtain ⟨schedule, final, hfollow, here, hempty, hdone⟩ := h
  obtain ⟨rest, hrest, -⟩ := follow_first hfollow (quiet_of_done hdone) here hr
  exact ⟨rest, final, hrest, here, hempty, hdone⟩

theorem allHere (h : g.Finishing) : g.AllHere := by
  obtain ⟨schedule, final, hfollow, here, -⟩ := h
  exact follow_here hfollow here

theorem stays (h : g.Finishing) (r : Fin n) (next : Proc n α) :
    g.programs.get r ≠ .leave next := by
  obtain ⟨schedule, final, hfollow, here, -, hdone⟩ := h
  exact follow_stays hfollow (quiet_of_done hdone) here r next

theorem step?_eq (h : g.Finishing) (r : Fin n) :
    g.step? r = (g.offer? r).map fun offer => g.perform r offer.1 offer.2 :=
  step?_eq_offer? h.allHere (h.stays r)

/-- What every step keeps still holds at the end. -/
theorem persists {P : Network n α → Prop} (h : g.Finishing) (hP : P g)
    (hstep : ∀ g : Network n α, g.Finishing → P g → ∀ r deed p,
      g.offer? r = some (deed, p) → P (g.perform r deed p)) :
    ∃ final, P final ∧ (∀ s d, final.channel s d = []) ∧
      ∀ r, ∃ value, final.programs.get r = .done value := by
  obtain ⟨schedule, final, hfollow, here, hempty, hdone⟩ := h
  have hkeeps : ∀ {g g' : Network n α} {r : Fin n}, g.Finishing ∧ P g → g.step? r = some g' →
      g'.Finishing ∧ P g' := by
    rintro g g' r ⟨hg, hP⟩ hr
    refine ⟨hg.step hr, ?_⟩
    rw [hg.step?_eq] at hr
    obtain ⟨⟨deed, p⟩, hoffer, rfl⟩ := Option.map_eq_some_iff.mp hr
    exact hstep g hg hP r deed p hoffer
  have hg : g.Finishing := ⟨schedule, final, hfollow, here, hempty, hdone⟩
  exact ⟨final, (follow_keeps hkeeps ⟨hg, hP⟩ hfollow).2, hempty, hdone⟩

theorem not_done_of_send (h : g.Finishing) {s d : Fin n} {letter : Envelope}
    {next : Except CommError Unit → Proc n α} (hs : g.programs.get s = .send d letter next)
    (value : α) : g.programs.get d ≠ .done value := by
  intro hd
  -- A letter on its way to a rank that has ended stays there.
  let Stuck (g : Network n α) : Prop := g.programs.get d = .done value ∧
    (g.programs.get s = .send d letter next ∨ g.channel s d ≠ [])
  have hstep : ∀ g : Network n α, g.Finishing → Stuck g → ∀ r deed p,
      g.offer? r = some (deed, p) → Stuck (g.perform r deed p) := by
    intro g _ hstuck r deed p hoffer
    obtain ⟨hd, hstuck⟩ := hstuck
    have hdr : d ≠ r := by
      rintro rfl
      simp [offer?, hd] at hoffer
    constructor
    · rw [programs_perform, if_neg hdr, hd]
    · rw [programs_perform, channel_perform]
      by_cases hsr : s = r
      · subst hsr
        right
        rcases hstuck with hsend | hletter
        · simp only [offer?, hsend, Option.some.injEq, Prod.mk.injEq] at hoffer
          simp [← hoffer.1, Deed.edit]
        · cases deed with
          | note event => exact hletter
          | take source => simpa [Deed.edit, hdr] using hletter
          | post dest letter' => by_cases hdest : d = dest <;> simp [Deed.edit, hdest, hletter]
      · rw [if_neg hsr]
        cases deed with
        | note event => exact hstuck
        | take source => simpa [Deed.edit, hdr] using hstuck
        | post dest letter' => simpa [Deed.edit, hsr] using hstuck
  obtain ⟨final, ⟨-, hstuck⟩, hempty, hdone⟩ := h.persists (P := Stuck) ⟨hd, .inl hs⟩ hstep
  rcases hstuck with hsend | hletter
  · obtain ⟨value', hvalue'⟩ := hdone s
    rw [hvalue'] at hsend
    cases hsend
  · exact hletter (hempty s d)

theorem not_done_of_receive (h : g.Finishing) {s r : Fin n} {tag : Tag}
    {next : Except CommError Payload → Proc n α} (hr : g.programs.get r = .receive s tag next)
    (hempty : g.channel s r = []) (value : α) : g.programs.get s ≠ .done value := by
  intro hs
  let Stuck (g : Network n α) : Prop := g.programs.get s = .done value ∧
    g.programs.get r = .receive s tag next ∧ g.channel s r = []
  have hstep : ∀ g : Network n α, g.Finishing → Stuck g → ∀ q deed p,
      g.offer? q = some (deed, p) → Stuck (g.perform q deed p) := by
    intro g _ hstuck q deed p hoffer
    obtain ⟨hs, hr, hempty⟩ := hstuck
    have hsq : s ≠ q := by
      rintro rfl
      simp [offer?, hs] at hoffer
    have hrq : r ≠ q := by
      rintro rfl
      simp [offer?, hr, hempty] at hoffer
    refine ⟨by rw [programs_perform, if_neg hsq, hs], by rw [programs_perform, if_neg hrq, hr], ?_⟩
    rw [channel_perform, hempty]
    cases deed <;> simp [Deed.edit, hsq]
  obtain ⟨final, ⟨-, hwaits, -⟩, -, hdone⟩ := h.persists (P := Stuck) ⟨hs, hr, hempty⟩ hstep
  obtain ⟨value', hvalue'⟩ := hdone r
  rw [hvalue'] at hwaits
  cases hwaits

theorem not_awaitLeft (h : g.Finishing) (r peer : Fin n) (next : Proc n α) :
    g.programs.get r ≠ .awaitLeft peer next := by
  intro hr
  have hstep : ∀ g : Network n α, g.Finishing → g.programs.get r = .awaitLeft peer next →
      ∀ q deed p, g.offer? q = some (deed, p) →
        (g.perform q deed p).programs.get r = .awaitLeft peer next := by
    intro g _ hr q deed p hoffer
    have hq : r ≠ q := by
      rintro rfl
      simp [offer?, hr] at hoffer
    rw [programs_perform, if_neg hq, hr]
  obtain ⟨final, hwaits, -, hdone⟩ := h.persists hr hstep
  obtain ⟨value, hvalue⟩ := hdone r
  rw [hvalue] at hwaits
  cases hwaits

end Finishing

/-- The group `h` does what `g` does, but that a rank goes on to close when it
has ended, and may have left since. -/
structure Shadows (close : Fin n → α → Proc n β) (g : Network n α) (h : Network n β) : Prop where
  closing : ∀ r value, (close r value).Closing
  channel : ∀ s d, h.channel s d = g.channel s d
  journals : ∀ r, h.journals.get r = g.journals.get r
  rank : ∀ r, (h.left.get r = false ∧ h.programs.get r = (g.programs.get r).bind (close r)) ∨
    (h.left.get r = true ∧ ∃ value, g.programs.get r = .done value ∧
      (close r value).departs = true ∧ h.programs.get r = (close r value).closed)

def gone (h : Network n β) : Nat := (List.finRange n).countP fun r => h.left.get r

def departed (g : Network n α) (closings : Fin n → Proc n β) : Network n β where
  programs := Vector.ofFn fun r => (closings r).closed
  channels := g.channels
  left := Vector.ofFn fun r => (closings r).departs
  journals := g.journals

@[simp] theorem programs_departed (g : Network n α) (closings : Fin n → Proc n β) (r : Fin n) :
    (g.departed closings).programs.get r = (closings r).closed := by
  simp [departed, Vector.get_eq_getElem]

@[simp] theorem left_departed (g : Network n α) (closings : Fin n → Proc n β) (r : Fin n) :
    (g.departed closings).left.get r = (closings r).departs := by
  simp [departed, Vector.get_eq_getElem]

namespace Shadows

variable {close : Fin n → α → Proc n β} {g g' : Network n α} {h h' : Network n β} {r : Fin n}

theorem here_of_not_done (hs : Shadows close g h) (hr : ∀ value, g.programs.get r ≠ .done value) :
    h.left.get r = false ∧ h.programs.get r = (g.programs.get r).bind (close r) := by
  rcases hs.rank r with hhere | ⟨-, value, hdone, -⟩
  · exact hhere
  · exact (hr value hdone).elim

theorem perform (hs : Shadows close g h) (hr : h.left.get r = false) (deed : Deed n)
    (p : Proc n α) : Shadows close (g.perform r deed p) (h.perform r deed (p.bind (close r))) := by
  constructor
  · exact hs.closing
  · intro s d
    rw [channel_perform, channel_perform, hs.channel]
  · intro s
    rw [journals_perform, journals_perform, hs.journals]
  · intro s
    rw [left_perform, programs_perform, programs_perform]
    by_cases hsr : s = r
    · subst hsr
      simp [hr]
    · simpa [hsr] using hs.rank s

/-- Until it is done a rank can do the same in both groups. -/
theorem step?_eq (hs : Shadows close g h) (hg : g.Finishing)
    (hr : ∀ value, g.programs.get r ≠ .done value) :
    h.step? r = (g.offer? r).map fun offer =>
      h.perform r offer.1 (offer.2.bind (close r)) := by
  have hprogram := (hs.here_of_not_done hr).2
  have present : ∀ s, (∀ value, g.programs.get s ≠ .done value) → h.left.get s = false :=
    fun s hdone => (hs.here_of_not_done hdone).1
  cases hp : g.programs.get r with
  | done value => exact (hr value hp).elim
  | send dest letter next =>
    rw [hp, Proc.bind] at hprogram
    simp [step?, offer?, hprogram, hp, present dest (hg.not_done_of_send hp), Network.perform]
  | receive source tag next =>
    rw [hp, Proc.bind] at hprogram
    cases hchannel : g.channel source r with
    | nil =>
      have hleft := present source (hg.not_done_of_receive hp hchannel)
      simp [step?, offer?, hprogram, hp, hs.channel, hchannel, hleft]
    | cons letter rest =>
      simp [step?, offer?, hprogram, hp, hs.channel, hchannel, Network.perform]
  | awaitLeft peer next => exact (hg.not_awaitLeft r peer next hp).elim
  | leave next => exact (hg.stays r next hp).elim
  | note event next =>
    rw [hp, Proc.bind] at hprogram
    simp [step?, offer?, hprogram, hp, Network.perform]
  | abort =>
    rw [hp, Proc.bind] at hprogram
    simp [step?, offer?, hprogram, hp]

theorem letters_eq (hs : Shadows close g h) (d : Fin n) :
    (h.programs.get r).letters d = (g.programs.get r).letters d := by
  have hover : ∀ p : Proc n β, p.Over → p.letters d = [] := by
    intro p hp
    cases hp <;> rfl
  rcases hs.rank r with ⟨-, hprogram⟩ | ⟨-, value, hdone, hdeparts, hclosed⟩
  · rw [hprogram]
    cases hp : g.programs.get r with
    | done value =>
      rw [Proc.bind]
      rcases (hs.closing r value).cases with ⟨-, -, hstays⟩ | ⟨-, hleaves, -⟩
      · exact hover _ hstays
      · rw [hleaves]
        rfl
    | _ => rfl
  · rcases (hs.closing r value).cases with ⟨hstays, -⟩ | ⟨-, -, hend⟩
    · rw [hdeparts] at hstays
      cases hstays
    · rw [hclosed, hdone, hover _ hend]
      rfl

theorem step (hs : Shadows close g h) (hg : g.Finishing) (hr : g.step? r = some g') :
    ∃ h', h.step? r = some h' ∧ Shadows close g' h' ∧ h'.left = h.left := by
  have hbusy : ∀ value, g.programs.get r ≠ .done value := by
    intro value hdone
    simp [step?, hdone] at hr
  rw [hg.step?_eq] at hr
  obtain ⟨⟨deed, p⟩, hoffer, rfl⟩ := Option.map_eq_some_iff.mp hr
  refine ⟨_, by rw [hs.step?_eq hg hbusy, hoffer, Option.map_some],
    hs.perform (hs.here_of_not_done hbusy).1 deed p, left_perform ..⟩

theorem leave (hs : Shadows close g h) {value : α} (hdone : g.programs.get r = .done value)
    (hdeparts : (close r value).departs = true) (hleft : h.left.get r = false) :
    ∃ h', h.step? r = some h' ∧ Shadows close g h' ∧
      ∀ s, h'.left.get s = if s = r then true else h.left.get s := by
  have hprogram : h.programs.get r = .leave (close r value).closed := by
    rcases hs.rank r with ⟨-, hprogram⟩ | ⟨hgone, -⟩
    · rcases (hs.closing r value).cases with ⟨hstays, -⟩ | ⟨-, hleaves, -⟩
      · rw [hdeparts] at hstays
        cases hstays
      · rw [hprogram, hdone, Proc.bind, ← hleaves]
    · rw [hleft] at hgone
      cases hgone
  have hstep : h.step? r =
      some ({ h with left := h.left.set r true r.isLt }.setProgram r (close r value).closed) := by
    rw [step?, hprogram]
  refine ⟨_, hstep, ⟨hs.closing, hs.channel, hs.journals, ?_⟩, fun s => get_set h.left r s true⟩
  intro s
  rw [programs_setProgram, left_setProgram, get_set]
  by_cases hsr : s = r
  · subst hsr
    exact .inr ⟨if_pos rfl, value, hdone, hdeparts, if_pos rfl⟩
  · simpa [hsr] using hs.rank s

/-- A step is one of the group without departures, or a rank leaves at its end. -/
theorem step_cases (hs : Shadows close g h) (hg : g.Finishing) (hr : h.step? r = some h') :
    (∃ g', g.step? r = some g' ∧ Shadows close g' h' ∧ h'.left = h.left) ∨
      (Shadows close g h' ∧ (∀ d, (g.programs.get r).letters d = []) ∧ h.left.get r = false ∧
        ∀ s, h'.left.get s = if s = r then true else h.left.get s) := by
  by_cases hdone : ∃ value, g.programs.get r = .done value
  · right
    obtain ⟨value, hdone⟩ := hdone
    have hclosing := (hs.closing r value).cases
    have hbusy : ¬ (h.programs.get r).Over := fun hover => by simp [step?_of_over hover] at hr
    rcases hs.rank r with ⟨hleft, hprogram⟩ | ⟨-, value', hdone', hdeparts, hclosed⟩
    · rw [hdone, Proc.bind] at hprogram
      rcases hclosing with ⟨-, -, hstays⟩ | ⟨hdeparts, -, -⟩
      · exact (hbusy (hprogram ▸ hstays)).elim
      · obtain ⟨h₁, hstep, hshadow, hgone⟩ := hs.leave hdone hdeparts hleft
        obtain rfl : h₁ = h' := Option.some.inj (hstep.symm.trans hr)
        exact ⟨hshadow, fun d => by rw [hdone]; rfl, hleft, hgone⟩
    · obtain rfl : value = value' := Proc.done.inj (hdone.symm.trans hdone')
      rcases hclosing with ⟨hstays, -⟩ | ⟨-, -, hend⟩
      · rw [hdeparts] at hstays
        cases hstays
      · exact (hbusy (hclosed ▸ hend)).elim
  · left
    push Not at hdone
    rw [hs.step?_eq hg hdone] at hr
    obtain ⟨⟨deed, p⟩, hoffer, rfl⟩ := Option.map_eq_some_iff.mp hr
    exact ⟨_, by rw [hg.step?_eq, hoffer, Option.map_some],
      hs.perform (hs.here_of_not_done hdone).1 deed p, left_perform ..⟩

end Shadows

theorem gone_congr {h h' : Network n β} (hleft : h'.left = h.left) : h'.gone = h.gone := by
  rw [gone, gone, hleft]

theorem gone_leave {h h' : Network n β} {r : Fin n} (hr : h.left.get r = false)
    (hleft : ∀ s, h'.left.get s = if s = r then true else h.left.get s) :
    h'.gone = h.gone + 1 := by
  have hcount : ∀ ranks : List (Fin n), ranks.Nodup → ranks.countP (fun s => h'.left.get s) =
      ranks.countP (fun s => h.left.get s) + if r ∈ ranks then 1 else 0 := by
    intro ranks nodup
    induction ranks with
    | nil => rfl
    | cons s ranks ih =>
      have hs : s ∉ ranks := (List.nodup_cons.mp nodup).1
      rw [List.countP_cons, List.countP_cons, ih nodup.of_cons, hleft]
      by_cases hsr : s = r
      · subst hsr
        simp [hs, hr]
      · simp [hsr, Ne.symm hsr]
        omega
  simpa [gone] using hcount (List.finRange n) (List.nodup_finRange n)

namespace Shadows

variable {close : Fin n → α → Proc n β} {g g' : Network n α} {h h' : Network n β}
  {values : Fin n → α}

/-- A run with departures is a run without them, apart from the departures. -/
theorem follow {schedule : List (Fin n)} (hs : Shadows close g h) (hg : g.Finishing)
    (hrun : h.follow schedule = some h') : ∃ schedule' g', g.follow schedule' = some g' ∧
      Shadows close g' h' ∧ g'.Finishing ∧
      schedule.length + h.gone = schedule'.length + h'.gone ∧
      ∀ s d, h.sent schedule s d = g.sent schedule' s d := by
  induction schedule generalizing g h with
  | nil =>
    cases hrun
    exact ⟨[], g, rfl, hs, hg, by simp, fun s d => rfl⟩
  | cons r rest ih =>
    obtain ⟨h₁, hr, hrest⟩ := Option.bind_eq_some_iff.mp hrun
    rcases hs.step_cases hg hr with ⟨g₁, hstep, hs₁, hleft⟩ | ⟨hs₁, hsilent, hhere, hleft⟩
    · obtain ⟨schedule', g', hfollow, hs', hg', hlength, hsent⟩ := ih hs₁ (hg.step hstep) hrest
      refine ⟨r :: schedule', g', by rw [Network.follow, hstep, Option.bind_some, hfollow], hs',
        hg', ?_, fun s d => ?_⟩
      · rw [gone_congr hleft] at hlength
        simp only [List.length_cons]
        omega
      · simp only [sent, hr, hstep, Option.elim_some, hsent, hs.letters_eq]
    · obtain ⟨schedule', g', hfollow, hs', hg', hlength, hsent⟩ := ih hs₁ hg hrest
      refine ⟨schedule', g', hfollow, hs', hg', ?_, fun s d => ?_⟩
      · rw [gone_leave hhere hleft] at hlength
        simp only [List.length_cons]
        omega
      · simp [sent, hr, hsent, hs.letters_eq, hsilent]

/-- A run without departures is also one of a group with departures. -/
theorem lift {schedule : List (Fin n)} (hs : Shadows close g h) (hg : g.Finishing)
    (hrun : g.follow schedule = some g') : ∃ h', h.follow schedule = some h' ∧
      Shadows close g' h' ∧ h'.gone = h.gone ∧
      ∀ s d, h.sent schedule s d = g.sent schedule s d := by
  induction schedule generalizing g h with
  | nil =>
    cases hrun
    exact ⟨h, rfl, hs, rfl, fun s d => rfl⟩
  | cons r rest ih =>
    obtain ⟨g₁, hr, hrest⟩ := Option.bind_eq_some_iff.mp hrun
    obtain ⟨h₁, hstep, hs₁, hleft⟩ := hs.step hg hr
    obtain ⟨h', hfollow, hs', hgone, hsent⟩ := ih hs₁ (hg.step hr) hrest
    refine ⟨h', by rw [Network.follow, hstep, Option.bind_some, hfollow], hs',
      hgone.trans (gone_congr hleft), fun s d => ?_⟩
    simp only [sent, hr, hstep, Option.elim_some, hsent, hs.letters_eq]

/-- Once all are done, those that are to leave can do so one after the other. -/
theorem leave_all (hs : Shadows close g h) (hdone : ∀ r, g.programs.get r = .done (values r))
    (ranks : List (Fin n))
    (hranks : ∀ r, r ∉ ranks → h.left.get r = (close r (values r)).departs) :
    ∃ schedule h', h.follow schedule = some h' ∧ Shadows close g h' ∧
      (∀ r, h'.left.get r = (close r (values r)).departs) ∧ schedule.length + h.gone = h'.gone ∧
      ∀ s d, h.sent schedule s d = [] := by
  induction ranks generalizing h with
  | nil => exact ⟨[], h, rfl, hs, fun r => hranks r (by simp), by simp, fun s d => rfl⟩
  | cons r ranks ih =>
    by_cases hr : h.left.get r = (close r (values r)).departs
    · apply ih hs
      intro s hsranks
      by_cases hsr : s = r
      · rw [hsr, hr]
      · exact hranks s (by simp [hsr, hsranks])
    · have hstate : h.left.get r = false ∧ (close r (values r)).departs = true := by
        rcases hs.rank r with ⟨hleft, -⟩ | ⟨hleft, value, hvalue, hdeparts, -⟩
        · exact ⟨hleft, by simpa [hleft] using Ne.symm hr⟩
        · obtain rfl : values r = value := Proc.done.inj ((hdone r).symm.trans hvalue)
          exact (hr (hleft.trans hdeparts.symm)).elim
      obtain ⟨h₁, hstep, hs₁, hleft⟩ := hs.leave (hdone r) hstate.2 hstate.1
      have hranks₁ : ∀ s, s ∉ ranks → h₁.left.get s = (close s (values s)).departs := by
        intro s hsranks
        rw [hleft]
        by_cases hsr : s = r
        · rw [if_pos hsr, hsr, hstate.2]
        · rw [if_neg hsr]
          exact hranks s (by simp [hsr, hsranks])
      obtain ⟨schedule, h', hfollow, hs', hall, hlength, hsent⟩ := ih hs₁ hranks₁
      refine ⟨r :: schedule, h', by rw [Network.follow, hstep, Option.bind_some, hfollow], hs',
        hall, ?_, fun s d => ?_⟩
      · rw [gone_leave hstate.1 hleft] at hlength
        simp only [List.length_cons]
        omega
      · simp only [sent, hstep, Option.elim_some, hsent, hs.letters_eq, hdone]
        simp [Proc.letters]

theorem eq_departed (hs : Shadows close g h) (hdone : ∀ r, g.programs.get r = .done (values r))
    (hleft : ∀ r, h.left.get r = (close r (values r)).departs) :
    h = g.departed fun r => close r (values r) := by
  refine ext_get (fun r => ?_) hs.channel (fun r => ?_) hs.journals
  · rw [programs_departed]
    rcases hs.rank r with ⟨hhere, hprogram⟩ | ⟨-, value, hvalue, -, hclosed⟩
    · rw [hprogram, hdone, Proc.bind]
      rcases (hs.closing r (values r)).cases with ⟨-, hstays, -⟩ | ⟨hdeparts, -⟩
      · exact hstays.symm
      · rw [hleft, hdeparts] at hhere
        cases hhere
    · rw [hclosed, Proc.done.inj ((hdone r).symm.trans hvalue)]
  · rw [hleft, left_departed]

end Shadows

theorem gone_departed (g : Network n α) (closings : Fin n → Proc n β) :
    (g.departed closings).gone = (List.finRange n).countP fun r => (closings r).departs := by
  simp [gone]

theorem start_shadows {close : Fin n → α → Proc n β} (hclose : ∀ r value, (close r value).Closing)
    (processes : Fin n → Proc n α) :
    Shadows close (start processes) (start fun r => (processes r).bind (close r)) := by
  simp only [start_eq]
  constructor
  · exact hclose
  · intro s d
    simp [resting]
  · intro r
    simp [resting]
  · intro r
    simp [resting]

/-- Closing changes nothing for a group that ends with all done and nothing
under way. -/
theorem Settles.departed {processes : Fin n → Proc n α} {final : Network n α}
    {letters : Fin n → Fin n → List Envelope} (h : (start processes).Settles letters final)
    (here : final.AllHere) (hempty : ∀ s d, final.channel s d = []) {values : Fin n → α}
    (hdone : ∀ r, final.programs.get r = .done (values r)) {close : Fin n → α → Proc n β}
    (hclose : ∀ r value, (close r value).Closing) :
    (start fun r => (processes r).bind (close r)).Settles letters
      (final.departed fun r => close r (values r)) := by
  have hshadow := start_shadows hclose processes
  obtain ⟨steps, hsteps⟩ := h.goes_on
  have hfinishing : (start processes).Finishing := by
    obtain ⟨rest, hrest, -⟩ := hsteps [] _ rfl
    exact ⟨rest, final, hrest, here, hempty, fun r => ⟨values r, hdone r⟩⟩
  have hgone : (start fun r => (processes r).bind (close r)).gone = 0 := by
    simp [gone, start, Vector.get_eq_getElem]
  have hquiet : (final.departed fun r => close r (values r)).Quiet := by
    intro r
    apply step?_of_over
    rw [programs_departed]
    rcases (hclose r (values r)).cases with ⟨-, hstays, hover⟩ | ⟨-, -, hover⟩
    · rwa [hstays]
    · exact hover
  refine ⟨hquiet, steps + (List.finRange n).countP fun r => (close r (values r)).departs, ?_⟩
  intro schedule h' hrun
  obtain ⟨schedule', g', hfollow, hs', hg', hlength, hsent⟩ := hshadow.follow hfinishing hrun
  obtain ⟨rest, hrest, hlength', hsent'⟩ := hsteps schedule' g' hfollow
  obtain ⟨h₁, hfollow₁, hs₁, hgone₁, hsent₁⟩ := hs'.lift hg' hrest
  obtain ⟨leaving, h₂, hfollow₂, hs₂, hleft, hlength₂, hsent₂⟩ :=
    hs₁.leave_all hdone (List.finRange n) fun r hr => (hr (List.mem_finRange r)).elim
  obtain rfl := hs₂.eq_departed hdone hleft
  rw [gone_departed] at hlength₂
  refine ⟨rest ++ leaving, by rw [follow_append, hfollow₁, Option.bind_some, hfollow₂], ?_, ?_⟩
  · rw [List.length_append]
    omega
  · intro s d
    rw [sent_append hfollow₁, hsent, hsent₁, hsent₂, List.append_nil, hsent']

end Network

namespace Proc.Completes

variable {processes : Fin n → Proc n α} {letters : Fin n → Fin n → List Envelope}
  {values : Fin n → α}

/-- However their steps interleave, processes that complete do so on every
rank, which then closes, with what it has or without it. -/
theorem settles_closing (h : Completes processes letters values) {close : Fin n → α → Proc n β}
    (hclose : ∀ r value, (close r value).Closing) :
    ∃ final, (Network.start fun r => (processes r).bind (close r)).Settles letters final ∧
      (∀ r, final.left.get r = (close r (values r)).departs) ∧
      (∀ s d, final.channel s d = []) ∧
      ∀ r, final.programs.get r = (close r (values r)).closed := by
  obtain ⟨final, hsettles, here, hempty, hdone⟩ := h.rests
  exact ⟨_, hsettles.departed here hempty hdone hclose, Network.left_departed final _, hempty,
    Network.programs_departed final _⟩

/-- The same where all keep their values and only some leave. -/
theorem settles_ending (h : Completes processes letters values) (leaves : Fin n → Bool) :
    ∃ final, (Network.start fun r => (processes r).bind (ending (leaves r))).Settles
        letters final ∧
      (∀ r, final.left.get r = leaves r) ∧ (∀ s d, final.channel s d = []) ∧
      ∀ r, final.programs.get r = .done (values r) := by
  obtain ⟨final, hsettles, hleft, hempty, hdone⟩ :=
    h.settles_closing fun r => ending_closing (leaves r)
  refine ⟨final, hsettles, fun r => ?_, hempty, fun r => ?_⟩
  · rw [hleft]
    cases leaves r <;> rfl
  · rw [hdone]
    cases leaves r <;> rfl

end Proc.Completes

end Vicinity
