import Mathlib
import Vicinity.Proofs.Group.Confluence
import Vicinity.Proofs.Group.Orderly

/-!
# Programs of a group

Finite programs made of the operations of a group, each with what to do next
for every result. However their steps interleave, a group of such programs
comes to rest in one state: the same results on every rank, the same ranks
waiting for the same peers, and the same letters under way. A limit on waiting
that takes effect only at rest changes nothing in this.
-/

set_option autoImplicit false

namespace Vicinity

inductive Operation (n : Nat) {B : Type} (T : B → Type) where
  | send (dest : Nat) (tag : Tag) (payload : Payload)
  | receive (source : Nat) (tag : Tag)
  | sendValue (dest : Nat) (tag : Tag) (b : B) (value : T b)
  | receiveValue (source : Nat) (tag : Tag) (b : B)
  | barrier
  | allGather (b : B) (value : T b)
  | allReduce (b : B) (value : T b) (combine : T b → T b → T b)
  | exchangeCounts (counts : List Nat)
  | plan (dests : List Nat)
  | distribute (plan : Plan n) (b : B) (values : List (T b))

inductive Outcome (n : Nat) {B : Type} (T : B → Type) where
  | nothing
  | bytes (payload : Payload)
  | value (b : B) (value : T b)
  | values (b : B) (values : List (T b))
  | counts (counts : List Nat)
  | plan (plan : Plan n)

inductive Program (n : Nat) {B : Type} (T : B → Type) where
  | stop
  | perform (operation : Operation n T)
      (next : Except CommError (Outcome n T) → Program n T)

variable {n : Nat} {B : Type} {T : B → Type} [(b : B) → Codec (T b)]

def Operation.run (me : Fin n) : Operation n T → Routine n CommError (Outcome n T)
  | send dest tag payload => do
    Routine.send (← Routine.rank dest) tag payload
    pure .nothing
  | receive source tag => do
    pure (.bytes (← Routine.receive (← Routine.rank source) tag))
  | sendValue dest tag _ value => do
    Routine.sendValue (← Routine.rank dest) tag value
    pure .nothing
  | receiveValue source tag b => do
    pure (.value b (← Routine.receiveValue (← Routine.rank source) tag))
  | barrier => do
    Routine.barrier me
    pure .nothing
  | allGather b value => do pure (.values b (← Routine.allGather me value))
  | allReduce b value combine => do pure (.value b (← Routine.allReduce me value combine))
  | exchangeCounts counts => do pure (.counts (← Routine.exchangeCounts me counts))
  | plan dests => do pure (.plan (← Plan.build me dests))
  | distribute p b values => do pure (.values b (← p.distribute values))

/-- The process of a program, which ends with all results. After a receive
that ran out of time nothing more is run. -/
def Program.proc (me : Fin n) :
    Program n T → List (Except CommError (Outcome n T)) →
      Proc n (List (Except CommError (Outcome n T)))
  | stop, results => .done results
  | perform operation next, results => (operation.run me).run.bind fun
    | .error (.timeout peer) => .done (results ++ [.error (.timeout peer)])
    | result => (next result).proc me (results ++ [result])

def Program.group (programs : Fin n → Program n T) :
    Network n (List (Except CommError (Outcome n T))) :=
  Network.start fun r => (programs r).proc r []

def Operation.Posts (tags : Tag → Prop) : Operation n T → Prop
  | send _ tag _ => tags tag
  | sendValue _ tag _ _ => tags tag
  | _ => True

omit [(b : B) → Codec (T b)] in
theorem Operation.posts_any (operation : Operation n T) : operation.Posts fun _ => True := by
  cases operation <;> trivial

theorem Routine.Conversational.operation {tags : Tag → Prop}
    {P : (τ : Type) → Routine n CommError τ → Prop} (h : Conversational tags P) {me : Fin n}
    (hbarrier : P Unit (Routine.barrier me)) {op : Operation n T} (hop : op.Posts tags) :
    P (Outcome n T) (op.run me) := by
  cases op with
  | send dest tag payload =>
    exact h.bind (h.rank dest) fun _ => h.bind (h.send _ payload hop) fun _ => h.pure _
  | receive source tag =>
    exact h.bind (h.rank source) fun _ => h.bind (h.receive _ tag) fun _ => h.pure _
  | sendValue dest tag b value =>
    exact h.bind (h.rank dest) fun _ => h.bind (h.send _ _ hop) fun _ => h.pure _
  | receiveValue source tag b =>
    exact h.bind (h.rank source) fun _ => h.bind (h.receiveValue _ tag) fun _ => h.pure _
  | barrier => exact h.bind hbarrier fun _ => h.pure _
  | allGather b value => exact h.bind (h.allGather me value) fun _ => h.pure _
  | allReduce b value combine => exact h.bind (h.allReduce me value combine) fun _ => h.pure _
  | exchangeCounts counts => exact h.bind (h.exchangeCounts me counts) fun _ => h.pure _
  | plan dests => exact h.bind (h.plan me dests) fun _ => h.pure _
  | distribute p b values => exact h.bind (h.distribute p values) fun _ => h.pure _

def Program.Ends (peer : Option (Fin n)) (value : List (Except CommError (Outcome n T))) : Prop :=
  ∃ results, (∀ result ∈ results, Prompt result) ∧
    value = results ++ peer.toList.map fun source => .error (.timeout source)

theorem Program.proc_orderly (me : Fin n) (program : Program n T)
    {results : List (Except CommError (Outcome n T))} (h : ∀ result ∈ results, Prompt result) :
    (program.proc me results).Orderly Ends := by
  induction program generalizing results with
  | stop => exact ⟨results, h, by simp⟩
  | perform operation next ih =>
    rw [proc]
    apply Proc.Orderly.bind
      (Routine.Orderly.conversational.operation (.barrier me) operation.posts_any)
    · intro result hresult
      split
      · next peer => cases hresult _ rfl
      · apply ih
        intro r hr
        rcases List.mem_append.mp hr with hr | hr
        · exact h r hr
        · rw [List.mem_singleton.mp hr]
          exact hresult
    · intro peer result hresult
      cases hresult
      exact ⟨_, rfl, results, h, rfl⟩

namespace Network

variable {α : Type} {holds : Option (Fin n) → α → Prop}

def Orderly (holds : Option (Fin n) → α → Prop) (g : Network n α) : Prop :=
  g.AllHere ∧ ∀ r, (g.programs.get r).Orderly holds

theorem start_orderly {programs : Fin n → Proc n α} (h : ∀ r, (programs r).Orderly holds) :
    (start programs).Orderly holds :=
  ⟨fun r => by simp [start, Vector.get_eq_getElem], fun r => by
    simpa [start, Vector.get_eq_getElem] using h r⟩

theorem step?_orderly {g g' : Network n α} {r : Fin n} (hg : g.Orderly holds)
    (h : g.step? r = some g') : g'.Orderly holds := by
  have hr := hg.2 r
  have stays : ∀ next, g.programs.get r ≠ .leave next := by
    intro next hp
    rw [hp] at hr
    exact hr
  rw [step?_eq_offer? hg.1 stays] at h
  obtain ⟨⟨deed, p⟩, hoffer, rfl⟩ := Option.map_eq_some_iff.mp h
  have hp : p.Orderly holds := by
    unfold offer? at hoffer
    split at hoffer
    · next hprogram =>
      cases hoffer
      rw [hprogram] at hr
      exact hr _ (Prompt.ok ())
    · next hprogram =>
      obtain ⟨letter, -, he⟩ := Option.map_eq_some_iff.mp hoffer
      cases he
      rw [hprogram] at hr
      apply hr.2
      split
      · exact Prompt.ok _
      · exact Prompt.error rfl
    · next hprogram =>
      cases hoffer
      rw [hprogram] at hr
      exact hr
    · cases hoffer
  constructor
  · intro s
    rw [left_perform]
    exact hg.1 s
  · intro s
    rw [programs_perform]
    split
    · exact hp
    · exact hg.2 s

theorem follow_orderly {g g' : Network n α} {schedule : List (Fin n)} (hg : g.Orderly holds)
    (h : g.follow schedule = some g') : g'.Orderly holds := by
  exact follow_keeps (fun hg hstep => step?_orderly hg hstep) hg h

/-- At rest a rank has ended or waits for a peer from which nothing is under way. -/
theorem Quiet.cases {g : Network n α} (quiet : g.Quiet) (hg : g.Orderly holds) (r : Fin n) :
    (∃ value, g.programs.get r = .done value ∧ holds none value) ∨
      ∃ peer tag next value, g.programs.get r = .receive peer tag next ∧ g.channel peer r = [] ∧
        next (.error (.timeout peer)) = .done value ∧ holds (some peer) value := by
  have hr := hg.2 r
  have hstep := quiet r
  cases hp : g.programs.get r with
  | done value =>
    rw [hp] at hr
    exact .inl ⟨value, rfl, hr⟩
  | send dest letter next => simp [step?, hp, hg.1 dest] at hstep
  | receive source tag next =>
    rw [hp] at hr
    obtain ⟨⟨value, hnext, hvalue⟩, -⟩ := hr
    cases hchannel : g.channel source r with
    | nil => exact .inr ⟨source, tag, next, value, rfl, hchannel, hnext, hvalue⟩
    | cons letter rest => simp [step?, hp, hchannel] at hstep
  | awaitLeft peer next => rw [hp] at hr; exact hr.elim
  | leave next => rw [hp] at hr; exact hr.elim
  | note event next => simp [step?, hp] at hstep
  | abort => rw [hp] at hr; exact hr.elim

/-- A step of a group with a limit on waiting, which takes effect only when no
rank can take another step. -/
inductive Timed : Network n α → Network n α → Prop where
  | step {g g' : Network n α} (r : Fin n) (h : g.step? r = some g') : Timed g g'
  | timeout {g : Network n α} {r source : Fin n} {tag : Tag}
      {next : Except CommError Payload → Proc n α} (quiet : g.Quiet)
      (h : g.programs.get r = .receive source tag next) :
      Timed g (g.setProgram r (next (.error (.timeout source))))

structure Expiring (final g : Network n α) : Prop where
  channel : ∀ s d, g.channel s d = final.channel s d
  left : ∀ r, g.left.get r = final.left.get r
  journals : ∀ r, g.journals.get r = final.journals.get r
  programs : ∀ r, g.programs.get r = final.programs.get r ∨
    g.programs.get r = final.expire.programs.get r

theorem Expiring.refl (final : Network n α) : final.Expiring final :=
  ⟨fun _ _ => rfl, fun _ => rfl, fun _ => rfl, fun _ => .inl rfl⟩

theorem programs_expire (g : Network n α) (r : Fin n) :
    g.expire.programs.get r = match g.programs.get r with
      | .receive source _ next => next (.error (.timeout source))
      | p => p :=
  Vector.getElem_map _ r.isLt

theorem expire_done {g : Network n α} (quiet : g.Quiet) (hg : g.Orderly holds) (r : Fin n) :
    ∃ value, g.expire.programs.get r = .done value := by
  rw [programs_expire]
  rcases quiet.cases hg r with ⟨value, hp, -⟩ | ⟨peer, tag, next, value, hp, -, hnext, -⟩
  · exact ⟨value, by rw [hp]⟩
  · exact ⟨value, by rw [hp]; exact hnext⟩

namespace Expiring

variable {final g g' : Network n α}

theorem quiet (h : final.Expiring g) (hquiet : final.Quiet) (hfinal : final.Orderly holds) :
    g.Quiet := by
  intro r
  obtain ⟨value, hdone⟩ := expire_done hquiet hfinal r
  rcases h.programs r with hp | hp
  · rcases hquiet.cases hfinal r with ⟨value', hp', -⟩ | ⟨peer, tag, next, -, hp', hempty, -⟩
    · simp [step?, hp, hp']
    · simp [step?, hp, hp', h.channel, hempty, h.left, hfinal.1 peer]
  · simp [step?, hp, hdone]

theorem timed (h : final.Expiring g) (hquiet : final.Quiet) (hfinal : final.Orderly holds)
    (hstep : Timed g g') : final.Expiring g' := by
  cases hstep with
  | step r hstep =>
    rw [h.quiet hquiet hfinal] at hstep
    cases hstep
  | @timeout r source tag next _ hp =>
    refine ⟨h.channel, h.left, h.journals, ?_⟩
    intro s
    rw [programs_setProgram]
    split
    · next hs =>
      right
      subst hs
      rcases h.programs s with hsame | hlate
      · rw [programs_expire, ← hsame, hp]
      · obtain ⟨value, hdone⟩ := expire_done hquiet hfinal s
        rw [hp, hdone] at hlate
        cases hlate
    · exact h.programs s

theorem eq_expire (h : final.Expiring g) (hquiet : final.Quiet) (hfinal : final.Orderly holds)
    (hend : ∀ g', ¬ Timed g g') : g = final.expire := by
  refine ext_get ?_ h.channel h.left h.journals
  intro r
  rcases h.programs r with hsame | hlate
  · rw [programs_expire, hsame]
    cases hp : final.programs.get r with
    | receive source tag next =>
      exact (hend _ (.timeout (h.quiet hquiet hfinal) (hsame.trans hp))).elim
    | _ => rfl
  · exact hlate

end Expiring

/-- With a limit on waiting every run either is one without or has come to the
one rest before the limit took effect. -/
theorem timed_reaches {start final g : Network n α} {letters : Fin n → Fin n → List Envelope}
    (hsettles : start.Settles letters final) (hfinal : final.Orderly holds)
    (h : Relation.ReflTransGen Timed start g) :
    (∃ schedule, start.follow schedule = some g) ∨ final.Expiring g := by
  induction h with
  | refl => exact .inl ⟨[], rfl⟩
  | @tail g₁ g₂ _ hstep ih =>
    rcases ih with ⟨schedule, hfollow⟩ | hexpiring
    · cases hstep with
      | step r hstep =>
        left
        use schedule ++ [r]
        rw [follow_append, hfollow, Option.bind_some, follow, hstep]
        rfl
      | timeout hquiet hp =>
        obtain ⟨rfl, -⟩ := hsettles.unique hfollow hquiet
        exact .inr ((Expiring.refl _).timed hquiet hfinal (.timeout hquiet hp))
    · exact .inr (hexpiring.timed hsettles.quiet hfinal hstep)

theorem timed_end {start final g : Network n α} {letters : Fin n → Fin n → List Envelope}
    (hsettles : start.Settles letters final) (hfinal : final.Orderly holds)
    (h : Relation.ReflTransGen Timed start g) (hend : ∀ g', ¬ Timed g g') : g = final.expire := by
  rcases timed_reaches hsettles hfinal h with ⟨schedule, hfollow⟩ | hexpiring
  · have hquiet : g.Quiet := by
      intro r
      cases hr : g.step? r with
      | none => rfl
      | some g' => exact (hend g' (.step r hr)).elim
    obtain ⟨rfl, -⟩ := hsettles.unique hfollow hquiet
    exact (Expiring.refl _).eq_expire hsettles.quiet hfinal hend
  · exact hexpiring.eq_expire hsettles.quiet hfinal hend

theorem timed_advanced {g g' : Network n α} (h : Timed g g') :
    Proc.Advanced g'.programs.toList g.programs.toList := by
  cases h with
  | step r h => exact step?_advanced h
  | @timeout r source tag next _ hp =>
    simp only [setProgram, Vector.toList_set]
    apply Proc.advanced_set _ _ (by simp)
    rw [Vector.getElem_toList, show g.programs[r.val] = .receive source tag next from hp]
    exact .receive source tag next _

theorem exists_timed_end (g : Network n α) :
    ∃ g', Relation.ReflTransGen Timed g g' ∧ ∀ g'', ¬ Timed g' g'' := by
  induction hprograms : g.programs.toList using Proc.advanced_wf.induction generalizing g with
  | _ programs ih =>
    by_cases hend : ∀ g', ¬ Timed g g'
    · exact ⟨g, .refl, hend⟩
    · push Not at hend
      obtain ⟨g₁, hstep⟩ := hend
      obtain ⟨g', hreach, hlast⟩ := ih _ (hprograms ▸ timed_advanced hstep) g₁ rfl
      exact ⟨g', .head hstep hreach, hlast⟩

end Network

/-- However the steps of a group of programs interleave, all interleavings can
go on to one end, and those that no rank can continue have reached it: the
results of every rank, the peers that ranks wait for and the letters under way
are the same. With a limit on waiting that takes effect only at rest, exactly
those ranks report it, each with the peer it waited for. -/
theorem programs_end_alike (programs : Fin n → Program n T) :
    ∃ (final : Network n (List (Except CommError (Outcome n T))))
      (results : Fin n → List (Except CommError (Outcome n T)))
      (waitsFor : Fin n → Option (Fin n)),
      (∀ schedule g, (Program.group programs).follow schedule = some g →
        (∃ rest, g.follow rest = some final) ∧ (g.Quiet → g = final)) ∧
      (∀ r, ∀ result ∈ results r, Prompt result) ∧
      (∀ r, match waitsFor r with
        | none => final.programs.get r = .done (results r)
        | some peer => final.channel peer r = [] ∧
          ∃ tag next, final.programs.get r = .receive peer tag next ∧
            next (.error (.timeout peer)) = .done (results r ++ [.error (.timeout peer)])) ∧
      (∀ g, Relation.ReflTransGen Network.Timed (Program.group programs) g →
        Relation.ReflTransGen Network.Timed g final.expire ∧
          ((∀ g', ¬ Network.Timed g g') → g = final.expire)) ∧
      ∀ r, final.expire.programs.get r =
        .done (results r ++ (waitsFor r).toList.map fun peer => .error (.timeout peer)) := by
  have hstart : (Program.group programs).Orderly Program.Ends :=
    Network.start_orderly fun r => (programs r).proc_orderly r (by simp)
  obtain ⟨schedule, hfollow, hquiet⟩ := (Program.group programs).follow_run
  have hfinal := Network.follow_orderly hstart hfollow
  have hsettles := Network.settles hfollow hquiet hfinal.1
  -- One run to rest decides all others.
  generalize (Program.group programs).run = final at *
  have hends : ∀ r, ∃ (results : List (Except CommError (Outcome n T))) (peer : Option (Fin n)),
      (∀ result ∈ results, Prompt result) ∧
      (match peer with
        | none => final.programs.get r = .done results
        | some peer => final.channel peer r = [] ∧
          ∃ tag next, final.programs.get r = .receive peer tag next ∧
            next (.error (.timeout peer)) = .done (results ++ [.error (.timeout peer)])) := by
    intro r
    rcases hquiet.cases hfinal r with ⟨value, hp, hvalue⟩ |
      ⟨peer, tag, next, value, hp, hempty, hnext, hvalue⟩
    · obtain ⟨results, hprompt, rfl⟩ := hvalue
      exact ⟨results, none, hprompt, by simpa using hp⟩
    · obtain ⟨results, hprompt, rfl⟩ := hvalue
      exact ⟨results, some peer, hprompt, hempty, tag, next, hp, by simpa using hnext⟩
  choose results waitsFor hprompt hwaits using hends
  refine ⟨final, results, waitsFor, ?_, hprompt, hwaits, ?_, ?_⟩
  · intro schedule' g h
    constructor
    · obtain ⟨rest, hrest, -⟩ := Network.follow_converges hfollow hquiet hfinal.1 h
      exact ⟨rest, hrest⟩
    · intro quiet
      exact (hsettles.unique h quiet).1
  · intro g h
    constructor
    · obtain ⟨g', hreach, hlast⟩ := g.exists_timed_end
      rwa [← Network.timed_end hsettles hfinal (h.trans hreach) hlast]
    · exact Network.timed_end hsettles hfinal h
  · intro r
    have hr := hwaits r
    rw [Network.programs_expire]
    cases hpeer : waitsFor r with
    | none =>
      rw [hpeer] at hr
      simp only at hr
      rw [hr]
      simp
    | some peer =>
      rw [hpeer] at hr
      obtain ⟨-, tag, next, hp, hnext⟩ := hr
      rw [hp]
      exact hnext

end Vicinity
