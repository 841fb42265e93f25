import Mathlib
import Vicinity.Proofs.Group.Program
import Vicinity.Proofs.Group.Round

/-!
# Barriers

No rank has passed more barriers than any other rank has entered. Ranks may run
ahead of each other, fail, run out of time, leave or break off, and a receive
may throw away the letter of a barrier: whatever a rank passes is covered by
letters that the others sent on entering, as long as nobody else uses their tag.
-/

set_option autoImplicit false

namespace Vicinity

variable {n : Nat} {α β : Type}

namespace Proc

/-- The process of rank `me` sends letters with the tag of barriers, and notes
events, in barrier calls only. -/
inductive Reserves (me : Fin n) : Proc n α → Prop where
  | done (value : α) : Reserves me (.done value)
  | abort : Reserves me .abort
  | send (dest : Fin n) (letter : Envelope) (next : Except CommError Unit → Proc n α)
      (tag : letter.tag ≠ Tag.barrier) (rest : ∀ result, Reserves me (next result)) :
      Reserves me (.send dest letter next)
  | receive (source : Fin n) (tag : Tag) (next : Except CommError Payload → Proc n α)
      (rest : ∀ result, Reserves me (next result)) : Reserves me (.receive source tag next)
  | awaitLeft (peer : Fin n) (next : Proc n α) (rest : Reserves me next) :
      Reserves me (.awaitLeft peer next)
  | leave (next : Proc n α) (rest : Reserves me next) : Reserves me (.leave next)
  | barrier (next : Except CommError Unit → Proc n α) (rest : ∀ result, Reserves me (next result)) :
      Reserves me ((Routine.barrier me).run.bind next)

theorem Reserves.bind {me : Fin n} {p : Proc n α} {f : α → Proc n β} (hp : p.Reserves me)
    (hf : ∀ value, (f value).Reserves me) : (p.bind f).Reserves me := by
  induction hp with
  | done value => exact hf value
  | abort => exact .abort
  | send dest letter next tag _ ih => exact .send dest letter _ tag ih
  | receive source tag next _ ih => exact .receive source tag _ ih
  | awaitLeft peer next _ ih => exact .awaitLeft peer _ ih
  | leave next _ ih => exact .leave _ ih
  | barrier next _ ih =>
    rw [bind_assoc]
    exact .barrier _ ih

/-- The process gets by with `out d` letters of barriers to rank `d` and with
`got s` letters of rank `s` to pass on, where a barrier entered adds a letter to
every rank and a barrier passed takes one of every other. -/
def Backed (me : Fin n) : Proc n α → (out got : Fin n → Nat) → Prop
  | done _, _, _ => True
  | abort, _, _ => True
  | send dest letter next, out, got =>
    (letter.tag = Tag.barrier → 0 < out dest) ∧ ∀ result, (next result).Backed me
      (fun d => if letter.tag = Tag.barrier ∧ d = dest then out d - 1 else out d) got
  | receive source tag next, out, got =>
    (∀ payload, (next (.ok payload)).Backed me out
      fun s => if tag = Tag.barrier ∧ s = source then got s + 1 else got s) ∧
    ∀ e, (next (.error e)).Backed me out got
  | awaitLeft _ next, out, got => next.Backed me out got
  | leave next, out, got => next.Backed me out got
  | note .barrierEntered next, out, got => next.Backed me (fun d => out d + 1) got
  | note .barrierPassed next, out, got =>
    (∀ s, s ≠ me → 0 < got s) ∧ next.Backed me out fun s => got s - 1

theorem Backed.mono {me : Fin n} {p : Proc n α} {out out' got got' : Fin n → Nat}
    (h : p.Backed me out got) (hout : ∀ d, out d ≤ out' d) (hgot : ∀ s, got s ≤ got' s) :
    p.Backed me out' got' := by
  induction p generalizing out out' got got' with
  | done value => trivial
  | abort => trivial
  | send dest letter next ih =>
    refine ⟨fun htag => (h.1 htag).trans_le (hout dest),
      fun result => ih result (h.2 result) (fun d => ?_) hgot⟩
    have hd := hout d
    split <;> omega
  | receive source tag next ih =>
    refine ⟨fun payload => ih _ (h.1 payload) hout fun s => ?_, fun e => ih _ (h.2 e) hout hgot⟩
    have hs := hgot s
    split <;> omega
  | awaitLeft peer next ih => exact ih h hout hgot
  | leave next ih => exact ih h hout hgot
  | note event next ih =>
    cases event with
    | barrierEntered => exact ih h (fun d => Nat.succ_le_succ (hout d)) hgot
    | barrierPassed =>
      exact ⟨fun s hs => (h.1 s hs).trans_le (hgot s),
        ih h.2 hout fun s => Nat.sub_le_sub_right (hgot s) 1⟩

end Proc

namespace Routine

variable {me : Fin n} {out got : Fin n → Nat}

/-- What gets by without letters of barriers gets by with any. -/
theorem backed_of_none {p : Proc n α} (h : p.Backed me (fun _ => 0) fun _ => 0)
    (out got : Fin n → Nat) : p.Backed me out got :=
  h.mono (fun _ => Nat.zero_le _) fun _ => Nat.zero_le _

theorem backed_sendAll {dests : List (Fin n)} (nodup : dests.Nodup)
    {next : Except CommError Unit → Proc n α} (hout : ∀ d ∈ dests, 0 < out d)
    (hnext : ∀ out result, (next result).Backed me out got) :
    ((sendAll Tag.barrier (fun _ => some []) dests).run.bind next).Backed me out got := by
  induction dests generalizing out with
  | nil => exact hnext out (.ok ())
  | cons dest dests ih =>
    have hdest : dest ∉ dests := (List.nodup_cons.mp nodup).1
    rw [sendAll, List.forM_eq_forM, List.forM_cons, run_bind]
    refine ⟨fun _ => hout dest (by simp), fun result => ?_⟩
    cases result with
    | ok =>
      apply ih nodup.of_cons
      intro d hd
      have hne : d ≠ dest := fun he => hdest (he ▸ hd)
      simpa [hne] using hout d (by simp [hd])
    | error e => exact hnext _ (.error e)

def barrierIntake (me source : Fin n) : Intake Unit :=
  if source = me then .ready (.ok ()) else .awaited fun _ => .ok ()

theorem backed_takeAll {sources : List (Fin n)} {next : Except CommError (List Unit) → Proc n α}
    (hok : ∀ values, (next (.ok values)).Backed me out
      fun s => if s ∈ sources ∧ s ≠ me then got s + 1 else got s)
    (herror : ∀ got e, (next (.error e)).Backed me out got) :
    ((takeAll Tag.barrier (barrierIntake me) sources).run.bind next).Backed me out got := by
  induction sources generalizing got next with
  | nil =>
    have hnext := hok []
    simp only [List.not_mem_nil, false_and, if_false] at hnext
    exact hnext
  | cons source sources ih =>
    -- Where the rest gets by, so does the whole, if the letter of `source` counts.
    have hrest : ∀ got', (∀ s, (if s = source ∧ s ≠ me then got s + 1 else got s) ≤ got' s) →
        ((takeAll Tag.barrier (barrierIntake me) sources >>= fun values =>
          Pure.pure (() :: values)).run.bind next).Backed me out got' := by
      intro got' hgot
      rw [run_bind]
      apply ih
      · intro values
        apply (hok (() :: values)).mono (fun _ => le_rfl)
        intro s
        have hs := hgot s
        simp only [List.mem_cons]
        grind
      · exact herror
    rw [takeAll, List.mapM_cons, run_bind]
    by_cases hs : source = me
    · rw [barrierIntake, if_pos hs]
      apply hrest
      intro s
      grind
    · rw [barrierIntake, if_neg hs]
      refine ⟨fun payload => hrest _ fun s => ?_, fun e => herror got e⟩
      grind

theorem barrier_eq (me : Fin n) : barrier me = (do
    note .barrierEntered
    let _ ← sendAll Tag.barrier (fun _ => some []) (others me)
    let _ ← takeAll Tag.barrier (barrierIntake me) (List.finRange n)
    note .barrierPassed) := by
  have hround : discard (round me Tag.barrier (fun _ => some []) (barrierIntake me)) =
      round me Tag.barrier (fun _ => some []) (barrierIntake me) >>= fun _ => Pure.pure () :=
    (bind_pure_comp (fun _ => ()) (round me Tag.barrier (fun _ => some []) (barrierIntake me))).symm
  have hbarrier : barrier me = (do
    note .barrierEntered
    discard (round me Tag.barrier (fun _ => some []) (barrierIntake me))
    note .barrierPassed) := rfl
  rw [hbarrier, hround, round_eq]
  simp only [bind_assoc, pure_bind]

theorem backed_barrier {next : Except CommError Unit → Proc n α}
    (h : ∀ result, (next result).Backed me (fun _ => 0) fun _ => 0) :
    ((barrier me).run.bind next).Backed me (fun _ => 0) fun _ => 0 := by
  have hnext : ∀ out got result, (next result).Backed me out got :=
    fun out got result => backed_of_none (h result) out got
  rw [barrier_eq, run_bind]
  change Proc.Backed me (Proc.bind (ExceptT.run (_ >>= _)) next) (fun _ => 0 + 1) _
  rw [run_bind]
  apply backed_sendAll (nodup_others me)
  · exact fun _ _ => Nat.one_pos
  · intro out result
    cases result with
    | error e => exact hnext out _ (.error e)
    | ok =>
      change Proc.Backed me (Proc.bind (ExceptT.run (_ >>= _)) next) out _
      rw [run_bind]
      apply backed_takeAll
      · intro values
        refine ⟨fun s hs => ?_, hnext out _ (.ok ())⟩
        simp [hs]
      · exact fun got e => hnext out got (.error e)

end Routine

theorem Proc.Reserves.backed {me : Fin n} {p : Proc n α} (h : p.Reserves me) :
    p.Backed me (fun _ => 0) fun _ => 0 := by
  induction h with
  | done value => trivial
  | abort => trivial
  | send dest letter next tag _ ih =>
    exact ⟨fun htag => (tag htag).elim, fun result => Routine.backed_of_none (ih result) _ _⟩
  | receive source tag next _ ih =>
    exact ⟨fun payload => Routine.backed_of_none (ih (.ok payload)) _ _, fun e => ih (.error e)⟩
  | awaitLeft peer next _ ih => exact ih
  | leave next _ ih => exact ih
  | barrier next _ ih => exact Routine.backed_barrier ih

namespace Network

def entered (g : Network n α) (r : Fin n) : Nat := (g.journals.get r).count .barrierEntered

/-- How many barriers a rank has passed: these calls have returned without a failure. -/
def passed (g : Network n α) (r : Fin n) : Nat := (g.journals.get r).count .barrierPassed

def underWay (g : Network n α) (s r : Fin n) : Nat :=
  (g.channel s r).countP fun letter => letter.tag = Tag.barrier

/-- A step of a rank, or a waiting receive that runs out of time, however early. -/
inductive Moves : Network n α → Network n α → Prop where
  | step {g g' : Network n α} (r : Fin n) (h : g.step? r = some g') : Moves g g'
  | timeout {g : Network n α} {r source : Fin n} {tag : Tag}
      {next : Except CommError Payload → Proc n α}
      (h : g.programs.get r = .receive source tag next) (empty : g.channel source r = []) :
      Moves g (g.setProgram r (next (.error (.timeout source))))

theorem follow_moves {g g' : Network n α} {schedule : List (Fin n)}
    (h : g.follow schedule = some g') : Relation.ReflTransGen Moves g g' :=
  follow_keeps (fun hg hstep => hg.tail (.step _ hstep)) .refl h

/-- What rank `r` has passed and may still pass, what is under way to it from
`s` and what `s` may still send are covered by what `s` has entered. -/
structure Covered (g : Network n α) (out got : Fin n → Fin n → Nat) : Prop where
  backed : ∀ r, (g.programs.get r).Backed r (out r) (got r)
  balance : ∀ r s, r ≠ s → g.passed r + got r s + g.underWay s r + out s r ≤ g.entered s

section Step

variable {g g' : Network n α} {r : Fin n} {p : Proc n α} {out got : Fin n → Fin n → Nat}
  {owed came : Fin n → Nat}

/-- The balance after a step of rank `r` is kept where the rank takes no more
from others than before and gives no more than it has entered. -/
theorem Covered.update (h : g.Covered out got) (hp : p.Backed r owed came)
    (hprograms : ∀ s, g'.programs.get s = if s = r then p else g.programs.get s)
    (hothers : ∀ s, s ≠ r → g'.journals.get s = g.journals.get s)
    (hchannels : ∀ s d, s ≠ r → d ≠ r → g'.channel s d = g.channel s d)
    (htakes : ∀ s, s ≠ r →
      g'.passed r + came s + g'.underWay s r ≤ g.passed r + got r s + g.underWay s r)
    (hgives : ∀ d, d ≠ r →
      g'.underWay r d + owed d + g.entered r ≤ g.underWay r d + out r d + g'.entered r) :
    g'.Covered (Function.update out r owed) (Function.update got r came) := by
  have hsame : ∀ s, s ≠ r → g'.passed s = g.passed s ∧ g'.entered s = g.entered s := by
    intro s hs
    simp only [passed, entered, hothers s hs, and_self]
  constructor
  · intro s
    rw [hprograms]
    by_cases hs : s = r
    · subst hs
      simpa using hp
    · simpa [hs] using h.backed s
  · intro a b hab
    have hbalance := h.balance a b hab
    by_cases ha : a = r
    · subst ha
      have htake := htakes b hab.symm
      have hb := hsame b hab.symm
      simp only [Function.update_self, Function.update_of_ne hab.symm]
      omega
    · have hpassed := hsame a ha
      rw [Function.update_of_ne ha]
      by_cases hb : b = r
      · subst hb
        have hgive := hgives a ha
        rw [Function.update_self]
        omega
      · have hentered := hsame b hb
        have hchannel : g'.underWay b a = g.underWay b a := by
          rw [underWay, underWay, hchannels b a hb ha]
        rw [Function.update_of_ne hb]
        omega

theorem Covered.goesOn (h : g.Covered out got) (hp : p.Backed r owed came)
    (howed : ∀ d, owed d ≤ out r d) (hcame : ∀ s, came s ≤ got r s)
    (hprograms : ∀ s, g'.programs.get s = if s = r then p else g.programs.get s)
    (hchannels : g'.channels = g.channels) (hjournals : g'.journals = g.journals) :
    ∃ out' got', g'.Covered out' got' := by
  have hletters : ∀ s d, g'.channel s d = g.channel s d := by
    intro s d
    rw [channel, channel, hchannels]
  refine ⟨_, _, h.update hp hprograms (fun s _ => by rw [hjournals])
    (fun s d _ _ => hletters s d) (fun s _ => ?_) fun d _ => ?_⟩
  · have hs := hcame s
    simp only [passed, underWay, hjournals, hletters]
    omega
  · have hd := howed d
    simp only [entered, underWay, hjournals, hletters]
    omega

theorem Covered.post (h : g.Covered out got) {dest : Fin n} {letter : Envelope}
    (htag : letter.tag = Tag.barrier → 0 < out r dest)
    (hp : p.Backed r (fun d => if letter.tag = Tag.barrier ∧ d = dest then out r d - 1 else out r d)
      (got r)) : ∃ out' got', (g.perform r (.post dest letter) p).Covered out' got' := by
  refine ⟨_, _, h.update hp (programs_perform g r · _ p) (fun _ _ => rfl) (fun s d hs _ => ?_)
    (fun s hs => ?_) fun d _ => ?_⟩
  · simp [Deed.edit, hs]
  · simp only [underWay, channel_perform, Deed.edit, hs, false_and, if_false]
    exact le_rfl
  · simp only [underWay, channel_perform, Deed.edit, true_and]
    change _ + g.entered r ≤ _ + g.entered r
    by_cases hd : d = dest
    · subst hd
      by_cases hletter : letter.tag = Tag.barrier
      · have hpositive := htag hletter
        simp only [if_true, hletter, and_self, List.countP_append, List.countP_singleton,
          decide_true]
        omega
      · simp [hletter]
    · simp [hd]

theorem Covered.take (h : g.Covered out got) {source : Fin n} {letter : Envelope}
    {rest : List Envelope} (hchannel : g.channel source r = letter :: rest)
    (hp : p.Backed r (out r)
      fun s => if letter.tag = Tag.barrier ∧ s = source then got r s + 1 else got r s) :
    ∃ out' got', (g.perform r (.take source) p).Covered out' got' := by
  refine ⟨_, _, h.update hp (programs_perform g r · _ p) (fun _ _ => rfl) (fun s d _ hd => ?_)
    (fun s _ => ?_) fun d hd => ?_⟩
  · simp [Deed.edit, hd]
  · simp only [underWay, channel_perform, Deed.edit, and_true]
    change g.passed r + _ + _ ≤ _
    by_cases hs : s = source
    · subst hs
      by_cases hletter : letter.tag = Tag.barrier
      · simp [hchannel, hletter]
        omega
      · simp [hchannel, hletter]
    · simp [hs]
  · simp only [underWay, channel_perform, Deed.edit, hd, and_false, if_false]
    exact le_rfl

theorem Covered.note (h : g.Covered out got) {event : Event} {next : Proc n α}
    (hp : (Proc.note event next).Backed r (out r) (got r)) :
    ∃ out' got', (g.perform r (.note event) next).Covered out' got' := by
  have hjournal : ∀ s, (g.perform r (.note event) next).journals.get s =
      if s = r then g.journals.get s ++ [event] else g.journals.get s := fun s => journals_perform ..
  cases event with
  | barrierEntered =>
    refine ⟨_, _, h.update (p := next) hp (programs_perform g r · _ next) (fun s hs => ?_)
      (fun _ _ _ _ => ?_) (fun s _ => ?_) fun d _ => ?_⟩
    · rw [hjournal, if_neg hs]
    · rw [channel_perform]
      rfl
    · simp [passed, underWay, hjournal, Deed.edit]
    · simp [entered, underWay, hjournal, Deed.edit]
      omega
  | barrierPassed =>
    refine ⟨_, _, h.update hp.2 (programs_perform g r · _ next) (fun s hs => ?_) (fun _ _ _ _ => ?_)
      (fun s hs => ?_) fun d _ => ?_⟩
    · rw [hjournal, if_neg hs]
    · rw [channel_perform]
      rfl
    · have hgot := hp.1 s hs
      simp [passed, underWay, hjournal, Deed.edit]
      omega
    · simp [entered, underWay, hjournal, Deed.edit]

theorem Covered.step (h : g.Covered out got) (hstep : g.step? r = some g') :
    ∃ out' got', g'.Covered out' got' := by
  have hr := h.backed r
  unfold step? at hstep
  split at hstep
  · cases hstep
  · cases hstep
  · next dest letter next hp =>
    rw [hp] at hr
    split at hstep
    · cases hstep
      exact h.goesOn (hr.2 _) (fun d => by split <;> omega) (fun _ => le_rfl)
        (programs_setProgram g r · _) rfl rfl
    · cases hstep
      exact h.post hr.1 (hr.2 (.ok ()))
  · next source tag next hp =>
    rw [hp] at hr
    split at hstep
    · next letter rest hchannel =>
      have htake : g' = g.perform r (.take source) (next (if letter.tag = tag then
          .ok letter.payload else .error (.tagMismatch source tag letter.tag))) := by
        cases hstep
        rw [perform, hchannel]
        rfl
      rw [htake]
      apply h.take hchannel
      split
      · next htag =>
        rw [htag]
        exact hr.1 letter.payload
      · exact (hr.2 _).mono (fun _ => le_rfl) fun s => by split <;> omega
    · split at hstep
      · cases hstep
        exact h.goesOn (hr.2 _) (fun _ => le_rfl) (fun _ => le_rfl) (programs_setProgram g r · _)
          rfl rfl
      · cases hstep
  · next peer next hp =>
    rw [hp] at hr
    split at hstep
    · cases hstep
      exact h.goesOn (p := next) hr (fun _ => le_rfl) (fun _ => le_rfl)
        (programs_setProgram g r · next) rfl rfl
    · cases hstep
  · next next hp =>
    rw [hp] at hr
    cases hstep
    exact h.goesOn (p := next) hr (fun _ => le_rfl) (fun _ => le_rfl)
      (programs_setProgram _ r · next) rfl rfl
  · next event next hp =>
    rw [hp] at hr
    cases hstep
    exact h.note hr

theorem Covered.moves (h : g.Covered out got) (hmove : Moves g g') :
    ∃ out' got', g'.Covered out' got' := by
  cases hmove with
  | step r hstep => exact h.step hstep
  | @timeout r source tag next hp _ =>
    have hr := h.backed r
    rw [hp] at hr
    exact h.goesOn (hr.2 _) (fun _ => le_rfl) (fun _ => le_rfl) (programs_setProgram g r · _)
      rfl rfl

end Step

theorem start_covered {programs : Fin n → Proc n α} (h : ∀ r, (programs r).Reserves r) :
    (start programs).Covered (fun _ _ => 0) fun _ _ => 0 := by
  rw [start_eq]
  constructor
  · intro r
    rw [resting, programs_present]
    exact (h r).backed
  · intro r s _
    simp [resting, passed, entered, underWay]

theorem reached_covered {programs : Fin n → Proc n α} (h : ∀ r, (programs r).Reserves r)
    {g : Network n α} (hreach : Relation.ReflTransGen Moves (start programs) g) :
    ∃ out got, g.Covered out got := by
  induction hreach with
  | refl => exact ⟨_, _, start_covered h⟩
  | tail _ hmove ih =>
    obtain ⟨out, got, hcovered⟩ := ih
    exact hcovered.moves hmove

end Network

namespace Routine

variable {ε τ : Type}

def Reserves (me : Fin n) (r : Routine n ε τ) : Prop := r.run.Reserves me

namespace Reserves

theorem compositional (me : Fin n) :
    Compositional (fun _ => True) (fun _ => @Reserves n ε _ me) where
  pure _ := .done _
  throw _ := .done _
  bind hr hf := Proc.Reserves.bind hr fun
    | .ok value => hf value
    | .error _ => .done _

theorem conversational (me : Fin n) :
    Conversational (· ≠ Tag.barrier) (fun _ => @Reserves n CommError _ me) where
  toCompositional := (compositional me).mono fun _ _ => trivial
  tags_of_ne h := h
  send _ _ _ htag := .send _ _ _ htag fun _ => .done _
  receive _ _ := .receive _ _ _ fun _ => .done _

theorem barrier (me : Fin n) : Reserves me (Routine.barrier me) := by
  have h : ((Routine.barrier me).run.bind Proc.done).Reserves me :=
    .barrier Proc.done fun result => .done result
  rwa [Proc.bind_done] at h

end Reserves

end Routine

section Programs

variable {B : Type} {T : B → Type}

def Program.Untagged : Program n T → Prop
  | stop => True
  | perform operation next => operation.Posts (· ≠ Tag.barrier) ∧ ∀ result, (next result).Untagged

variable [(b : B) → Codec (T b)] {me : Fin n}

theorem Program.proc_reserves {program : Program n T} (h : program.Untagged)
    (results : List (Except CommError (Outcome n T))) :
    (program.proc me results).Reserves me := by
  induction program generalizing results with
  | stop => exact .done results
  | perform operation next ih =>
    rw [proc]
    apply Proc.Reserves.bind
      ((Routine.Reserves.conversational me).operation (.barrier me) h.1)
    intro result
    split
    · exact .done _
    · exact ih _ (h.2 _) _

end Programs

/-- In a group of any programs that leave the tag of barriers to barrier calls,
however their steps interleave and whenever receives run out of time, no rank
has passed more barriers than any other has entered: when the first calls of a
rank have all returned, every other rank is in its call of the same number. -/
theorem barriers_hold_back {programs : Fin n → Proc n α} (h : ∀ r, (programs r).Reserves r)
    {g : Network n α} (hreach : Relation.ReflTransGen Network.Moves (Network.start programs) g)
    {r s : Fin n} (hne : r ≠ s) : g.passed r ≤ g.entered s := by
  obtain ⟨out, got, hcovered⟩ := Network.reached_covered h hreach
  have hbalance := hcovered.balance r s hne
  omega

/-- The first rank calls two barriers. The second throws the letter of the first
one away and then calls a barrier, which takes the letter of the second one. -/
def strayBarriers (r : Fin 2) : Program 2 fun _ : Unit => UInt64 :=
  if r.val = 0 then .perform .barrier fun _ => .perform .barrier fun _ => .stop
  else .perform (.receive 0 Tag.gather) fun _ => .perform .barrier fun _ => .stop

theorem strayBarriers_hold_back : (∀ r, ((strayBarriers r).proc r []).Reserves r) ∧
    ∃ g, Relation.ReflTransGen Network.Moves
        (Network.start fun r => (strayBarriers r).proc r []) g ∧
      (g.passed 0 ≤ g.entered 1 ∧ g.passed 1 ≤ g.entered 0) ∧
      g.passed 0 = 1 ∧ g.entered 1 = 1 ∧ g.passed 1 = 1 ∧ g.entered 0 = 2 := by
  have hreserves : ∀ r, ((strayBarriers r).proc r []).Reserves r := by
    intro r
    apply Program.proc_reserves
    fin_cases r
    · exact ⟨trivial, fun _ => ⟨trivial, fun _ => trivial⟩⟩
    · exact ⟨trivial, fun _ => ⟨trivial, fun _ => trivial⟩⟩
  have hrun : ((Network.start fun r => (strayBarriers r).proc r []).follow
      [0, 0, 1, 1, 1, 0, 0, 0, 0, 1, 1]).map (fun g =>
        (g.passed 0, g.entered 1, g.passed 1, g.entered 0)) = some (1, 1, 1, 2) := by
    decide +kernel
  obtain ⟨g, hfollow, hcounts⟩ := Option.map_eq_some_iff.mp hrun
  simp only [Prod.mk.injEq] at hcounts
  have hreach := Network.follow_moves hfollow
  exact ⟨hreserves, g, hreach, ⟨barriers_hold_back hreserves hreach (by decide),
    barriers_hold_back hreserves hreach (by decide)⟩, hcounts⟩

end Vicinity
