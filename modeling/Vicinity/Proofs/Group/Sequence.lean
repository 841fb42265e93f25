import Mathlib
import Vicinity.Proofs.Group.Delivery
import Vicinity.Proofs.Group.Departure
import Vicinity.Proofs.Group.Program

/-!
# Collectives in sequence

Ranks that call the same collectives in the same order complete all of them,
however their steps interleave, and every call gives what its own round says:
letters of different rounds never mix. Between two calls nobody has to wait for
the slowest rank to be through with the first one.
-/

set_option autoImplicit false

namespace Vicinity

variable {n : Nat}

/-- The processes can come to a state in which one rank still waits for a
letter while another has performed its own to the end. -/
def Proc.Lags {τ : Type} (processes : Fin n → Proc n τ) (values : Fin n → τ) : Prop :=
  ∀ (α : Type) (journals : Fin n → List Event) (next : Fin n → τ → Proc n α) (r q : Fin n),
    r ≠ q → ∃ letters g,
      (Network.resting journals fun s => (processes s).bind (next s)).Leads letters g ∧
      g.programs.get q = next q (values q) ∧
      ∃ source tag go, g.programs.get r = (Proc.receive source tag go).bind (next r)

namespace Proc.Lags

variable {τ σ : Type} {processes : Fin n → Proc n τ} {values : Fin n → τ}
  {f : Fin n → τ → Proc n σ} {values' : Fin n → σ}

theorem after {letters : Fin n → Fin n → List Envelope}
    (h : Proc.Completes processes letters values) (h' : Proc.Lags (fun r => f r (values r)) values') :
    Proc.Lags (fun r => (processes r).bind (f r)) values' := by
  intro α journals next r q hne
  obtain ⟨journals₁, hfirst⟩ := h α journals fun s value => (f s value).bind (next s)
  obtain ⟨letters', g, hsecond, hq, hr⟩ := h' α journals₁ next r q hne
  simp only [Proc.bind_assoc]
  exact ⟨_, g, hfirst.trans hsecond, hq, hr⟩

theorem before_done (h : Proc.Lags processes values) (hf : ∀ r, f r (values r) = .done (values' r)) :
    Proc.Lags (fun r => (processes r).bind (f r)) values' := by
  intro α journals next r q hne
  obtain ⟨letters, g, hleads, hq, source, tag, go, hr⟩ :=
    h α journals (fun s value => (f s value).bind (next s)) r q hne
  simp only [Proc.bind_assoc]
  refine ⟨letters, g, hleads, by rw [hq, hf]; rfl, source, tag, fun x => (go x).bind (f r), ?_⟩
  rw [hr]
  simp only [Proc.bind, Proc.bind_assoc]

theorem before_note (h : Proc.Lags processes values) {event : Event}
    (hf : ∀ r, f r (values r) = .note event (.done (values' r))) :
    Proc.Lags (fun r => (processes r).bind (f r)) values' := by
  intro α journals next r q hne
  obtain ⟨letters, g, hleads, hq, source, tag, go, hr⟩ :=
    h α journals (fun s value => (f s value).bind (next s)) r q hne
  simp only [Proc.bind_assoc]
  rw [hf] at hq
  have hnote : g.step? q = some ({ g with
      journals := g.journals.set q (g.journals.get q ++ [event]) q.isLt }.setProgram q
        (next q (values' q))) := by
    rw [Network.step?, hq]
    rfl
  refine ⟨_, _, hleads.trans (.step hnote), ?_, source, tag, fun x => (go x).bind (f r), ?_⟩
  · rw [Network.programs_setProgram, if_pos rfl]
  · rw [Network.programs_setProgram, if_neg hne, hr]
    simp only [Proc.bind, Proc.bind_assoc]

end Proc.Lags

def Proc.Acts {τ : Type} (p : Proc n τ) : Prop :=
  (∃ dest letter next, p = .send dest letter next) ∨ ∃ event next, p = .note event next

namespace Proc.Acts

variable {τ σ : Type} {p : Proc n τ}

theorem bind (h : p.Acts) (f : τ → Proc n σ) : (p.bind f).Acts := by
  rcases h with ⟨dest, letter, next, rfl⟩ | ⟨event, next, rfl⟩
  · exact .inl ⟨_, _, _, rfl⟩
  · exact .inr ⟨_, _, rfl⟩

theorem steps {g : Network n τ} {r : Fin n} (h : (g.programs.get r).Acts) :
    (g.step? r).isSome := by
  rcases h with ⟨dest, letter, next, hp⟩ | ⟨event, next, hp⟩
  · rw [Network.step?, hp]
    by_cases hleft : g.left.get dest <;> simp [hleft]
  · rw [Network.step?, hp]
    rfl

end Proc.Acts

theorem Proc.Completes.note (event : Event) :
    Proc.Completes (fun _ : Fin n => .note event (.done ())) (fun _ _ => []) fun _ => () := by
  intro α journals next
  -- In between, `ranks` are those that have not noted the event yet.
  have hall := Network.leads_each (fun ranks => Network.present
      (fun s => if s ∈ ranks then journals s else journals s ++ [event]) (fun _ _ => [])
      (fun r => if r ∈ ranks then .note event (next r ()) else next r ()))
    (fun _ _ => []) ?_ (List.nodup_finRange n)
  · simp only [List.mem_finRange, if_true, List.not_mem_nil, if_false] at hall
    exact ⟨_, hall⟩
  · intro r rest hnodup
    have hr : r ∉ rest := (List.nodup_cons.mp hnodup).1
    have hnoting : (if r ∈ r :: rest then Proc.note event (next r ()) else next r ()) =
        .note event (next r ()) := if_pos (by simp)
    apply (Network.leads_note _ _ hnoting).congr
    · intro s d
      simp
    · congr 1
      · funext s
        by_cases hs : s = r <;> simp [hs, hr]
      · funext s
        by_cases hs : s = r <;> simp [hs, hr]

namespace Routine

variable {ε τ σ : Type}

def Lags (routines : Fin n → Routine n ε τ) (values : Fin n → τ) : Prop :=
  Proc.Lags (fun r => (routines r).run) fun r => .ok (values r)

namespace Lags

variable {routines : Fin n → Routine n ε τ} {values : Fin n → τ}

theorem map (h : Lags routines values) (f : Fin n → τ → σ) :
    Lags (fun r => f r <$> routines r) fun r => f r (values r) := by
  simp only [← bind_pure_comp]
  exact Proc.Lags.before_done h fun _ => rfl

theorem after {letters : Fin n → Fin n → List Envelope} {f : Fin n → τ → Routine n ε σ}
    {values' : Fin n → σ} (h : Completes routines letters values)
    (h' : Lags (fun r => f r (values r)) values') : Lags (fun r => routines r >>= f r) values' :=
  Proc.Lags.after h h'

theorem before_note (h : Lags routines values) (event : Event) :
    Lags (fun r => routines r >>= fun _ => note event) fun _ => () :=
  Proc.Lags.before_note h fun _ => rfl

end Lags

/-- The ranks can perform these routines together, and one of them may be
through with its own before another is. -/
structure Overlaps (routines : Fin n → Routine n ε τ) (letters : Fin n → Fin n → List Envelope)
    (values : Fin n → τ) : Prop where
  completes : Completes routines letters values
  lags : Lags routines values

theorem Overlaps.before_pure {routines : Fin n → Routine n ε τ}
    {letters : Fin n → Fin n → List Envelope} {values : Fin n → τ}
    (h : Overlaps routines letters values) (f : Fin n → τ → σ) :
    Overlaps (fun r => routines r >>= fun value => Pure.pure (f r value)) letters
      fun r => f r (values r) :=
  ⟨(h.completes.bind (.pure fun r => f r (values r))).congr (fun _ => rfl)
      (fun _ _ => List.append_nil _) fun _ => rfl,
    Proc.Lags.before_done h.lags fun _ => rfl⟩

theorem Completes.note (event : Event) :
    Completes (fun _ : Fin n => (note event : Routine n ε Unit)) (fun _ _ => []) fun _ => () := by
  have hnote := (Proc.Completes.note (n := n) event).bind
    (f := fun _ _ => .done (Except.ok () : Except ε Unit))
    (Proc.Completes.done fun _ => (Except.ok () : Except ε Unit))
  exact hnote.congr (fun _ => rfl) (fun _ _ => rfl) fun _ => rfl

/-- A rank to which others still owe a letter waits for one. -/
theorem takeAll_waits (tag : Tag) {me : Fin n} (own : τ) (read : Payload → Except CommError τ)
    {sources : List (Fin n)} (h : ∃ s ∈ sources, s ≠ me) :
    ∃ source go, (takeAll tag (fun s => if s = me then .ready (.ok own) else .awaited read)
      sources).run = .receive source tag go := by
  induction sources with
  | nil => simp at h
  | cons s rest ih =>
    rw [takeAll, List.mapM_cons]
    by_cases hs : s = me
    · have hrest : ∃ s ∈ rest, s ≠ me := by
        obtain ⟨t, ht, hne⟩ := h
        rcases List.mem_cons.mp ht with rfl | ht
        · exact (hne hs).elim
        · exact ⟨t, ht, hne⟩
      obtain ⟨source, go, hgo⟩ := ih hrest
      have hbind := run_bind (takeAll tag (fun s => if s = me then .ready (.ok own)
        else .awaited read) rest) (fun values => Pure.pure (own :: values)) .done
      rw [Proc.bind_done, hgo] at hbind
      rw [if_pos hs]
      exact ⟨source, _, hbind⟩
    · rw [if_neg hs]
      exact ⟨s, _, rfl⟩

/-- When all have sent, any rank can take in the round before any other. -/
theorem round_lags (tag : Tag) (outgoing : Fin n → Fin n → Option Payload) (own : Fin n → τ)
    (read : Payload → Except CommError τ) (values : Fin n → Fin n → τ)
    (arrived : ∀ s r, Arrived tag (if s = r then .ready (.ok (own r)) else .awaited read)
      (values r s) (if s = r then [] else parcel tag (outgoing s r))) :
    Lags (fun r => round r tag (outgoing r)
        fun s => if s = r then .ready (.ok (own r)) else .awaited read)
      fun r => (List.finRange n).map (values r) := by
  intro α journals next r q hne
  simp only [round_eq, run_bind]
  have hsend := leads_sends journals tag outgoing fun r =>
    resume (fun _ => takeAll tag (fun s => if s = r then .ready (.ok (own r)) else .awaited read)
      (List.finRange n)) (next r)
  let taking (r : Fin n) : Proc n α := (takeAll tag
    (fun s => if s = r then .ready (.ok (own r)) else .awaited read)
      (List.finRange n)).run.bind (next r)
  have htaking : taking q = (takeAll tag
    (fun s => if s = q then .ready (.ok (own q)) else .awaited read)
      (List.finRange n)).run.bind (next q) := rfl
  have htake := leads_takeAll journals (fun s d => if s = d then [] else parcel tag (outgoing s d))
    (values q) (List.nodup_finRange n) (fun s _ => arrived s q) htaking
  obtain ⟨source, go, hwaits⟩ := takeAll_waits tag (own r) read
    ⟨q, List.mem_finRange q, hne.symm⟩
  refine ⟨_, _, hsend.trans htake, ?_, source, tag, go, ?_⟩
  · rw [Network.programs_present, Function.update_self]
  · rw [Network.programs_present, Function.update_of_ne hne]
    exact congrArg (·.bind (next r)) hwaits

theorem round_acts {tag : Tag} {me other : Fin n} {outgoing : Fin n → Option Payload}
    {intake : Fin n → Intake τ} (hne : other ≠ me) (h : ∀ d, ∃ payload, outgoing d = some payload) :
    (round me tag outgoing intake).run.Acts := by
  obtain ⟨dest, rest, hothers⟩ := List.exists_cons_of_ne_nil
    (List.ne_nil_of_mem (mem_others.mpr hne))
  obtain ⟨payload, hpayload⟩ := h dest
  rw [round_eq, sendAll, hothers]
  simp only [List.forM_eq_forM, List.forM_cons, hpayload]
  exact .inl ⟨_, _, _, rfl⟩

section Collectives

theorem arrived_barrier (s r : Fin n) : Arrived Tag.barrier
    (if s = r then .ready (.ok ()) else .awaited fun _ => .ok ()) ()
    (if s = r then [] else parcel Tag.barrier (some [])) := by
  by_cases hs : s = r
  · simp [Arrived, hs]
  · exact .inr ⟨_, _, if_neg hs, rfl, if_neg hs⟩

theorem barrier_completes : Completes (fun r : Fin n => barrier r)
    (fun s d => if s = d then [] else [⟨Tag.barrier, []⟩]) fun _ => () := by
  have hround := round_completes Tag.barrier (fun _ _ => some [])
    (fun r s => if s = r then .ready (.ok ()) else .awaited fun _ => .ok ()) (fun _ _ => ())
    (arrived_barrier (n := n))
  have hall := (Completes.note (ε := CommError) (n := n) .barrierEntered).bind
    (f := fun r _ => discard (round r Tag.barrier (fun _ => some []) fun s =>
      if s = r then .ready (.ok ()) else .awaited fun _ => .ok ()) >>= fun _ =>
        note .barrierPassed)
    ((hround.map fun _ _ => ()).bind (f := fun _ _ => note .barrierPassed) (.note .barrierPassed))
  apply hall.congr
  · intro r
    rfl
  · intro s d
    simp [parcel]
  · intro r
    rfl

theorem barrier_lags : Lags (fun r : Fin n => barrier r) fun _ => () := by
  have hround := round_lags Tag.barrier (fun _ _ => some []) (fun _ => ()) (fun _ => .ok ())
    (fun _ _ => ()) (arrived_barrier (n := n))
  exact Lags.after (.note .barrierEntered) ((hround.map fun _ _ => ()).before_note .barrierPassed)

variable [Codec τ]

theorem allGather_lags {values : Fin n → τ} (h : ∀ r, Codec.RoundTrips (values r)) :
    Lags (fun r => allGather r (values r)) fun _ => (List.finRange n).map values :=
  round_lags Tag.gather _ values readValue (fun _ => values) fun s r =>
    arrived_value (fun hs => by rw [hs]) (h s)

def leftFold (values : Fin n → τ) (combine : Fin n → τ → τ → τ) (r : Fin n) : τ :=
  ((List.finRange n).map values).tail.foldl (combine r) (values ⟨0, r.pos⟩)

def fold (value : τ) (combine : τ → τ → τ) : List τ → τ
  | [] => value
  | first :: rest => rest.foldl combine first

theorem allReduce_eq (r : Fin n) (value : τ) (combine : τ → τ → τ) :
    allReduce r value combine = fold value combine <$> allGather r value := by
  rw [← bind_pure_comp]
  apply congrArg (allGather r value >>= ·)
  funext values
  cases values <;> rfl

omit [Codec τ] in
theorem fold_gathered (values : Fin n → τ) (combine : Fin n → τ → τ → τ) (r : Fin n) :
    fold (values r) (combine r) ((List.finRange n).map values) = leftFold values combine r := by
  obtain ⟨m, rfl⟩ : ∃ m, n = m + 1 := Nat.exists_eq_add_one.mpr r.pos
  rw [leftFold, List.finRange_succ]
  rfl

theorem allReduce_completes {values : Fin n → τ} (combine : Fin n → τ → τ → τ)
    (h : ∀ r, Codec.RoundTrips (values r)) :
    Completes (fun r => allReduce r (values r) (combine r))
      (fun s d => if s = d then [] else [valueLetter Tag.gather (values s)])
      (leftFold values combine) := by
  apply ((allGather_completes h).map fun r => fold (values r) (combine r)).congr
  · intro r
    rw [allReduce_eq]
  · intro s d
    rfl
  · exact fold_gathered values combine

theorem allReduce_lags {values : Fin n → τ} (combine : Fin n → τ → τ → τ)
    (h : ∀ r, Codec.RoundTrips (values r)) :
    Lags (fun r => allReduce r (values r) (combine r)) (leftFold values combine) := by
  have hmap := (allGather_lags h).map fun r => fold (values r) (combine r)
  simp only [fold_gathered, ← allReduce_eq] at hmap
  exact hmap

theorem exchangeCounts_lags (counts : Fin n → List Nat) (hlength : ∀ r, (counts r).length = n)
    (hsmall : ∀ s r : Fin n, (counts s).getD r 0 < UInt64.size) :
    Lags (fun r => exchangeCounts r (counts r))
      fun r => (List.finRange n).map fun s => (counts s).getD r 0 := by
  have hround := round_lags Tag.counts
    (fun r dest => some (Codec.encode ((counts r).getD dest 0))) (fun r => (counts r).getD r 0)
    readValue (fun r s => (counts s).getD r 0)
    fun s r => arrived_value (fun hs => by rw [hs]) (Codec.roundTrips_nat (hsmall s r))
  unfold exchangeCounts
  simpa only [hlength, ne_eq, not_true_eq_false, if_false] using hround

end Collectives

end Routine

variable {B : Type} {T : B → Type}

inductive Collective (n : Nat) {B : Type} (T : B → Type) where
  | barrier
  | allGather (b : B) (values : Fin n → T b)
  | allReduce (b : B) (values : Fin n → T b) (combine : Fin n → T b → T b → T b)
  | exchangeCounts (counts : Fin n → Fin n → UInt64)

namespace Collective

def call (r : Fin n) : Collective n T → Operation n T
  | barrier => .barrier
  | allGather b values => .allGather b (values r)
  | allReduce b values combine => .allReduce b (values r) (combine r)
  | exchangeCounts counts => .exchangeCounts ((List.finRange n).map fun d => (counts r d).toNat)

def outcome (r : Fin n) : Collective n T → Outcome n T
  | barrier => .nothing
  | allGather b values => .values b ((List.finRange n).map values)
  | allReduce b values combine => .value b (Routine.leftFold values combine r)
  | exchangeCounts counts => .counts ((List.finRange n).map fun s => (counts s r).toNat)

variable [(b : B) → Codec (T b)]

def letter (s d : Fin n) : Collective n T → Envelope
  | barrier => ⟨Tag.barrier, []⟩
  | allGather _ values => Routine.valueLetter Tag.gather (values s)
  | allReduce _ values _ => Routine.valueLetter Tag.gather (values s)
  | exchangeCounts counts => Routine.valueLetter Tag.counts (counts s d).toNat

def Survives : Collective n T → Prop
  | barrier => True
  | allGather _ values => ∀ r, Codec.RoundTrips (values r)
  | allReduce _ values _ => ∀ r, Codec.RoundTrips (values r)
  | exchangeCounts _ => True

theorem overlaps {c : Collective n T} (h : c.Survives) :
    Routine.Overlaps (fun r => (c.call r).run r)
      (fun s d => if s = d then [] else [c.letter s d]) fun r => c.outcome r := by
  cases c with
  | barrier =>
    have hbarrier : Routine.Overlaps (fun r : Fin n => Routine.barrier r)
        (fun s d => if s = d then [] else [⟨Tag.barrier, []⟩]) fun _ => () :=
      ⟨Routine.barrier_completes, Routine.barrier_lags⟩
    exact hbarrier.before_pure fun (_ : Fin n) _ => (Outcome.nothing : Outcome n T)
  | allGather b values =>
    have hgather : Routine.Overlaps (fun r => Routine.allGather r (values r))
        (fun s d => if s = d then [] else [Routine.valueLetter Tag.gather (values s)])
        fun _ => (List.finRange n).map values :=
      ⟨Routine.allGather_completes h, Routine.allGather_lags h⟩
    exact hgather.before_pure fun _ => Outcome.values (T := T) b
  | allReduce b values combine =>
    have hreduce : Routine.Overlaps (fun r => Routine.allReduce r (values r) (combine r))
        (fun s d => if s = d then [] else [Routine.valueLetter Tag.gather (values s)])
        (Routine.leftFold values combine) :=
      ⟨Routine.allReduce_completes combine h, Routine.allReduce_lags combine h⟩
    exact hreduce.before_pure fun _ => Outcome.value (T := T) b
  | exchangeCounts counts =>
    have hlength : ∀ r, ((List.finRange n).map fun d => (counts r d).toNat).length = n := by
      intro r
      rw [List.length_map, List.length_finRange]
    have hsmall : ∀ s r : Fin n,
        ((List.finRange n).map fun d => (counts s d).toNat).getD r 0 < UInt64.size := by
      intro s r
      rw [Plan.getD_finRange_map]
      exact (counts s r).toNat_lt_size
    have hcounts : Routine.Overlaps
        (fun r => Routine.exchangeCounts r ((List.finRange n).map fun d => (counts r d).toNat)) _ _ :=
      ⟨Routine.exchangeCounts_completes _ hlength hsmall,
        Routine.exchangeCounts_lags _ hlength hsmall⟩
    simp only [Plan.getD_finRange_map] at hcounts
    exact hcounts.before_pure fun _ => Outcome.counts (T := T)

theorem acts (c : Collective n T) {r q : Fin n} (hne : r ≠ q) : ((c.call q).run q).run.Acts := by
  cases c with
  | barrier => exact .inr ⟨_, _, rfl⟩
  | allGather b values => exact (Routine.round_acts hne fun _ => ⟨_, rfl⟩).bind _
  | allReduce b values combine =>
    exact ((Routine.round_acts hne fun _ => ⟨_, rfl⟩).bind _).bind _
  | exchangeCounts counts =>
    have hcounts : (Routine.exchangeCounts q
        ((List.finRange n).map fun d => (counts q d).toNat)).run.Acts := by
      rw [Routine.exchangeCounts, if_neg (by simp)]
      exact Routine.round_acts hne fun _ => ⟨_, rfl⟩
    exact hcounts.bind _

end Collective

namespace Program

variable [(b : B) → Codec (T b)]

def calls (r : Fin n) : List (Collective n T) → Program n T
  | [] => .stop
  | c :: rest => .perform (c.call r) fun _ => calls r rest

def outcomes (r : Fin n) (collectives : List (Collective n T)) :
    List (Except CommError (Outcome n T)) :=
  collectives.map fun c => .ok (c.outcome r)

def goOn (me : Fin n) (next : Except CommError (Outcome n T) → Program n T)
    (results : List (Except CommError (Outcome n T))) :
    Except CommError (Outcome n T) → Proc n (List (Except CommError (Outcome n T)))
  | .error (.timeout peer) => .done (results ++ [.error (.timeout peer)])
  | result => (next result).proc me (results ++ [result])

theorem proc_perform (me : Fin n) (operation : Operation n T)
    (next : Except CommError (Outcome n T) → Program n T)
    (results : List (Except CommError (Outcome n T))) :
    (perform operation next).proc me results =
      (operation.run me).run.bind (goOn me next results) := by
  rw [proc]
  apply congrArg (operation.run me).run.bind
  funext result
  rcases result with fault | outcome
  · cases fault <;> rfl
  · rfl

def letters (collectives : List (Collective n T)) (s d : Fin n) : List Envelope :=
  collectives.flatMap fun c => if s = d then [] else [c.letter s d]

/-- The ranks can perform the first of their collectives before they go on
with the rest. -/
theorem leads_calls {before : List (Collective n T)} (h : ∀ c ∈ before, c.Survives)
    (rest : List (Collective n T)) (results : Fin n → List (Except CommError (Outcome n T)))
    {α : Type} (journals : Fin n → List Event)
    (next : Fin n → List (Except CommError (Outcome n T)) → Proc n α) :
    ∃ journals', (Network.resting journals fun r =>
        ((calls r (before ++ rest)).proc r (results r)).bind (next r)).Leads (letters before)
      (Network.resting journals' fun r =>
        ((calls r rest).proc r (results r ++ outcomes r before)).bind (next r)) := by
  induction before generalizing results journals with
  | nil =>
    simp only [List.nil_append, outcomes, List.map_nil, List.append_nil]
    exact ⟨journals, Network.Leads.refl _⟩
  | cons c before ih =>
    obtain ⟨journals₁, hfirst⟩ := (Collective.overlaps (h c (by simp))).completes α journals
      fun r result => (goOn r (fun _ => calls r (before ++ rest)) (results r) result).bind (next r)
    obtain ⟨journals₂, hrest⟩ := ih (fun c hc => h c (by simp [hc]))
      (fun r => results r ++ [.ok (c.outcome r)]) journals₁
    simp only [List.append_assoc, List.singleton_append] at hrest
    simp only [List.cons_append, calls, proc_perform, Proc.bind_assoc]
    exact ⟨journals₂, hfirst.trans hrest⟩

theorem completes_calls {collectives : List (Collective n T)} (h : ∀ c ∈ collectives, c.Survives) :
    Proc.Completes (fun r => (calls r collectives).proc r []) (letters collectives)
      fun r => outcomes r collectives := by
  intro α journals next
  obtain ⟨journals', hleads⟩ := leads_calls h [] (fun _ => []) journals next
  rw [List.append_nil] at hleads
  exact ⟨journals', hleads⟩

def callers (collectives : List (Collective n T)) (leaves : Fin n → Bool) :
    Network n (List (Except CommError (Outcome n T))) :=
  Network.start fun r => ((calls r collectives).proc r []).bind (Proc.ending (leaves r))

/-- Rank `q` is through with `c` and about to go on, while rank `r` waits for a
letter in it. -/
structure Overtaken (leaves : Fin n → Bool) (before : List (Collective n T)) (c : Collective n T)
    (after : List (Collective n T)) (r q : Fin n)
    (g : Network n (List (Except CommError (Outcome n T)))) : Prop where
  through : g.programs.get q = ((calls q after).proc q (outcomes q (before ++ [c]))).bind
    (Proc.ending (leaves q))
  steps : after ≠ [] → (g.step? q).isSome
  waits : ∃ source tag go, g.programs.get r = (Proc.receive source tag go).bind fun result =>
    (goOn r (fun _ => calls r after) (outcomes r before) result).bind (Proc.ending (leaves r))

theorem callers_overtake {before after : List (Collective n T)} {c : Collective n T}
    (h : ∀ x ∈ before ++ c :: after, x.Survives) (leaves : Fin n → Bool) {r q : Fin n}
    (hne : r ≠ q) : ∃ schedule g,
      (callers (before ++ c :: after) leaves).follow schedule = some g ∧
      Overtaken leaves before c after r q g := by
  have hsurvives : ∀ x ∈ before, x.Survives := fun x hx => h x (List.mem_append_left _ hx)
  obtain ⟨journals, hbefore⟩ := leads_calls hsurvives (c :: after)
    (fun _ => []) (fun _ => []) fun r => Proc.ending (leaves r)
  simp only [List.nil_append, calls, proc_perform, Proc.bind_assoc] at hbefore
  obtain ⟨letters, g, hlags, hq, hr⟩ := (Collective.overlaps (h c (by simp))).lags _ journals
    (fun r result => (goOn r (fun _ => calls r after) (outcomes r before) result).bind
      (Proc.ending (leaves r))) r q hne
  obtain ⟨schedule, hfollow, -⟩ := hbefore.trans hlags
  have hthrough : g.programs.get q = ((calls q after).proc q (outcomes q (before ++ [c]))).bind
      (Proc.ending (leaves q)) := by
    have houtcomes : outcomes q (before ++ [c]) = outcomes q before ++ [.ok (c.outcome q)] :=
      List.map_append
    rw [hq, houtcomes]
    rfl
  refine ⟨schedule, g, ?_, hthrough, ?_, hr⟩
  · rw [callers, Network.start_eq]
    exact hfollow
  · intro hafter
    obtain ⟨c', rest, rfl⟩ := List.exists_cons_of_ne_nil hafter
    apply Proc.Acts.steps
    rw [hthrough, calls, proc_perform]
    exact ((c'.acts hne).bind _).bind _

end Program

/-- Ranks that perform the same collectives in the same order, each with its
own part, complete all of them however their steps interleave, whether a rank
stays at its end or leaves. Every call gives every rank what the collective
makes of all their parts, one letter goes from every rank to every other for
each call, and none is left. Of any two ranks, each can be through with any of
the calls and go on while the other still waits for a letter in it. -/
theorem collectives_compose [(b : B) → Codec (T b)] (collectives : List (Collective n T))
    (h : ∀ c ∈ collectives, c.Survives) (leaves : Fin n → Bool) :
    ∃ final, (Program.callers collectives leaves).Settles (Program.letters collectives) final ∧
      (∀ r, final.left.get r = leaves r) ∧
      (∀ s d, final.channel s d = []) ∧
      (∀ r, final.programs.get r = .done (Program.outcomes r collectives)) ∧
      ∀ before c after, collectives = before ++ c :: after → ∀ r q, r ≠ q →
        ∃ schedule g, (Program.callers collectives leaves).follow schedule = some g ∧
          Program.Overtaken leaves before c after r q g := by
  obtain ⟨final, hsettles, hleft, hempty, hdone⟩ :=
    (Program.completes_calls h).settles_ending leaves
  refine ⟨final, hsettles, hleft, hempty, hdone, ?_⟩
  rintro before c after rfl r q hne
  exact Program.callers_overtake h leaves hne

def gatherCountAdd : List (Collective 2 fun _ : Unit => UInt64) :=
  [.allGather () fun r => if r.val = 0 then 7 else 8, .exchangeCounts fun r d => if r = d then 0 else 5,
    .barrier, .allReduce () (fun r => if r.val = 0 then 7 else 8) fun _ => (· + ·)]

theorem gatherCountAdd_composes : (∀ c ∈ gatherCountAdd, c.Survives) ∧
    ∃ final, (Program.callers gatherCountAdd fun _ => true).Settles
        (Program.letters gatherCountAdd) final ∧
      (∀ s d, final.channel s d = []) ∧
      final.programs.get 0 = .done
        [.ok (.values () [7, 8]), .ok (.counts [0, 5]), .ok .nothing, .ok (.value () 15)] := by
  have hsurvives : ∀ c ∈ gatherCountAdd, c.Survives := by
    intro c hc
    fin_cases hc
    · exact fun _ => Codec.roundTrips_word _
    · trivial
    · trivial
    · exact fun _ => Codec.roundTrips_word _
  obtain ⟨final, hsettles, -, hempty, hdone, -⟩ :=
    collectives_compose gatherCountAdd hsurvives fun _ => true
  exact ⟨hsurvives, final, hsettles, hempty, hdone 0⟩

end Vicinity
