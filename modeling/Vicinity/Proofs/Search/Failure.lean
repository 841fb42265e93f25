import Mathlib
import Vicinity.Proofs.Group.Outcome
import Vicinity.Proofs.Search.BruteForce
import Vicinity.Proofs.Search.Refusal

/-!
# Searches that fail

A search fails over its own range entities, in an exchange, or over a query in
one of the domain entities that its box meets. Whatever fails, and whatever its
peers send, the rank keeps its session. What cannot be located is reported by
its place among all candidate pairs, by the rank that asks, its range entities
and the domain in order, and not by the way through the index.
-/

set_option autoImplicit false

namespace Vicinity

variable {ι ε σ : Type}

theorem First.unique {bad : ι → Prop} {items before before' : List ι} {item item' : ι}
    (h : First bad items before item) (h' : First bad items before' item') :
    before' = before ∧ item' = item := by
  obtain ⟨⟨after, rfl⟩, clean, hbad⟩ := h
  obtain ⟨⟨after', hsplit⟩, clean', hbad'⟩ := h'
  induction before generalizing before' with
  | nil =>
    cases before' with
    | nil => exact ⟨rfl, (List.cons.inj hsplit).1.symm⟩
    | cons x rest =>
      obtain rfl := (List.cons.inj hsplit).1
      exact (clean' item List.mem_cons_self hbad).elim
  | cons x before ih =>
    obtain ⟨hx, clean⟩ := List.forall_mem_cons.mp clean
    cases before' with
    | nil =>
      obtain rfl := (List.cons.inj hsplit).1
      exact (hx hbad').elim
    | cons y rest =>
      obtain ⟨rfl, hrest⟩ := List.cons.inj hsplit
      obtain ⟨rfl, rfl⟩ := ih clean (List.forall_mem_cons.mp clean').2 hrest
      exact ⟨rfl, rfl⟩

theorem First.exists_iff {bad : ι → Prop} {items : List ι} :
    (∃ before item, First bad items before item) ↔ ∃ item ∈ items, bad item := by
  constructor
  · rintro ⟨before, item, ⟨after, rfl⟩, -, hbad⟩
    exact ⟨item, by simp, hbad⟩
  · exact First.exists_of_mem

theorem mapM_error_iff {f : ι → Except ε σ} {items : List ι} {e : ε} : items.mapM f = .error e ↔
    ∃ before item, First (fun x => ∃ e, f x = .error e) items before item ∧ f item = .error e := by
  constructor
  · intro h
    induction items with
    | nil => cases h
    | cons x items ih =>
      rw [List.mapM_cons] at h
      cases hx : f x with
      | error e' =>
        rw [hx] at h
        cases h
        exact ⟨[], x, ⟨⟨items, rfl⟩, by simp, _, hx⟩, hx⟩
      | ok y =>
        rw [hx] at h
        cases hrest : items.mapM f with
        | error e' =>
          rw [hrest] at h
          cases h
          obtain ⟨before, item, hfirst, he⟩ := ih hrest
          exact ⟨x :: before, item, hfirst.cons (by simp [hx]), he⟩
        | ok ys =>
          rw [hrest] at h
          cases h
  · rintro ⟨before, item, hfirst, he⟩
    exact hfirst.mapM he

variable {n : Nat} {α : Type}

/-- A rank that has its result has it when the group comes to rest. -/
theorem Network.Settles.done {g g' final : Network n α} {letters : Fin n → Fin n → List Envelope}
    (h : g.Settles letters final) {schedule : List (Fin n)} (h' : g.follow schedule = some g')
    {r : Fin n} {value : α} (hdone : g'.programs.get r = .done value) :
    final.programs.get r = .done value := by
  obtain ⟨steps, hsteps⟩ := h.goes_on
  obtain ⟨rest, hrest, -⟩ := hsteps schedule g' h'
  exact (Network.reached_beside hdone (Network.follow_moves hrest)).program.trans hdone

/-- Whatever the ranks go on with, these processes come to a state in which rank `r`
has ended its own, with this value. -/
def Proc.Yields {τ : Type} (processes : Fin n → Proc n τ) (r : Fin n) (value : τ) : Prop :=
  ∀ (β : Type) (journals : Fin n → List Event) (next : Fin n → τ → Proc n β),
    ∃ letters journals' programs, (Network.resting journals fun q =>
        (processes q).bind (next q)).Leads letters (Network.resting journals' programs) ∧
      programs r = next r value

theorem Proc.Yields.of_done {τ : Type} {processes : Fin n → Proc n τ} {r : Fin n} {value : τ}
    (h : processes r = .done value) : Proc.Yields processes r value := by
  intro β journals next
  refine ⟨_, journals, _, Network.Leads.refl _, ?_⟩
  rw [h]
  rfl

variable [Coord α]

namespace Session

def candidatesOf (s : Session α n) (q : RangeQuery α) : List (RangeQuery α × Entity α) :=
  (s.domain.filter fun d => d.bounds.meets q.box).map fun d => (q, d)

def candidates (s : Session α n) (asking : List (RangeQuery α × Fin n)) :
    List (RangeQuery α × Entity α) :=
  asking.flatMap fun asked => s.candidatesOf asked.1

def locate (s : Session α n) (pair : RangeQuery α × Entity α) :
    Except (SearchError α) (Option (Point α 3)) :=
  s.domainMap.locate pair.2 pair.1.point s.config.tolerance

def Unlocatable (s : Session α n) (pair : RangeQuery α × Entity α) : Prop :=
  ∃ e, s.locate pair = .error e

structure Of (s : Session α n) (me : Fin n) (p : Share α) : Prop where
  me : s.me = me
  config : s.config = p.config
  domain : s.domain = p.domain
  map : s.domainMap = p.map
  index : Hierarchy.build p.items = .ok s.index

section Resolve

variable {s : Session α n} {me : Fin n} {p : Share α} {asking : List (RangeQuery α × Fin n)}
  {e : SearchError α}

omit [Coord α] in
theorem resolveIn_error_iff {pair : RangeQuery α × Entity α} :
    s.resolveIn pair.1 pair.2 = .error e ↔ s.locate pair = .error e := by
  rw [resolveIn, locate]
  cases s.domainMap.locate pair.2 pair.1.point s.config.tolerance <;> simp [Except.map]

def resolveOne (s : Session α n) (asked : RangeQuery α × Fin n) :
    Except (SearchError α) (List (Record α × Fin n)) := do
  let found ← (s.candidatesOf asked.1).mapM fun pair => s.resolveIn pair.1 pair.2
  pure ((found.filterMap id).map fun record => (record, asked.2))

theorem resolveOne_error_iff {asked : RangeQuery α × Fin n} : s.resolveOne asked = .error e ↔
    ∃ before pair, First s.Unlocatable (s.candidatesOf asked.1) before pair ∧
      s.locate pair = .error e := by
  have hfound : s.resolveOne asked = .error e ↔
      ((s.candidatesOf asked.1).mapM fun pair => s.resolveIn pair.1 pair.2) = .error e := by
    rw [resolveOne]
    cases (s.candidatesOf asked.1).mapM fun pair => s.resolveIn pair.1 pair.2 <;>
      simp [bind, Except.bind, pure, Except.pure]
  rw [hfound, mapM_error_iff]
  simp only [resolveIn_error_iff]
  rfl

theorem exists_resolveOne_error {asked : RangeQuery α × Fin n} :
    (∃ e, s.resolveOne asked = .error e) ↔ ∃ pair ∈ s.candidatesOf asked.1, s.Unlocatable pair := by
  rw [← First.exists_iff]
  constructor
  · rintro ⟨e, he⟩
    obtain ⟨before, pair, hfirst, -⟩ := resolveOne_error_iff.mp he
    exact ⟨before, pair, hfirst⟩
  · rintro ⟨before, pair, hfirst⟩
    obtain ⟨e, he⟩ := hfirst.bad
    exact ⟨e, resolveOne_error_iff.mpr ⟨before, pair, hfirst, he⟩⟩

variable [OrderedCoord α] (hs : s.Of me p) (hsize : p.domain.length ≤ 2 ^ 64)

include hs hsize

/-- The way through the index leaves no trace. -/
theorem resolve_eq : s.resolve asking = List.flatten <$> asking.mapM s.resolveOne := by
  have heach : ∀ q, ((s.hits q).filterMap fun i => s.domain.toArray[i]?).mapM (s.resolveIn q) =
      (s.candidatesOf q).mapM fun pair => s.resolveIn pair.1 pair.2 := by
    intro q
    rw [candidatesOf, List.mapM_map, hits, hs.domain, Share.hits_entities hs.index hsize q.box]
    rfl
  change (asking.mapM fun asked =>
    (((s.hits asked.1).filterMap fun i => s.domain.toArray[i]?).mapM (s.resolveIn asked.1)) >>=
      fun found => pure ((found.filterMap id).map fun record => (record, asked.2))) >>=
        (fun perQuery => pure perQuery.flatten) = _
  simp only [heach]
  rfl

theorem resolve_error : s.resolve asking = .error e ↔ asking.mapM s.resolveOne = .error e := by
  rw [resolve_eq hs hsize]
  cases asking.mapM s.resolveOne <;> simp [Functor.map, Except.map]

theorem resolve_fails_first (h : s.resolve asking = .error e) :
    ∃ before pair, First s.Unlocatable (s.candidates asking) before pair ∧
      s.locate pair = .error e := by
  obtain ⟨before, asked, hasked, hone⟩ := mapM_error_iff.mp ((resolve_error hs hsize).mp h)
  obtain ⟨earlier, pair, hpair, herror⟩ := resolveOne_error_iff.mp hone
  exact ⟨_, pair, (hasked.congr fun asked => exists_resolveOne_error.symm).flatMap hpair, herror⟩

/-- Resolving fails exactly where some candidate pair cannot be located, with the
error of the first. -/
theorem resolve_error_iff : s.resolve asking = .error e ↔
    ∃ before pair, First s.Unlocatable (s.candidates asking) before pair ∧
      s.locate pair = .error e := by
  refine ⟨resolve_fails_first hs hsize, ?_⟩
  rintro ⟨before, pair, hfirst, herror⟩
  obtain ⟨pair₀, hpair₀, hbad⟩ := First.exists_iff.mp ⟨before, pair, hfirst⟩
  obtain ⟨asked, hasked, hmem⟩ := List.mem_flatMap.mp hpair₀
  have hone : ∃ asked ∈ asking, ∃ e, s.resolveOne asked = .error e :=
    ⟨asked, hasked, exists_resolveOne_error.mpr ⟨pair₀, hmem, hbad⟩⟩
  obtain ⟨before', asked', hfirst'⟩ := First.exists_of_mem hone
  obtain ⟨e', he'⟩ := hfirst'.bad
  have hresolve := (resolve_error hs hsize).mpr (hfirst'.mapM he')
  obtain ⟨_, pair', hpair', herror'⟩ := resolve_fails_first hs hsize hresolve
  obtain ⟨-, rfl⟩ := hfirst.unique hpair'
  obtain rfl := Except.error.inj (herror'.symm.trans herror)
  exact hresolve

end Resolve

/-- What a search can fail with: the first flaw of its own range entities, what
befalls an exchange, or the first candidate pair that cannot be located, among
queries that came in the order of the ranks that ask. -/
inductive Fault (s : Session α n) (entities : List (Entity α)) (map : LocalMap α) :
    SearchError α → Prop where
  | flawed {before : List (Entity α)} {entity : Entity α} {e : SearchError α}
      (first : First (Flawed map) (keep s.config.rangeDimension entities) before entity)
      (flaw : Flaw map before.length entity e) : Fault s entities map e
  | exchange (fault : CommError) : Fault s entities map (.comm fault)
  | unlocatable {asking : List (RangeQuery α × Fin n)}
      {before : List (RangeQuery α × Entity α)} {pair : RangeQuery α × Entity α}
      {e : SearchError α} (grouped : Plan.GroupedByRank asking)
      (first : First s.Unlocatable (s.candidates asking) before pair)
      (error : s.locate pair = .error e) : Fault s entities map e

theorem sound_of_not_flawed {map : LocalMap α} {e : Entity α} (h : ¬ Flawed map e) :
    e.bounds.isValid = true ∧ ∃ point, map.centroid e = .ok point := by
  constructor
  · by_contra hbox
    exact h (.inl (Bool.eq_false_of_not_eq_true hbox))
  · cases hcentroid : map.centroid e with
    | ok point => exact ⟨point, rfl⟩
    | error fault => exact (h (.inr ⟨fault, hcentroid⟩)).elim

theorem queries_sound {p : Share α} {request : Request α}
    (h : ∀ entity ∈ p.range request, ¬ Flawed request.2 entity) :
    queries p.config.tolerance request.2 (p.range request) =
      .ok ((p.range request).map (p.query request.2)) :=
  Share.queries_ok (fun e he => (sound_of_not_flawed (h e he)).1)
    fun e he => (sound_of_not_flawed (h e he)).2

theorem queries_error {p : Share α} {request : Request α} {e : SearchError α}
    (h : queries p.config.tolerance request.2 (p.range request) = .error e) :
    ∃ before entity, First (Flawed request.2) (p.range request) before entity ∧
      Flaw request.2 before.length entity e := by
  have hflawed : ∃ entity ∈ p.range request, Flawed request.2 entity := by
    by_contra hnone
    rw [queries_sound fun entity hentity hbad => hnone ⟨entity, hentity, hbad⟩] at h
    cases h
  obtain ⟨before, entity, hfirst⟩ := First.exists_of_mem hflawed
  obtain ⟨fault, hflaw⟩ := hfirst.bad.flaw before.length
  obtain rfl := Except.error.inj ((queries_flawed hfirst hflaw).symm.trans h)
  exact ⟨before, entity, hfirst, hflaw⟩

section Gives

variable [Codec α] {s : Session α n} {me : Fin n} {p : Share α}

theorem askAround_gives (hconfig : s.config = p.config) (entities : List (Entity α))
    (map : LocalMap α) : Routine.Gives Plan.GroupedByRank (s.Fault entities map)
      (s.askAround entities map) := by
  have hcomm : ∀ e, True → s.Fault entities map (.comm e) := fun e _ => .exchange e
  have hqueries : ∀ e, queries s.config.tolerance map (keep s.config.rangeDimension entities) =
      .error e → s.Fault entities map e := by
    intro e he
    rw [hconfig] at he
    obtain ⟨before, entity, hfirst, hflaw⟩ := @queries_error α _ p (entities, map) e he
    rw [Share.range, ← hconfig] at hfirst
    exact .flawed hfirst hflaw
  refine (Routine.Gives.compositional.ofExcept hqueries).bind fun sent _ => ?_
  refine ((Routine.Gives.any _).mapError hcomm).bind fun routing _ => ?_
  refine ((routing.distribute_grouped sent).mapError hcomm).bind fun imported himported => ?_
  exact .pure himported

variable [OrderedCoord α] (hs : s.Of me p) (hsize : p.domain.length ≤ 2 ^ 64)

include hs hsize

theorem answer_gives (entities : List (Entity α)) (map : LocalMap α)
    {asking : List (RangeQuery α × Fin n)} (hasking : Plan.GroupedByRank asking) :
    Routine.Gives (fun _ => True) (s.Fault entities map) (s.answer entities asking) := by
  have hcomm : ∀ e, True → s.Fault entities map (.comm e) := fun e _ => .exchange e
  have hresolve : ∀ e, s.resolve asking = .error e → s.Fault entities map e := by
    intro e he
    obtain ⟨before, pair, hfirst, herror⟩ := (resolve_error_iff hs hsize).mp he
    exact .unlocatable hasking hfirst herror
  refine (Routine.Gives.compositional.ofExcept hresolve).bind fun found _ => ?_
  refine ((Routine.Gives.any _).mapError hcomm).bind fun back _ => ?_
  refine ((Routine.Gives.any _).mapError hcomm).bind fun returned _ => ?_
  exact .pure trivial

theorem locateAll_gives (entities : List (Entity α)) (map : LocalMap α) :
    Routine.Gives (fun _ => True) (s.Fault entities map) (s.locateAll entities map) := by
  rw [locateAll_eq]
  exact (askAround_gives hs.config entities map).bind fun asking hasking =>
    answer_gives hs hsize entities map hasking

/-- A search that ends with a failure ends with the session that it began with. -/
theorem search_returns (entities : List (Entity α)) (map : LocalMap α) :
    (s.search entities map).Returns fun result => result.2.Of me p ∧
      ∀ e, result.1 = .error e → result.2 = s ∧ s.Fault entities map e := by
  apply Proc.Returns.bind (locateAll_gives hs hsize entities map)
  intro result hresult
  cases result with
  | ok found => exact ⟨⟨hs.me, hs.config, hs.domain, hs.map, hs.index⟩, fun e he => nomatch he⟩
  | error e =>
    refine ⟨hs, fun e' he' => ⟨rfl, ?_⟩⟩
    cases he'
    exact hresult

end Gives

theorem prepare_inv {p : Share α} {domain : List (Entity α)} {index : Hierarchy α Nat 3}
    (h : prepare p.config p.entities = .ok (domain, index)) :
    p.config.validate = .ok () ∧ domain = p.domain ∧ Hierarchy.build p.items = .ok index := by
  unfold prepare at h
  cases hconfig : p.config.validate with
  | error fault =>
    rw [hconfig] at h
    cases h
  | ok =>
    rw [hconfig] at h
    change ((Hierarchy.build p.items).mapError SearchError.index >>= fun index =>
      pure (p.domain, index)) = _ at h
    cases hbuild : Hierarchy.build p.items with
    | error fault =>
      rw [hbuild] at h
      cases h
    | ok tree =>
      rw [hbuild] at h
      cases h
      exact ⟨rfl, rfl, rfl⟩

theorem start_returns [Codec α] (me : Fin n) (p : Share α) :
    Routine.Gives (fun s => s.Of me p) (fun _ => True)
      (start me p.entities p.map p.config) := by
  have hprepare : Routine.Gives (n := n) (fun prepared =>
      prepared.1 = p.domain ∧ Hierarchy.build p.items = .ok prepared.2) (fun _ => True)
      (Routine.ofExcept (prepare p.config p.entities)) :=
    .ofExcept (fun prepared h => (prepare_inv h).2) fun _ _ => trivial
  apply hprepare.bind
  rintro ⟨domain, index⟩ ⟨hdomain, hindex⟩
  refine ((Routine.Gives.any _).mapError fun _ _ => trivial).bind fun regions _ => ?_
  exact .pure ⟨rfl, rfl, hdomain, rfl, hindex⟩

/-- The sessions that a rank can come to hold, whatever the others do: one that
it opens, and one that a search leaves behind. -/
inductive Reached [Codec α] (me : Fin n) (p : Share α) : Session α n → Prop where
  | opened {g g' : Network n (Except (SearchError α) (Session α n))} {s : Session α n}
      (call : g.programs.get me = (start me p.entities p.map p.config).run)
      (moves : Relation.ReflTransGen Network.Moves g g')
      (result : g'.programs.get me = .done (.ok s)) : Reached me p s
  | searched {g g' : Network n (Except (SearchError α) Unit × Session α n)}
      {s s' : Session α n} {entities : List (Entity α)} {map : LocalMap α}
      {outcome : Except (SearchError α) Unit} (before : Reached me p s)
      (call : g.programs.get me = s.search entities map)
      (moves : Relation.ReflTransGen Network.Moves g g')
      (result : g'.programs.get me = .done (outcome, s')) : Reached me p s'

theorem Reached.of [Codec α] [OrderedCoord α] {me : Fin n} {p : Share α} {s : Session α n}
    (h : Reached me p s) (hsize : p.domain.length ≤ 2 ^ 64) : s.Of me p := by
  induction h with
  | opened call moves result =>
    have hreturns : Proc.Returns _ (start me p.entities p.map p.config).run := start_returns me p
    rw [← call] at hreturns
    exact Network.reached_done hreturns moves result
  | @searched _ _ _ _ entities map _ before call moves result ih =>
    have hreturns := search_returns ih hsize entities map
    rw [← call] at hreturns
    exact (Network.reached_done hreturns moves result).1

theorem search_stays [Codec α] (s : Session α n) (entities : List (Entity α)) (map : LocalMap α) :
    (s.search entities map).Stays := by
  have h := @Routine.Stays.compositional n (SearchError α)
  have hcomm := @Routine.Stays.conversational n
  have hlocate : Routine.Stays (s.locateAll entities map) := by
    refine h.bind (h.ofExcept fun _ _ => trivial) fun sent => ?_
    refine h.bind (.mapError (hcomm.routing _ _ _) _) fun routing => ?_
    refine h.bind (.mapError (hcomm.distributeRouting routing sent) _) fun imported => ?_
    refine h.bind (h.ofExcept fun _ _ => trivial) fun found => ?_
    refine h.bind (.mapError (hcomm.plan s.me _) _) fun back => ?_
    refine h.bind (.mapError (hcomm.distribute back _) _) fun returned => ?_
    exact h.pure _
  apply Proc.Stays.bind hlocate
  intro result
  cases result <;> trivial

section Group

variable {shares : Fin n → Share α} {trees : Fin n → Hierarchy α Nat 3}
  {requests : Fin n → Request α}

def asked (shares : Fin n → Share α) (requests : Fin n → Request α) :
    List (RangeQuery α × Fin n) :=
  (List.finRange n).flatMap fun s => (queriesOf shares requests s).map (·, s)

theorem exists_holding {sessions : Fin n → Session α n} (hs : ∀ r, (sessions r).Of r (shares r))
    (hregions : ∀ r, (sessions r).regions =
      (List.finRange n).map fun q => (sessions q).index.bounds) :
    ∃ (trees : Fin n → Hierarchy α Nat 3) (c : Fin n → Correspondence α)
      (missed : Fin n → List EntityId), (∀ r, Hierarchy.build (shares r).items = .ok (trees r)) ∧
      sessions = fun r => holding shares trees r (c r) (missed r) := by
  refine ⟨fun r => (sessions r).index, fun r => (sessions r).correspondence,
    fun r => (sessions r).missed, fun r => (hs r).index, funext fun r => ?_⟩
  obtain ⟨me, config, domain, map, -⟩ := hs r
  have hfields : sessions r = ⟨(sessions r).me, (sessions r).config, (sessions r).domain,
    (sessions r).domainMap, (sessions r).index, (sessions r).regions,
    (sessions r).correspondence, (sessions r).missed⟩ := rfl
  rw [me, config, domain, map, hregions r] at hfields
  exact hfields

theorem holding_of (hbuild : ∀ r, Hierarchy.build (shares r).items = .ok (trees r)) (r : Fin n)
    (c : Correspondence α) (missed : List EntityId) :
    (holding shares trees r c missed).Of r (shares r) := ⟨rfl, rfl, rfl, rfl, hbuild r⟩

/-- A query that misses the bounds of a rank has no candidate pair there. -/
theorem candidates_arriving [OrderedCoord α] {s : Session α n} {r : Fin n}
    (hs : s.Of r (shares r)) (hbuild : Hierarchy.build (shares r).items = .ok (trees r))
    (hsize : (shares r).domain.length ≤ 2 ^ 64) :
    s.candidates (arriving shares trees requests r) = s.candidates (asked shares requests) := by
  rw [candidates, candidates, arriving, asked, imports, List.flatMap_map, List.flatMap_assoc,
    List.flatMap_assoc]
  apply List.flatMap_congr
  intro q _
  rw [queriesOf, List.flatMap_map, List.flatMap_map, List.flatMap_map]
  apply flatMap_filter
  intro e _ hmiss
  rw [candidatesOf, List.map_eq_nil_iff, List.filter_eq_nil_iff, hs.domain]
  intro d hd hmeets
  obtain ⟨region, hregion, hregion'⟩ := Share.region_meets hbuild hsize hd hmeets
  exact hmiss (by rw [hregion]; exact hregion')

structure Askable (shares : Fin n → Share α) (requests : Fin n → Request α) : Prop where
  sound : ∀ s, ∀ e ∈ (shares s).range (requests s), ¬ Flawed (requests s).2 e
  fewRange : ∀ s, ((shares s).range (requests s)).length < UInt64.size

variable [Codec α]

def proceed (s : Session α n) (entities : List (Entity α)) :
    Except (SearchError α) (List (RangeQuery α × Fin n)) →
      Proc n (Except (SearchError α) Unit × Session α n)
  | .ok asking => (s.answer entities asking).run.bind fun
    | .ok (correspondence, missed) => .done (.ok (), { s with correspondence, missed })
    | .error e => .done (.error e, s)
  | .error e => .done (.error e, s)

theorem search_eq (s : Session α n) (entities : List (Entity α)) (map : LocalMap α) :
    s.search entities map = (s.askAround entities map).run.bind (s.proceed entities) := by
  rw [search, locateAll_eq, Routine.run_bind]
  congr 1
  funext result
  cases result <;> rfl

theorem proceed_unlocatable {s : Session α n} {entities : List (Entity α)}
    {asking : List (RangeQuery α × Fin n)} {e : SearchError α} (h : s.resolve asking = .error e) :
    s.proceed entities (.ok asking) = .done (.error e, s) := by
  rw [proceed, answer, h]
  rfl

variable [OrderedCoord α] (hcodec : ∀ x : α, Codec.RoundTrips x)
  (hbuild : ∀ r, Hierarchy.build (shares r).items = .ok (trees r))
  (hsize : ∀ r, (shares r).domain.length < UInt64.size)

include hcodec hbuild hsize

/-- Where a candidate pair cannot be located, the search of the rank with its domain
entity fails. -/
theorem search_breaks (h : Askable shares requests) (c : Fin n → Correspondence α)
    (missed : Fin n → List EntityId) {r : Fin n} {e : SearchError α}
    {before : List (RangeQuery α × Entity α)} {pair : RangeQuery α × Entity α}
    (hfirst : First (holding shares trees r (c r) (missed r)).Unlocatable
      ((holding shares trees r (c r) (missed r)).candidates (asked shares requests)) before pair)
    (herror : (holding shares trees r (c r) (missed r)).locate pair = .error e) :
    Proc.Yields
      (fun q => (holding shares trees q (c q) (missed q)).search (requests q).1 (requests q).2) r
      (.error e, holding shares trees r (c r) (missed r)) := by
  intro β journals next
  obtain ⟨letters, hask⟩ := askAround_finishes hcodec trees
    (fun s e he => (sound_of_not_flawed (h.sound s e he)).1)
    (fun s e he => (sound_of_not_flawed (h.sound s e he)).2) h.fewRange c missed
  obtain ⟨journals', hleads⟩ := hask β journals fun q asking =>
    ((holding shares trees q (c q) (missed q)).proceed (requests q).1 asking).bind (next q)
  simp only [← Proc.bind_assoc, ← search_eq] at hleads
  have hs := holding_of hbuild r (c r) (missed r)
  rw [← candidates_arriving hs (hbuild r) (hsize r).le] at hfirst
  have hresolve := (resolve_error_iff hs (hsize r).le).mpr ⟨before, pair, hfirst, herror⟩
  refine ⟨letters, journals', _, hleads, ?_⟩
  rw [proceed_unlocatable hresolve]
  rfl

/-- However the ranks go on, such a search fails with the session as it was. -/
theorem search_fails (h : Askable shares requests) (c : Fin n → Correspondence α)
    (missed : Fin n → List EntityId) {r : Fin n} {e : SearchError α}
    {before : List (RangeQuery α × Entity α)} {pair : RangeQuery α × Entity α}
    (hfirst : First (holding shares trees r (c r) (missed r)).Unlocatable
      ((holding shares trees r (c r) (missed r)).candidates (asked shares requests)) before pair)
    (herror : (holding shares trees r (c r) (missed r)).locate pair = .error e) :
    ∃ letters final, (Network.start fun q => (holding shares trees q (c q) (missed q)).search
        (requests q).1 (requests q).2).Settles letters final ∧
      final.programs.get r = .done (.error e, holding shares trees r (c r) (missed r)) := by
  obtain ⟨-, journals, programs, ⟨schedule, hfollow, -⟩, hprogram⟩ :=
    search_breaks hcodec hbuild hsize h c missed hfirst herror _ (fun _ => []) fun _ => .done
  simp only [Proc.bind_done] at hfollow
  rw [← Network.start_eq] at hfollow
  obtain ⟨letters, final, hsettles⟩ := Network.exists_settles fun q =>
    search_stays (holding shares trees q (c q) (missed q)) (requests q).1 (requests q).2
  exact ⟨letters, final, hsettles,
    hsettles.done hfollow ((Network.programs_present r).trans hprogram)⟩

end Group

theorem reached_opened [Codec α] {shares : Fin n → Share α} {trees : Fin n → Hierarchy α Nat 3}
    (hcodec : ∀ x : α, Codec.RoundTrips x)
    (hconfig : ∀ r, (shares r).config.validate = .ok ())
    (hbuild : ∀ r, Hierarchy.build (shares r).items = .ok (trees r)) (r : Fin n) :
    Reached r (shares r) (holding shares trees r .empty []) := by
  obtain ⟨letters, hstart⟩ := start_finishes hcodec hconfig hbuild
  obtain ⟨final, hsettles, -, hdone⟩ := Proc.Completes.settles hstart
  obtain ⟨steps, hsteps⟩ := hsettles.goes_on
  obtain ⟨rest, hfollow, -⟩ := hsteps [] _ rfl
  refine .opened ?_ (Network.follow_moves hfollow) (hdone r)
  simp [Network.start, Vector.get_eq_getElem]

end Session

/-- A session that a rank has come to hold, by any searches. Whatever a search
fails with, and whatever its peers have sent, the rank has the session as before,
with all that it answers. Resolving queries fails exactly where some candidate
pair cannot be located, with the error of the first, by the queries and then by
the domain. Where ranks that know the bounds of each other search together, and
some of their queries cannot be located in a domain entity of rank `r` whose box
it meets, the search of rank `r` fails in every interleaving: with the error of
the first such pair, by the rank that asks, the order of its range entities and
the order of the domain. -/
theorem failed_searches_keep_sessions :
    (∀ (me : Fin n) (p : Share Float) (s : Session Float n), Session.Reached me p s →
      p.domain.length < UInt64.size →
      (∀ entities map (g g' : Network n (Except (SearchError Float) Unit × Session Float n)) e s',
        g.programs.get me = s.search entities map → Relation.ReflTransGen Network.Moves g g' →
        g'.programs.get me = .done (.error e, s') → s' = s ∧ s.Fault entities map e) ∧
      ∀ asking e, s.resolve asking = .error e ↔ ∃ before pair,
        First s.Unlocatable (s.candidates asking) before pair ∧ s.locate pair = .error e) ∧
    ∀ (shares : Fin n → Share Float) (sessions : Fin n → Session Float n),
      (∀ r, Session.Reached r (shares r) (sessions r)) →
      (∀ r, (shares r).domain.length < UInt64.size) →
      (∀ r, (sessions r).regions = (List.finRange n).map fun q => (sessions q).index.bounds) →
      ∀ requests, Session.Askable shares requests → ∀ r before pair e,
        First (sessions r).Unlocatable
          ((sessions r).candidates (Session.asked shares requests)) before pair →
        (sessions r).locate pair = .error e →
          ∃ letters final, (Network.start fun q =>
              (sessions q).search (requests q).1 (requests q).2).Settles letters final ∧
            final.programs.get r = .done (.error e, sessions r) := by
  constructor
  · intro me p s hreached hsize
    have hs := hreached.of hsize.le
    refine ⟨fun entities map g g' e s' hcall hmoves hdone => ?_,
      fun asking e => Session.resolve_error_iff hs hsize.le⟩
    have hreturns := Session.search_returns hs hsize.le entities map
    rw [← hcall] at hreturns
    exact (Network.reached_done hreturns hmoves hdone).2 e rfl
  · intro shares sessions hreached hsize hregions requests h r before pair e hfirst herror
    have hs : ∀ r, (sessions r).Of r (shares r) := fun r => (hreached r).of (hsize r).le
    obtain ⟨trees, c, missed, hbuild, rfl⟩ := Session.exists_holding hs hregions
    exact Session.search_fails Binary64.roundTrips hbuild hsize h c missed hfirst herror

def upperCell : Entity Float := .ofCell 4 0 .volume ⟨.replicate 3 1, .replicate 3 2⟩

def lowerCell : Entity Float := .ofCell 3 0 .volume ⟨.replicate 3 0, .replicate 3 1⟩

def cellShares (r : Fin 2) : Share Float where
  entities := if r.val = 0 then [upperCell, lowerCell] else []
  map := .basic
  config := ⟨0.5, none, none, true⟩

def cellRequests (r : Fin 2) : Request Float :=
  (if r.val = 0 then [] else [.ofPoint 7 1 (.replicate 3 1) false], .basic)

/-- A point of one rank between two cells of another, of which the second comes
first in the index. -/
theorem failed_searches_between_cells : ∃ sessions : Fin 2 → Session Float 2,
    (∀ r, Session.Reached r (cellShares r) (sessions r)) ∧
    ∃ letters final, (Network.start fun q =>
        (sessions q).search (cellRequests q).1 (cellRequests q).2).Settles letters final ∧
      final.programs.get 0 = .done (.error (.unsupportedShape 4), sessions 0) := by
  have hconfig : ∀ r, (cellShares r).config.validate = .ok () := by
    intro r
    apply if_neg
    revert r
    decide +kernel
  have hvalid : ∀ r, ∀ e ∈ (cellShares r).domain, e.bounds.isValid = true := by decide +kernel
  choose trees hbuild using fun r => Hierarchy.exists_build (Share.items_valid (hvalid r))
  have hreached := Session.reached_opened Binary64.roundTrips hconfig hbuild
  refine ⟨fun r => .holding cellShares trees r .empty [], hreached, ?_⟩
  have hids : ((Session.holding cellShares trees 0 .empty []).candidates
      (Session.asked cellShares cellRequests)).map (fun pair => pair.2.id) = [4, 3] := by
    change ((Session.asked cellShares cellRequests).flatMap fun asked =>
      ((cellShares 0).domain.filter fun d => d.bounds.meets asked.1.box).map
        fun d => (asked.1, d)).map (fun pair => pair.2.id) = _
    decide +kernel
  obtain ⟨pair, after, hsplit, hid, -⟩ := List.map_eq_cons_iff.mp hids
  have hcell : (Session.holding cellShares trees 0 .empty []).locate pair =
      .error (.unsupportedShape pair.2.id) := by
    have hpair : pair ∈ (Session.holding cellShares trees 0 .empty []).candidates
        (Session.asked cellShares cellRequests) := hsplit ▸ List.mem_cons_self
    obtain ⟨asked, -, hasked⟩ := List.mem_flatMap.mp hpair
    obtain ⟨d, hd, rfl⟩ := List.mem_map.mp hasked
    have hdomain : d ∈ (cellShares 0).domain := List.mem_of_mem_filter hd
    rw [Share.domain, Session.keep] at hdomain
    have hentities : d ∈ [upperCell, lowerCell] := List.mem_of_mem_filter hdomain
    rcases List.mem_pair.mp hentities with rfl | rfl <;> rfl
  rw [hid] at hcell
  have hsize : ∀ r, (cellShares r).domain.length < UInt64.size := by decide +kernel
  have hsound : ∀ s, ∀ e ∈ (cellShares s).range (cellRequests s), e.bounds.isValid = true := by
    decide +kernel
  have hask : Session.Askable cellShares cellRequests := by
    refine ⟨?_, by decide +kernel⟩
    rintro s e he (hbox | ⟨fault, hfault⟩)
    · rw [hsound s e he] at hbox
      cases hbox
    · cases hfault
  exact failed_searches_keep_sessions.2 cellShares _ hreached hsize (fun _ => rfl) cellRequests hask
    0 [] pair _ ⟨⟨after, hsplit⟩, by simp, _, hcell⟩ hcell

end Vicinity
