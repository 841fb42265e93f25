import Mathlib
import Vicinity.Proofs.Coord.Exact
import Vicinity.Proofs.Group.Barrier
import Vicinity.Proofs.Group.Routing
import Vicinity.Proofs.Hierarchy.Build
import Vicinity.Proofs.Search.Gathering

/-!
# Calls that are refused

What a rank can find wrong with a call on its own it finds before its first
letter. Such a call has already failed when it is made: no step of the rank
lies between the call and its result, so it sends nothing, takes in nothing and
leaves every letter where it is. The first fault in the order of the arguments
is the one that is reported.
-/

set_option autoImplicit false

namespace Vicinity

variable {ι κ σ ε : Type}

structure First (bad : ι → Prop) (items before : List ι) (item : ι) : Prop where
  split : ∃ after, items = before ++ item :: after
  clean : ∀ earlier ∈ before, ¬ bad earlier
  bad : bad item

namespace First

variable {bad : ι → Prop} {items before : List ι} {item : ι}

theorem cons {x : ι} (h : First bad items before item) (hx : ¬ bad x) :
    First bad (x :: items) (x :: before) item := by
  obtain ⟨⟨after, rfl⟩, clean, hbad⟩ := h
  exact ⟨⟨after, rfl⟩, List.forall_mem_cons.mpr ⟨hx, clean⟩, hbad⟩

theorem exists_of_mem (h : ∃ item ∈ items, bad item) : ∃ before item, First bad items before item := by
  induction items with
  | nil => simp at h
  | cons x items ih =>
    by_cases hx : bad x
    · exact ⟨[], x, ⟨items, rfl⟩, by simp, hx⟩
    · have hrest : ∃ item ∈ items, bad item := by simpa [hx] using h
      obtain ⟨before, item, hfirst⟩ := ih hrest
      exact ⟨x :: before, item, hfirst.cons hx⟩

theorem congr {bad' : ι → Prop} (h : First bad items before item) (hbad : ∀ x, bad' x ↔ bad x) :
    First bad' items before item :=
  ⟨h.split, fun earlier hmem => mt (hbad earlier).mp (h.clean earlier hmem), (hbad item).mpr h.bad⟩

theorem zipIdx (h : First bad items before item) :
    First (fun x => bad x.1) items.zipIdx before.zipIdx (item, before.length) := by
  obtain ⟨⟨after, rfl⟩, clean, hbad⟩ := h
  refine ⟨⟨after.zipIdx (before.length + 1), ?_⟩, fun x hx => ?_, hbad⟩
  · rw [List.zipIdx_append, List.zipIdx_cons, Nat.zero_add]
  · exact clean x.1 (List.fst_mem_of_mem_zipIdx hx)

/-- The first fault of the first item that has any is the first of all. -/
theorem flatMap {f : ι → List κ} {bad : κ → Prop} {before' : List κ} {y : κ}
    (h : First (fun x => ∃ y ∈ f x, bad y) items before item) (h' : First bad (f item) before' y) :
    First bad (items.flatMap f) (before.flatMap f ++ before') y := by
  obtain ⟨⟨after, rfl⟩, clean, -⟩ := h
  obtain ⟨⟨after', hsplit⟩, clean', hbad⟩ := h'
  refine ⟨⟨after' ++ after.flatMap f, ?_⟩, fun y' hy' => ?_, hbad⟩
  · rw [List.flatMap_append, List.flatMap_cons, hsplit]
    simp
  · rcases List.mem_append.mp hy' with hy' | hy'
    · obtain ⟨x, hx, hfx⟩ := List.mem_flatMap.mp hy'
      exact fun hbad' => clean x hx ⟨y', hfx, hbad'⟩
    · exact clean' y' hy'

/-- Going through a list ends with the first failure. -/
theorem mapM {f : ι → Except ε σ} {e : ε} (h : First (fun x => ∃ e, f x = .error e) items before item)
    (he : f item = .error e) : items.mapM f = .error e := by
  obtain ⟨⟨after, rfl⟩, clean, -⟩ := h
  induction before with
  | nil =>
    rw [List.nil_append, List.mapM_cons, he]
    rfl
  | cons x before ih =>
    obtain ⟨hx, clean⟩ := List.forall_mem_cons.mp clean
    cases hfx : f x with
    | error e' => exact (hx ⟨e', hfx⟩).elim
    | ok y =>
      rw [List.cons_append, List.mapM_cons, hfx, ih clean]
      rfl

end First

variable {n : Nat} {α τ : Type}

namespace Network

/-- Rank `me` has no part in how one state becomes another: letters may come
for it, and those it has sent may be taken. -/
structure Beside (me : Fin n) (g g' : Network n α) : Prop where
  program : g'.programs.get me = g.programs.get me
  arriving : ∀ s, g.channel s me <+: g'.channel s me
  sent : ∀ d, g'.channel me d <:+ g.channel me d

namespace Beside

variable {me : Fin n} {g g' g'' : Network n α}

theorem refl : Beside me g g := ⟨rfl, fun _ => List.prefix_rfl, fun _ => List.suffix_rfl⟩

theorem trans (h : Beside me g g') (h' : Beside me g' g'') : Beside me g g'' :=
  ⟨h'.program.trans h.program, fun s => (h.arriving s).trans (h'.arriving s),
    fun d => (h'.sent d).trans (h.sent d)⟩

theorem setProgram {r : Fin n} (hr : me ≠ r) (p : Proc n α) : Beside me g (g.setProgram r p) :=
  ⟨by simp [hr], fun _ => List.prefix_rfl, fun _ => List.suffix_rfl⟩

theorem setChannel {s d : Fin n} {letters : List Envelope}
    (hto : d = me → g.channel s d <+: letters) (hof : s = me → letters <:+ g.channel s d) :
    Beside me g (g.setChannel s d letters) := by
  refine ⟨rfl, fun s' => ?_, fun d' => ?_⟩
  · rw [channel_setChannel]
    split
    · next h =>
      obtain ⟨rfl, rfl⟩ := h
      exact hto rfl
    · exact List.prefix_rfl
  · rw [channel_setChannel]
    split
    · next h =>
      obtain ⟨rfl, rfl⟩ := h
      exact hof rfl
    · exact List.suffix_rfl

end Beside

theorem step?_beside {g g' : Network n α} {me r : Fin n} {value : α}
    (hdone : g.programs.get me = .done value) (h : g.step? r = some g') : Beside me g g' := by
  have hr : me ≠ r := by
    rintro rfl
    simp [step?, hdone] at h
  unfold step? at h
  split at h
  · cases h
  · cases h
  · next dest letter next hp =>
    split at h
    · cases h
      exact .setProgram hr _
    · cases h
      apply Beside.trans _ (.setProgram hr _)
      exact .setChannel (fun _ => List.prefix_append _ _) fun hme => (hr hme.symm).elim
  · next source tag next hp =>
    split at h
    · next letter rest hchannel =>
      cases h
      apply Beside.trans _ (.setProgram hr _)
      refine .setChannel (fun hme => (hr hme.symm).elim) fun _ => ?_
      rw [hchannel]
      exact List.suffix_cons _ _
    · split at h
      · cases h
        exact .setProgram hr _
      · cases h
  · split at h
    · cases h
      exact .setProgram hr _
    · cases h
  · cases h
    exact ⟨by simp [hr], fun _ => List.prefix_rfl, fun _ => List.suffix_rfl⟩
  · cases h
    exact ⟨by simp [hr], fun _ => List.prefix_rfl, fun _ => List.suffix_rfl⟩

theorem Moves.beside {g g' : Network n α} {me : Fin n} {value : α}
    (hdone : g.programs.get me = .done value) (h : Moves g g') : Beside me g g' := by
  cases h with
  | step r h => exact step?_beside hdone h
  | @timeout r source tag next h _ =>
    apply Beside.setProgram
    rintro rfl
    rw [hdone] at h
    cases h

/-- A rank that has its result stays aside in whatever the others do. -/
theorem reached_beside {g g' : Network n α} {me : Fin n} {value : α}
    (hdone : g.programs.get me = .done value) (h : Relation.ReflTransGen Moves g g') :
    Beside me g g' := by
  induction h with
  | refl => exact .refl
  | tail _ hmove ih => exact ih.trans (hmove.beside (ih.program.trans hdone))

end Network

section Group

variable {me : Fin n}

theorem build_outside {dests before : List Nat} {dest : Nat}
    (h : First (n ≤ ·) dests before dest) :
    Plan.build me dests = throw (.invalidRank dest n) := by
  obtain ⟨⟨after, rfl⟩, clean, hdest⟩ := h
  have hbelow : ∀ _ : Fin n, ∀ x ∈ before, x < n := fun _ x hx => Nat.lt_of_not_le (clean x hx)
  obtain ⟨targets, htargets⟩ := exists_targets hbelow
  have hrank : (Routine.rank dest : Routine n CommError (Fin n)) =
      throw (.invalidRank dest n) := dif_neg (Nat.not_lt.mpr hdest)
  rw [← congrFun htargets me, Plan.build, List.mapM_append, Plan.mapM_rank, pure_bind,
    List.mapM_cons, hrank]
  rfl

theorem guarded_eq_throw {ε : Type} {c : Prop} [Decidable c] (h : c) (e : ε)
    (r : Routine n ε τ) :
    (do
      if c then throw e
      r) = throw e := by
  rw [if_pos h]
  rfl

theorem exchangeCounts_short {counts : List Nat} (h : counts.length ≠ n) :
    Routine.exchangeCounts me counts = throw (.lengthMismatch n counts.length) :=
  guarded_eq_throw h _ _

theorem distribute_short [Codec τ] {plan : Plan n} {values : List τ}
    (h : values.length ≠ plan.numExports) :
    plan.distribute values = throw (.lengthMismatch plan.numExports values.length) :=
  guarded_eq_throw h _ _

theorem distributeRouted_short [Codec τ] {routing : Routing n} {values : List τ}
    (h : values.length ≠ routing.numItems) :
    routing.distribute values = throw (.lengthMismatch routing.numItems values.length) :=
  guarded_eq_throw h _ _

section Boxes

variable [Coord α] {queries before : List (Box α 3)} {query : Box α 3}
  {peers : List (Option (Box α 3))} {r : Nat}

def Beyond (n : Nat) (peers : List (Option (Box α 3))) (query : Box α 3) (r : Nat) : Prop :=
  n ≤ r ∧ ∃ box, peers[r]? = some (some box) ∧ box.meets query = true

theorem beyond_iff : Beyond n peers query r ↔
    r ∈ Routing.ranksWhere peers (·.meets query) ∧ n ≤ r := by
  rw [Routing.mem_ranksWhere]
  exact and_comm

theorem first_ranksWhere (h : IsLeast {r | Beyond n peers query r} r) :
    ∃ lower, First (n ≤ ·) (Routing.ranksWhere peers (·.meets query)) lower r := by
  have hr := beyond_iff.mp h.1
  obtain ⟨lower, r', hfirst⟩ := First.exists_of_mem ⟨r, hr⟩
  have hascending : (Routing.ranksWhere peers (·.meets query)).Pairwise (· < ·) := by
    rw [Routing.ranksWhere_eq, ← positions_eq peers fun peer => peer.any (·.meets query)]
    exact positions_ascending _ _
  obtain ⟨after, hsplit⟩ := hfirst.split
  rw [hsplit] at hr hascending
  have hle : r ≤ r' := h.2 (beyond_iff.mpr ⟨by simp [hsplit], hfirst.bad⟩)
  have hge : r' ≤ r := by
    rcases List.mem_append.mp hr.1 with hlower | hrest
    · exact (hfirst.clean r hlower hr.2).elim
    · rcases List.mem_cons.mp hrest with rfl | hafter
      · exact le_rfl
      · exact ((List.pairwise_cons.mp (List.pairwise_append.mp hascending).2.1).1 r hafter).le
  exact ⟨lower, le_antisymm hge hle ▸ hfirst⟩

theorem ofQueryBoxes_outside
    (hquery : First (fun query => ∃ r, Beyond n peers query r) queries before query)
    (hr : IsLeast {r | Beyond n peers query r} r) :
    Routing.ofQueryBoxes me queries peers = throw (.invalidRank r n) := by
  let dests (query : Box α 3) : List Nat := Routing.ranksWhere peers (·.meets query)
  obtain ⟨lower, hrank⟩ := first_ranksWhere hr
  have houtside := (hquery.congr fun query => exists_congr fun r => beyond_iff.symm).flatMap
    (f := dests) hrank
  rw [← Routing.pairs_dests] at houtside
  have hplan : Plan.build me _ = _ := build_outside houtside
  change (Plan.build me ((Routing.pairs queries dests).map (·.2)) >>= _) = _
  rw [hplan]
  rfl

end Boxes

end Group

section Search

variable [Coord α]

theorem prepare_rejected {config : SearchConfig α} {entities : List (Entity α)}
    {fault : ConfigFault α} (h : config.validate = .error fault) :
    Session.prepare config entities = .error (.unsupportedConfig fault) := by
  rw [Session.prepare, h]
  rfl

theorem prepare_malformed {config : SearchConfig α} {entities before : List (Entity α)}
    {e : Entity α} (hconfig : config.validate = .ok ())
    (h : First (fun e => e.bounds.isValid = false) (Session.keep config.domainDimension entities)
      before e) :
    Session.prepare config entities = .error (.index (.invalidVolume before.length)) := by
  obtain ⟨⟨after, hsplit⟩, clean, hbox⟩ := h
  have hbuild : Hierarchy.build ((before ++ e :: after).zipIdx.map fun x => (x.2, x.1.bounds)) =
      .error (.invalidVolume before.length) := by
    refine Hierarchy.build_error_iff.mpr ⟨by simp, by simpa using hbox, fun j hj => ?_⟩
    have hclean := clean _ (List.getElem_mem hj)
    simpa [hj] using hclean
  rw [Session.prepare, hconfig, hsplit]
  change ((Hierarchy.build _).mapError _ >>= _) = _
  rw [hbuild]
  rfl

theorem start_unprepared [Codec α] {me : Fin n} {config : SearchConfig α}
    {entities : List (Entity α)} {map : LocalMap α} {fault : SearchError α}
    (h : Session.prepare config entities = .error fault) :
    (Session.start me entities map config).run = .done (.error fault) := by
  rw [Session.start, h]
  rfl

def Centerless (map : LocalMap α) (e : Entity α) : Prop := ∃ fault, map.centroid e = .error fault

/-- What is wrong with a range entity at a position, the box before the centroid. -/
inductive Flaw (map : LocalMap α) (position : Nat) (e : Entity α) : SearchError α → Prop where
  | malformed (box : e.bounds.isValid = false) : Flaw map position e (.index (.invalidVolume position))
  | centerless {fault : SearchError α} (box : e.bounds.isValid = true)
      (centroid : map.centroid e = .error fault) : Flaw map position e fault

def Flawed (map : LocalMap α) (e : Entity α) : Prop :=
  e.bounds.isValid = false ∨ Centerless map e

theorem Flawed.flaw {map : LocalMap α} {e : Entity α} (h : Flawed map e) (position : Nat) :
    ∃ fault, Flaw map position e fault := by
  cases hbox : e.bounds.isValid with
  | false => exact ⟨_, .malformed hbox⟩
  | true =>
    obtain ⟨fault, hfault⟩ := h.resolve_left (by simp [hbox])
    exact ⟨fault, .centerless hbox hfault⟩

theorem queries_flawed {tolerance : α} {map : LocalMap α} {range before : List (Entity α)}
    {e : Entity α} {fault : SearchError α} (h : First (Flawed map) range before e)
    (hfault : Flaw map before.length e fault) :
    Session.queries tolerance map range = .error fault := by
  apply First.mapM (h.zipIdx.congr fun (e, position) => ?_)
  · cases hfault with
    | malformed hbox =>
      simp only [hbox]
      rfl
    | centerless hbox hcentroid =>
      simp only [hbox, hcentroid]
      rfl
  · cases hbox : e.bounds.isValid with
    | false =>
      simp only [hbox]
      exact ⟨fun _ => .inl hbox, fun _ => ⟨_, rfl⟩⟩
    | true => cases hcentroid : map.centroid e <;> simp [Flawed, Centerless, hbox, hcentroid]

theorem search_unasked [Codec α] {session : Session α n} {entities : List (Entity α)}
    {map : LocalMap α} {fault : SearchError α}
    (h : Session.queries session.config.tolerance map
      (Session.keep session.config.rangeDimension entities) = .error fault) :
    session.search entities map = .done (.error fault, session) := by
  have hlocate : (session.locateAll entities map).run = .done (.error fault) := by
    rw [Session.locateAll, h]
    rfl
  rw [Session.search, hlocate]
  rfl

omit [Coord α] in
theorem centers_centerless {me : Fin n} {dimension : Option Dimension} {map : LocalMap α}
    {entities before : List (Entity α)} {e : Entity α} {fault : SearchError α}
    (h : First (Centerless map) (Cloud.owned me dimension entities) before e)
    (hfault : map.centroid e = .error fault) :
    Pairing.centers me dimension map entities = .error fault := by
  apply First.mapM (h.congr fun e => ?_)
  · rw [hfault]
    rfl
  · rw [Centerless]
    cases map.centroid e <;> simp [Except.map]

section Pair

variable {me : Fin n} {config : PairingConfig α} {domain range before : List (Entity α)}
  {domainMap rangeMap : LocalMap α} {rule : PairingRule α} {e : Entity α} {fault : SearchError α}

theorem prepare_unconfigured {fault : ConfigFault α} (h : config.validate = .error fault) :
    Pairing.prepare me config domain domainMap range rangeMap =
      .error (.unsupportedConfig fault) := by
  rw [Pairing.prepare, h]
  rfl

theorem prepare_source (hconfig : config.validate = .ok rule)
    (h : First (Centerless domainMap) (Cloud.owned me config.domainDimension domain) before e)
    (hfault : domainMap.centroid e = .error fault) :
    Pairing.prepare me config domain domainMap range rangeMap = .error fault := by
  rw [Pairing.prepare, hconfig, centers_centerless h hfault]
  rfl

theorem prepare_target (hconfig : config.validate = .ok rule)
    (hsources : ∀ source ∈ Cloud.owned me config.domainDimension domain,
      ¬ Centerless domainMap source)
    (h : First (Centerless rangeMap) (Cloud.owned me config.rangeDimension range) before e)
    (hfault : rangeMap.centroid e = .error fault) :
    Pairing.prepare me config domain domainMap range rangeMap = .error fault := by
  have hcenters : ∀ source ∈ Cloud.owned me config.domainDimension domain,
      ∃ center, domainMap.centroid source = .ok center := by
    intro source hsource
    cases hcenter : domainMap.centroid source with
    | ok center => exact ⟨center, rfl⟩
    | error fault => exact (hsources source hsource ⟨fault, hcenter⟩).elim
  rw [Pairing.prepare, hconfig, Cloud.centers_ok hcenters, centers_centerless h hfault]
  rfl

theorem pair_unprepared [Codec α]
    (h : Pairing.prepare me config domain domainMap range rangeMap = .error fault) :
    (Pairing.build me config domain domainMap range rangeMap).run = .done (.error fault) := by
  rw [Pairing.build, h]
  rfl

end Pair

end Search

inductive Call (n : Nat) (α τ : Type) where
  | plan (dests : List Nat)
  | exchangeCounts (counts : List Nat)
  | distribute (plan : Plan n) (values : List τ)
  | distributeRouted (routing : Routing n) (values : List τ)
  | routeBoxes (queries : List (Box α 3)) (peers : List (Option (Box α 3)))
  | openSession (entities : List (Entity α)) (map : LocalMap α) (config : SearchConfig α)
  | search (session : Session α n) (entities : List (Entity α)) (map : LocalMap α)
  | pair (config : PairingConfig α) (domain : List (Entity α)) (domainMap : LocalMap α)
      (range : List (Entity α)) (rangeMap : LocalMap α)

namespace Call

def Result : Call n α τ → Type
  | .plan _ => Except CommError (Plan n)
  | exchangeCounts _ => Except CommError (List Nat)
  | distribute _ _ => Except CommError (List τ)
  | distributeRouted _ _ => Except CommError (List τ)
  | routeBoxes _ _ => Except CommError (Routing n)
  | openSession _ _ _ => Except (SearchError α) (Session α n)
  | search _ _ _ => Except (SearchError α) Unit × Session α n
  | pair _ _ _ _ _ => Except (SearchError α) (Pairing α)

section

variable [Coord α] [Codec α] [Codec τ] (me : Fin n)

def process : (c : Call n α τ) → Proc n c.Result
  | .plan dests => (Plan.build me dests).run
  | exchangeCounts counts => (Routine.exchangeCounts me counts).run
  | distribute p values => (p.distribute values).run
  | distributeRouted routing values => (routing.distribute values).run
  | routeBoxes queries peers => (Routing.ofQueryBoxes me queries peers).run
  | openSession entities map config => (Session.start me entities map config).run
  | search session entities map => session.search entities map
  | pair config domain domainMap range rangeMap =>
    (Pairing.build me config domain domainMap range rangeMap).run

end

section

variable [Coord α] (me : Fin n)

def Offends : Call n α τ → Prop
  | .plan dests => ∃ dest ∈ dests, n ≤ dest
  | exchangeCounts counts => counts.length ≠ n
  | distribute p values => values.length ≠ p.numExports
  | distributeRouted routing values => values.length ≠ routing.numItems
  | routeBoxes queries peers => ∃ query ∈ queries, ∃ r, Beyond n peers query r
  | openSession entities _ config => (∃ fault, config.validate = .error fault) ∨
    ∃ e ∈ Session.keep config.domainDimension entities, e.bounds.isValid = false
  | search session entities map =>
    ∃ e ∈ Session.keep session.config.rangeDimension entities, Flawed map e
  | pair config domain domainMap range rangeMap => (∃ fault, config.validate = .error fault) ∨
    (∃ e ∈ Cloud.owned me config.domainDimension domain, Centerless domainMap e) ∨
    ∃ e ∈ Cloud.owned me config.rangeDimension range, Centerless rangeMap e

/-- The result names the first thing that is wrong with the arguments: the
configuration comes before the entities, sources come before targets, and a
failed search keeps its session. -/
def Refused : (c : Call n α τ) → c.Result → Prop
  | .plan dests, result => ∃ before dest, First (n ≤ ·) dests before dest ∧
    result = .error (.invalidRank dest n)
  | exchangeCounts counts, result => counts.length ≠ n ∧
    result = .error (.lengthMismatch n counts.length)
  | distribute p values, result => values.length ≠ p.numExports ∧
    result = .error (.lengthMismatch p.numExports values.length)
  | distributeRouted routing values, result => values.length ≠ routing.numItems ∧
    result = .error (.lengthMismatch routing.numItems values.length)
  | routeBoxes queries peers, result => ∃ before query r,
    First (fun query => ∃ r, Beyond n peers query r) queries before query ∧
    IsLeast {r | Beyond n peers query r} r ∧ result = .error (.invalidRank r n)
  | openSession entities _ config, result =>
    (∃ fault, config.validate = .error fault ∧ result = .error (.unsupportedConfig fault)) ∨
    ∃ before e, config.validate = .ok () ∧
      First (fun e => e.bounds.isValid = false) (Session.keep config.domainDimension entities)
        before e ∧
      result = .error (.index (.invalidVolume before.length))
  | search session entities map, result => ∃ before e fault,
    First (Flawed map) (Session.keep session.config.rangeDimension entities) before e ∧
    Flaw map before.length e fault ∧ result = (.error fault, session)
  | pair config domain domainMap range rangeMap, result =>
    (∃ fault, config.validate = .error fault ∧ result = .error (.unsupportedConfig fault)) ∨
    ∃ rule before e fault, config.validate = .ok rule ∧ result = .error fault ∧
      ((First (Centerless domainMap) (Cloud.owned me config.domainDimension domain) before e ∧
        domainMap.centroid e = .error fault) ∨
      (∀ source ∈ Cloud.owned me config.domainDimension domain, ¬ Centerless domainMap source) ∧
        First (Centerless rangeMap) (Cloud.owned me config.rangeDimension range) before e ∧
        rangeMap.centroid e = .error fault)

end

theorem Refused.process [Coord α] [Codec α] [Codec τ] {me : Fin n} {c : Call n α τ}
    {result : c.Result} (h : c.Refused me result) : c.process me = .done result := by
  cases c with
  | plan dests =>
    obtain ⟨before, dest, hdest, rfl⟩ := h
    exact build_outside hdest
  | exchangeCounts counts =>
    obtain ⟨hlength, rfl⟩ := h
    exact exchangeCounts_short hlength
  | distribute p values =>
    obtain ⟨hlength, rfl⟩ := h
    exact distribute_short hlength
  | distributeRouted routing values =>
    obtain ⟨hlength, rfl⟩ := h
    exact distributeRouted_short hlength
  | routeBoxes queries peers =>
    obtain ⟨before, query, r, hquery, hr, rfl⟩ := h
    exact ofQueryBoxes_outside hquery hr
  | openSession entities map config =>
    rcases h with ⟨fault, hconfig, rfl⟩ | ⟨before, e, hconfig, he, rfl⟩
    · exact start_unprepared (prepare_rejected hconfig)
    · exact start_unprepared (prepare_malformed hconfig he)
  | search session entities map =>
    obtain ⟨before, e, fault, he, hfault, rfl⟩ := h
    exact search_unasked (queries_flawed he hfault)
  | pair config domain domainMap range rangeMap =>
    rcases h with ⟨fault, hconfig, rfl⟩ | ⟨rule, before, e, fault, hconfig, rfl, hcenter⟩
    · exact pair_unprepared (prepare_unconfigured hconfig)
    · rcases hcenter with ⟨he, hfault⟩ | ⟨hsources, he, hfault⟩
      · exact pair_unprepared (prepare_source hconfig he hfault)
      · exact pair_unprepared (prepare_target hconfig hsources he hfault)

theorem Offends.refused [Coord α] {me : Fin n} {c : Call n α τ} (h : c.Offends me) :
    ∃ result, c.Refused me result := by
  cases c with
  | plan dests =>
    obtain ⟨before, dest, hdest⟩ := First.exists_of_mem h
    exact ⟨_, before, dest, hdest, rfl⟩
  | exchangeCounts counts => exact ⟨_, h, rfl⟩
  | distribute p values => exact ⟨_, h, rfl⟩
  | distributeRouted routing values => exact ⟨_, h, rfl⟩
  | routeBoxes queries peers =>
    obtain ⟨before, query, hquery⟩ := First.exists_of_mem h
    have hleast : IsLeast {r | Beyond n peers query r} (sInf {r | Beyond n peers query r}) :=
      ⟨Nat.sInf_mem hquery.bad, fun r hr => Nat.sInf_le hr⟩
    exact ⟨_, before, query, _, hquery, hleast, rfl⟩
  | openSession entities map config =>
    cases hconfig : config.validate with
    | error fault => exact ⟨_, .inl ⟨fault, hconfig, rfl⟩⟩
    | ok =>
      obtain ⟨before, e, he⟩ := First.exists_of_mem (h.resolve_left (by simp [hconfig]))
      exact ⟨_, .inr ⟨before, e, hconfig, he, rfl⟩⟩
  | search session entities map =>
    obtain ⟨before, e, he⟩ := First.exists_of_mem h
    obtain ⟨fault, hfault⟩ := he.bad.flaw before.length
    exact ⟨_, before, e, fault, he, hfault, rfl⟩
  | pair config domain domainMap range rangeMap =>
    cases hconfig : config.validate with
    | error fault => exact ⟨_, .inl ⟨fault, hconfig, rfl⟩⟩
    | ok rule =>
      by_cases hsource : ∃ e ∈ Cloud.owned me config.domainDimension domain, Centerless domainMap e
      · obtain ⟨before, e, he⟩ := First.exists_of_mem hsource
        obtain ⟨fault, hfault⟩ := he.bad
        exact ⟨_, .inr ⟨rule, before, e, fault, hconfig, rfl, .inl ⟨he, hfault⟩⟩⟩
      · have htarget := (h.resolve_left (by simp [hconfig])).resolve_left hsource
        obtain ⟨before, e, he⟩ := First.exists_of_mem htarget
        obtain ⟨fault, hfault⟩ := he.bad
        push Not at hsource
        exact ⟨_, .inr ⟨rule, before, e, fault, hconfig, rfl, .inr ⟨hsource, he, hfault⟩⟩⟩

end Call

/-- In whatever state the group is, a call with wrong arguments has its result
at once, without a step of the rank that makes it: the state in which the rank
goes on with the first thing that is wrong is the one in which it makes the
call, every letter under way included. However the others go on, the rank has
sent them nothing and has taken in nothing of theirs. -/
theorem refused_calls_stay_silent [Coord α] [Codec α] [Codec τ] (c : Call n α τ) (me : Fin n)
    (h : c.Offends me) : ∃ result, (∀ x, c.Refused me x ↔ x = result) ∧
      (∀ (β : Type) (g : Network n β) (next : c.Result → Proc n β),
        g.programs.get me = (c.process me).bind next → g.setProgram me (next result) = g) ∧
      ∀ g g' : Network n c.Result, g.programs.get me = c.process me →
        Relation.ReflTransGen Network.Moves g g' →
          g'.programs.get me = .done result ∧ (∀ s, g.channel s me <+: g'.channel s me) ∧
          ∀ d, g'.channel me d <:+ g.channel me d := by
  obtain ⟨result, hresult⟩ := h.refused
  have hprocess := hresult.process
  refine ⟨result, fun x => ⟨fun hx => ?_, ?_⟩, fun β g next hg => ?_, fun g g' hg hreach => ?_⟩
  · exact Proc.done.inj (hx.process.symm.trans hprocess)
  · rintro rfl
    exact hresult
  · rw [hprocess] at hg
    refine Network.ext_get (fun r => ?_) (fun _ _ => rfl) (fun _ => rfl) fun _ => rfl
    rw [Network.programs_setProgram]
    split
    · next hr => rw [hr, hg]; rfl
    · rfl
  · have hdone := hg.trans hprocess
    have hbeside := Network.reached_beside hdone hreach
    exact ⟨hbeside.program.trans hdone, hbeside.arriving, hbeside.sent⟩

def soundPoint : Entity ℚ := .ofPoint 5 0 (.replicate 3 0) false

def invertedBox : Entity ℚ := .ofBox 6 0 ⟨.replicate 3 1, .replicate 3 0⟩

def emptySession (me : Fin 2) : Session ℚ 2 :=
  ⟨me, ⟨1, none, none, false⟩, [], .basic, ⟨#[]⟩, [none, none], .empty, []⟩

def invertedSearch (me : Fin 2) : Call 2 ℚ UInt64 :=
  .search (emptySession me) [soundPoint, invertedBox] .basic

def invertedGroup (sender me : Fin 2) : Network 2 (Except (SearchError ℚ) Unit × Session ℚ 2) :=
  (Network.start fun _ => (invertedSearch me).process me).setChannel sender me [⟨Tag.counts, []⟩]

theorem refused_calls_inverted_box : (invertedSearch 0).Offends 0 ∧
    (invertedGroup 1 0).channel 1 0 = [⟨Tag.counts, []⟩] ∧
    (invertedGroup 1 0).setProgram 0 (.done (.error (.index (.invalidVolume 1)), emptySession 0)) =
      invertedGroup 1 0 := by
  have hbox : invertedBox.bounds.isValid = false := by decide +kernel
  have hpoint : ¬ Flawed LocalMap.basic soundPoint := by
    rintro (hinvalid | ⟨fault, hfault⟩)
    · exact absurd hinvalid (by decide +kernel)
    · cases hfault
  have hkept : invertedBox ∈ Session.keep (emptySession 0).config.rangeDimension
      [soundPoint, invertedBox] := List.mem_filter.mpr ⟨by simp, rfl⟩
  have hoffends : (invertedSearch 0).Offends 0 := ⟨invertedBox, hkept, .inl hbox⟩
  obtain ⟨result, hrefused, hstays, -⟩ := refused_calls_stay_silent (invertedSearch 0) 0 hoffends
  obtain rfl := (hrefused (.error (.index (.invalidVolume 1)), emptySession 0)).mp
    ⟨[soundPoint], invertedBox, _, ⟨⟨[], rfl⟩, by simpa using hpoint, .inl hbox⟩, .malformed hbox, rfl⟩
  exact ⟨hoffends, rfl, hstays _ (invertedGroup 1 0) .done
    (Proc.bind_done (Call.process 0 (invertedSearch 0))).symm⟩

end Vicinity
