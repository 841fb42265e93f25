import Mathlib
import Vicinity.Proofs.Coord.Float
import Vicinity.Proofs.Group.Candidates
import Vicinity.Proofs.Search.Matches
import Vicinity.Proofs.Search.Relation

/-!
# Searches and brute force

Ranks that open their sessions and search together find what comparing every
pair finds, and in the same order: a rank first learns of the matches in its
own domain, by the rank that asked, and then of the matches of its own range
entities, by the rank that answered. The bounds of a rank, the index and the
two exchanges lose no match, repeat none and change no order.
-/

set_option autoImplicit false

namespace Vicinity

variable {n : Nat} {α : Type} [Coord α]

def Share.searches [Codec α] (me : Fin n) (share : Share α) (requests : List (Request α)) :
    Routine n (SearchError α) (List (Except (SearchError α) Unit × Session α n)) := do
  let session ← Session.start me share.entities share.map share.config
  ExceptT.lift (session.searchAll requests)

/-- The correspondence of a rank by brute force: the owners of its own range
entities, the matches in its domain by the rank that asks, and the matches of
its range entities by the rank whose domain they are in. -/
def bruteForce (shares : Fin n → Share α) (requests : Fin n → Request α) (r : Fin n) :
    Correspondence α :=
  let owners := ((shares r).range (requests r)).foldl
    (fun c e => c.setRangeOwner e.id e.owner) Correspondence.empty
  let inDomain := (List.finRange n).flatMap fun s => (shares r).records (shares s) (requests s)
  let ofRange := (List.finRange n).flatMap fun q => (shares q).records (shares r) (requests r)
  (owners.extend inDomain).extend ofRange

/-- No range entity is malformed, its centroid evaluates and can be located in
every domain entity that its widened box meets, and the counts fit their words. -/
structure Answerable (shares : Fin n → Share α) (requests : Fin n → Request α) : Prop where
  valid : ∀ s, ∀ e ∈ (shares s).range (requests s), e.bounds.isValid = true
  centroid : ∀ s, ∀ e ∈ (shares s).range (requests s), ∃ point,
    (requests s).2.centroid e = .ok point
  locates : ∀ p s, ∀ e ∈ (shares s).range (requests s),
    (shares p).Locates (shares s) (requests s).2 e
  fewRange : ∀ s, ((shares s).range (requests s)).length < UInt64.size
  fewRecords : ∀ p s, ((shares p).records (shares s) (requests s)).length < UInt64.size

def unmatchedBy (shares : Fin n → Share α) (requests : Fin n → Request α) (r : Fin n) :
    List EntityId :=
  if (shares r).config.trackMissed then
    Session.unmatched (bruteForce shares requests r) ((shares r).range (requests r))
  else []

section

variable {shares : Fin n → Share α} {requests : Fin n → Request α}

theorem bruteForce_eq (r : Fin n) : bruteForce shares requests r = Correspondence.edited
    (((shares r).range (requests r)).map (fun e => .setOwner e.id e.owner) ++
      [.extend ((List.finRange n).flatMap fun s => (shares r).records (shares s) (requests s)),
        .extend ((List.finRange n).flatMap fun q => (shares q).records (shares r) (requests r))]) := by
  rw [Correspondence.edited, List.foldl_append, List.foldl_map]
  rfl

/-- A rank knows the matches in its own domain and those of its own range entities. -/
theorem domainEntities_bruteForce {r : Fin n} {d range : EntityId} :
    d ∈ (bruteForce shares requests r).domainEntities range ↔ ∃ p s, (r = p ∨ r = s) ∧
      ∃ record ∈ (shares p).records (shares s) (requests s), record.pair = (d, range) := by
  rw [bruteForce_eq, Correspondence.mem_domainEntities, Correspondence.mem_pairs]
  simp only [Correspondence.inserted, List.flatMap_append, List.flatMap_map, Edit.records,
    List.flatMap_cons, List.flatMap_nil, List.append_nil, List.mem_append, List.mem_flatMap,
    List.mem_finRange, List.not_mem_nil, and_false, exists_false, false_or, true_and]
  constructor
  · rintro ⟨record, ⟨s, hrecord⟩ | ⟨p, hrecord⟩, hpair⟩
    · exact ⟨r, s, .inl rfl, record, hrecord, hpair⟩
    · exact ⟨p, r, .inr rfl, record, hrecord, hpair⟩
  · rintro ⟨p, s, rfl | rfl, record, hrecord, hpair⟩
    · exact ⟨record, .inl ⟨s, hrecord⟩, hpair⟩
    · exact ⟨record, .inr ⟨p, hrecord⟩, hpair⟩

/-- The rank with the domain entity and the rank that asked both know of a match. -/
theorem bruteForce_reports {p s r : Fin n} {record : Record α}
    (h : record ∈ (shares p).records (shares s) (requests s)) (hr : r = p ∨ r = s) :
    record.range ∈ (bruteForce shares requests r).rangeEntities record.domain ∧
      record.domain ∈ (bruteForce shares requests r).domainEntities record.range := by
  have hdomain := domainEntities_bruteForce.mpr ⟨p, s, hr, record, h, rfl⟩
  refine ⟨?_, hdomain⟩
  rw [bruteForce_eq, Correspondence.mem_domainEntities] at hdomain
  rwa [bruteForce_eq, Correspondence.mem_rangeEntities]

end

namespace Session

def holding (shares : Fin n → Share α) (trees : Fin n → Hierarchy α Nat 3) (r : Fin n)
    (correspondence : Correspondence α) (missed : List EntityId) : Session α n where
  me := r
  config := (shares r).config
  domain := (shares r).domain
  domainMap := (shares r).map
  index := trees r
  regions := (List.finRange n).map fun s => (trees s).bounds
  correspondence
  missed

variable {shares : Fin n → Share α} {trees : Fin n → Hierarchy α Nat 3}

theorem prepare_ok {p : Share α} {tree : Hierarchy α Nat 3}
    (hconfig : p.config.validate = .ok ()) (hbuild : Hierarchy.build p.items = .ok tree) :
    prepare p.config p.entities = .ok (p.domain, tree) := by
  rw [prepare, hconfig]
  change (do
    let index ← (Hierarchy.build p.items).mapError SearchError.index
    pure (p.domain, index)) = _
  rw [hbuild]
  rfl

def askAround [Codec α] (s : Session α n) (entities : List (Entity α)) (map : LocalMap α) :
    Routine n (SearchError α) (List (RangeQuery α × Fin n)) := do
  let sent ← Routine.ofExcept
    (queries s.config.tolerance map (keep s.config.rangeDimension entities))
  let routing ← (Routing.ofQueryBoxes s.me (sent.map (·.box)) s.regions).mapError .comm
  let imported ← (routing.distribute sent).mapError .comm
  pure (imported.zip routing.importRanks)

def answer [Codec α] (s : Session α n) (entities : List (Entity α))
    (asking : List (RangeQuery α × Fin n)) :
    Routine n (SearchError α) (Correspondence α × List EntityId) := do
  let range := keep s.config.rangeDimension entities
  let owners := range.foldl (fun c e => c.setRangeOwner e.id e.owner) Correspondence.empty
  let found ← Routine.ofExcept (s.resolve asking)
  let back ← (Plan.build s.me (found.map fun f => f.2.val)).mapError .comm
  let returned ← (back.distribute (found.map (·.1))).mapError .comm
  let correspondence := (owners.extend (found.map (·.1))).extend returned
  pure (correspondence,
    if s.config.trackMissed then unmatched correspondence range else [])

theorem locateAll_eq [Codec α] (s : Session α n) (entities : List (Entity α)) (map : LocalMap α) :
    s.locateAll entities map = s.askAround entities map >>= s.answer entities := by
  simp only [locateAll, askAround, answer, bind_assoc, pure_bind]

def imports (shares : Fin n → Share α) (trees : Fin n → Hierarchy α Nat 3)
    (requests : Fin n → Request α) (r : Fin n) : List (Entity α × Fin n) :=
  (List.finRange n).flatMap fun s => (((shares s).range (requests s)).filter fun e =>
    (trees r).bounds.any fun region => region.meets ((shares s).widened e)).map (·, s)

def found (shares : Fin n → Share α) (requests : Fin n → Request α) (r : Fin n) :
    List (Record α × Fin n) :=
  (List.finRange n).flatMap fun s => ((shares r).records (shares s) (requests s)).map (·, s)

def queriesOf (shares : Fin n → Share α) (requests : Fin n → Request α) (r : Fin n) :
    List (RangeQuery α) :=
  ((shares r).range (requests r)).map ((shares r).query (requests r).2)

def arriving (shares : Fin n → Share α) (trees : Fin n → Hierarchy α Nat 3)
    (requests : Fin n → Request α) (r : Fin n) : List (RangeQuery α × Fin n) :=
  (imports shares trees requests r).map fun i => ((shares i.2).query (requests i.2).2 i.1, i.2)

variable {requests : Fin n → Request α}

theorem found_records (r : Fin n) : (found shares requests r).map (·.1) =
    (List.finRange n).flatMap fun s => (shares r).records (shares s) (requests s) := by
  rw [found, List.map_flatMap]
  apply List.flatMap_congr
  intro s _
  rw [List.map_map]
  exact List.map_id _

theorem found_origins (r : Fin n) : (found shares requests r).map (fun f => f.2.val) =
    (List.finRange n).flatMap fun s =>
      ((shares r).records (shares s) (requests s)).map fun _ => s.val := by
  rw [found, List.map_flatMap]
  apply List.flatMap_congr
  intro s _
  rw [List.map_map]
  rfl

theorem addressed_found (q r : Fin n) :
    addressed ((found shares requests q).map fun f => f.2.val)
      ((found shares requests q).map (·.1)) r = (shares q).records (shares r) (requests r) := by
  rw [found_records, found_origins, addressed_groups (List.nodup_finRange n),
    if_pos (List.mem_finRange r)]

theorem resolve_imports [OrderedCoord α]
    (hbuild : ∀ r, Hierarchy.build (shares r).items = .ok (trees r))
    (hsize : ∀ r, (shares r).domain.length < UInt64.size) (h : Answerable shares requests)
    (r : Fin n) (c : Correspondence α) (missed : List EntityId) :
    (holding shares trees r c missed).resolve (arriving shares trees requests r) =
      .ok (found shares requests r) := by
  have hsize' : (shares r).domain.length ≤ 2 ^ 64 := (hsize r).le
  have hmem : ∀ i ∈ imports shares trees requests r,
      i.1 ∈ (shares i.2).range (requests i.2) := by
    rintro ⟨e, s⟩ hi
    obtain ⟨s', -, hs'⟩ := List.mem_flatMap.mp hi
    obtain ⟨e', he', heq⟩ := List.mem_map.mp hs'
    cases heq
    exact (List.mem_filter.mp he').1
  have htree : Hierarchy.build (shares r).items = .ok (holding shares trees r c missed).index :=
    hbuild r
  rw [arriving, Share.resolve_ok htree hsize' rfl rfl rfl
    (fun i hi => h.centroid i.2 i.1 (hmem i hi)) (fun i hi => h.locates r i.2 i.1 (hmem i hi))]
  rw [imports, found, List.flatMap_assoc]
  apply congrArg Except.ok
  apply List.flatMap_congr
  intro s _
  rw [← Share.records_of_region (hbuild r) hsize', List.map_flatMap, List.flatMap_map]

variable [Codec α]

theorem start_finishes (hcodec : ∀ x : α, Codec.RoundTrips x)
    (hconfig : ∀ r, (shares r).config.validate = .ok ())
    (hbuild : ∀ r, Hierarchy.build (shares r).items = .ok (trees r)) :
    Routine.Finishes (fun r => start r (shares r).entities (shares r).map (shares r).config)
      fun r => holding shares trees r .empty [] := by
  have hregions : ∀ r, Codec.RoundTrips (trees r).bounds := fun _ =>
    Codec.roundTrips_anyOption (Codec.roundTrips_anyBox hcodec) _
  have hgather : Routine.Finishes (fun r => Routing.gatherBoxes r (trees r).bounds)
      fun _ => (List.finRange n).map fun s => (trees s).bounds :=
    ⟨_, Routine.allGather_completes hregions⟩
  dsimp only [start]
  apply (Routine.Finishes.ofExcept fun r => prepare_ok (hconfig r) (hbuild r)).bind
  apply (hgather.mapError _).bind
  exact Routine.Finishes.pure _

/-- The queries reach every rank whose bounds they meet. -/
theorem exchange_finishes (hcodec : ∀ x : α, Codec.RoundTrips x)
    (trees : Fin n → Hierarchy α Nat 3)
    (hfew : ∀ s, ((shares s).range (requests s)).length < UInt64.size) :
    ∃ routings values, Routine.Finishes (fun r => Routing.ofQueryBoxes r
        ((queriesOf shares requests r).map (·.box))
        ((List.finRange n).map fun s => (trees s).bounds)) routings ∧
      Routine.Finishes (fun r => (routings r).distribute (queriesOf shares requests r)) values ∧
      ∀ r, (values r).zip (routings r).importRanks = arriving shares trees requests r := by
  have hsmall : ∀ s, ((queriesOf shares requests s).map (·.box)).length < UInt64.size := by
    intro s
    simpa [queriesOf] using hfew s
  have hlength : ∀ s, (queriesOf shares requests s).length =
      ((queriesOf shares requests s).map (·.box)).length := by
    intro s
    rw [List.length_map]
  have hqueries : ∀ s, ∀ query ∈ queriesOf shares requests s, Codec.RoundTrips query :=
    fun _ query _ => Codec.roundTrips_rangeQuery (Codec.roundTrips_anyVector hcodec query.point)
      (Codec.roundTrips_anyBox hcodec query.box)
  obtain ⟨routings, hrouting, hexact⟩ := Routing.ranksWhere_exact (fun _ s => (trees s).bounds)
    (fun box region => region.meets box) hsmall
  have hvalues := hexact.distributes _ _ hlength hqueries
  refine ⟨routings, _, hrouting, hvalues, fun r => ?_⟩
  rw [hexact.importRanks, Routing.carried_zip hlength, arriving, imports, List.map_flatMap]
  apply List.flatMap_congr
  intro s _
  rw [positions_map, positions_items, queriesOf, List.filter_map, List.map_map, List.map_map]
  rfl

theorem askAround_finishes (hcodec : ∀ x : α, Codec.RoundTrips x)
    (trees : Fin n → Hierarchy α Nat 3)
    (hvalid : ∀ s, ∀ e ∈ (shares s).range (requests s), e.bounds.isValid = true)
    (hcentroid : ∀ s, ∀ e ∈ (shares s).range (requests s), ∃ point,
      (requests s).2.centroid e = .ok point)
    (hfew : ∀ s, ((shares s).range (requests s)).length < UInt64.size)
    (c : Fin n → Correspondence α) (missed : Fin n → List EntityId) :
    Routine.Finishes
      (fun r => (holding shares trees r (c r) (missed r)).askAround (requests r).1 (requests r).2)
      (arriving shares trees requests) := by
  obtain ⟨routings, values, hrouting, hvalues, hzip⟩ := exchange_finishes hcodec trees hfew
  rw [← funext hzip]
  dsimp only [askAround]
  apply (Routine.Finishes.ofExcept fun r => Share.queries_ok (hvalid r) (hcentroid r)).bind
  apply (hrouting.mapError _).bind
  apply (hvalues.mapError _).bind
  exact Routine.Finishes.pure _

/-- The records return to the ranks that asked. -/
theorem return_finishes (hcodec : ∀ x : α, Codec.RoundTrips x) (h : Answerable shares requests) :
    ∃ plans, Routine.Finishes
        (fun r => Plan.build r ((found shares requests r).map fun f => f.2.val)) plans ∧
      Routine.Finishes (fun r => (plans r).distribute ((found shares requests r).map (·.1)))
        fun r => (List.finRange n).flatMap fun q => (shares q).records (shares r) (requests r) := by
  let targets (r : Fin n) : List (Fin n) := (found shares requests r).map (·.2)
  have htargets : ∀ r, (targets r).map Fin.val =
      (found shares requests r).map fun f => f.2.val := fun r => List.map_map
  have hlength : ∀ r, ((found shares requests r).map (·.1)).length = (targets r).length := by
    intro r
    rw [List.length_map, List.length_map]
  have hsmall : ∀ s d, (targets s).count d < UInt64.size := by
    intro s d
    have hcount := length_addressed (show ((found shares requests s).map (·.1)).length =
      ((found shares requests s).map fun f => f.2.val).length by simp) d
    rw [addressed_found] at hcount
    rw [← Plan.count_map_val, htargets, ← hcount]
    exact h.fewRecords s d
  have hrecords : ∀ r, ∀ record ∈ (found shares requests r).map (·.1), Codec.RoundTrips record :=
    fun _ record _ => Codec.roundTrips_record
      (Codec.roundTrips_anyVector hcodec record.coordinates)
  have hplan := Plan.build_completes hsmall
  have hreturn := Plan.distribute_completes hlength hrecords hsmall
  simp only [htargets, addressed_found] at hplan hreturn
  exact ⟨Plan.built targets, ⟨_, hplan⟩, ⟨_, hreturn⟩⟩

variable [OrderedCoord α] (hcodec : ∀ x : α, Codec.RoundTrips x)
  (hbuild : ∀ r, Hierarchy.build (shares r).items = .ok (trees r))
  (hsize : ∀ r, (shares r).domain.length < UInt64.size)

include hcodec hbuild hsize

theorem locateAll_finishes (h : Answerable shares requests)
    (c : Fin n → Correspondence α) (missed : Fin n → List EntityId) :
    Routine.Finishes
      (fun r => (holding shares trees r (c r) (missed r)).locateAll (requests r).1 (requests r).2)
      fun r => (bruteForce shares requests r, unmatchedBy shares requests r) := by
  have hask := askAround_finishes hcodec trees h.valid h.centroid h.fewRange c missed
  obtain ⟨plans, hplan, hreturn⟩ := return_finishes hcodec h
  simp only [locateAll_eq]
  apply hask.bind
  dsimp only [answer]
  apply (Routine.Finishes.ofExcept fun r =>
    resolve_imports hbuild hsize h r (c r) (missed r)).bind
  apply (hplan.mapError _).bind
  apply (hreturn.mapError _).bind
  simp only [found_records]
  exact Routine.Finishes.pure _

/-- A search of all ranks succeeds and gives every rank its correspondence by brute force. -/
theorem search_completes (h : Answerable shares requests) (c : Fin n → Correspondence α)
    (missed : Fin n → List EntityId) : ∃ letters, Proc.Completes
      (fun r => (holding shares trees r (c r) (missed r)).search (requests r).1 (requests r).2)
      letters fun r => (.ok (), holding shares trees r (bruteForce shares requests r)
        (unmatchedBy shares requests r)) := by
  obtain ⟨letters, hlocate⟩ := locateAll_finishes hcodec hbuild hsize h c missed
  exact ⟨_, Proc.Completes.bind hlocate (Proc.Completes.done _)⟩

theorem searchAll_completes {rounds : List (Fin n → Request α)}
    (h : ∀ requests ∈ rounds, Answerable shares requests) (c : Fin n → Correspondence α)
    (missed : Fin n → List EntityId) : ∃ letters, Proc.Completes
      (fun r => (holding shares trees r (c r) (missed r)).searchAll (rounds.map fun q => q r))
      letters fun r => rounds.map fun requests => (.ok (), holding shares trees r
        (bruteForce shares requests r) (unmatchedBy shares requests r)) := by
  -- A search reads nothing of what the one before it left in the session.
  induction rounds generalizing c missed with
  | nil => exact ⟨_, Proc.Completes.done _⟩
  | cons requests rounds ih =>
    obtain ⟨letters, hfirst⟩ := search_completes hcodec hbuild hsize (h requests (by simp)) c missed
    obtain ⟨letters', hrest⟩ := ih (fun q hq => h q (by simp [hq])) (bruteForce shares requests)
      (unmatchedBy shares requests)
    exact ⟨_, hfirst.bind (hrest.bind (Proc.Completes.done _))⟩

end Session

/-- However the steps of the ranks interleave, opening the sessions and any
number of searches succeed on every rank, and after each search a rank holds
exactly the correspondence that comparing every pair gives. -/
theorem searches_match_brute_force (shares : Fin n → Share Float)
    (rounds : List (Fin n → Request Float))
    (hconfig : ∀ r, (shares r).config.validate = .ok ())
    (hvalid : ∀ r, ∀ e ∈ (shares r).domain, e.bounds.isValid = true)
    (hsize : ∀ r, (shares r).domain.length < UInt64.size)
    (hrounds : ∀ requests ∈ rounds, Answerable shares requests) :
    ∃ letters final, (Network.start fun r =>
        (Share.searches r (shares r) (rounds.map fun requests => requests r)).run).Settles
          letters final ∧
      (∀ s d, final.channel s d = []) ∧
      ∀ r, ∃ results, final.programs.get r = .done (.ok results) ∧
        results.map (fun result => (result.1, result.2.correspondence)) =
          rounds.map fun requests => (.ok (), bruteForce shares requests r) := by
  choose trees hbuild using fun r => Hierarchy.exists_build (Share.items_valid (hvalid r))
  have hstart := Session.start_finishes Binary64.roundTrips hconfig hbuild
  have hsearch := Session.searchAll_completes Binary64.roundTrips hbuild hsize hrounds
    (fun _ => .empty) fun _ => []
  obtain ⟨letters, hall⟩ := hstart.bind (f := fun r session =>
    ExceptT.lift (session.searchAll (rounds.map fun requests => requests r)))
      (Routine.Finishes.lift hsearch)
  obtain ⟨final, hsettles, hempty, hdone⟩ := hall.settles
  refine ⟨letters, final, hsettles, hempty, fun r => ⟨_, hdone r, ?_⟩⟩
  rw [List.map_map]
  rfl

def cornerShares (r : Fin 2) : Share Float where
  entities := if r = 0 then [.ofBox 1 0 ⟨#v[0, 0, 0], #v[1, 1, 1]⟩] else []
  map := .basic
  config := ⟨0.5, none, none, false⟩

def cornerRequests (r : Fin 2) : Request Float :=
  (if r = 0 then [] else [.ofPoint 7 1 #v[1, 1, 1] false], .basic)

/-- A point of one rank at the corner of a box of another, searched for twice. -/
theorem searches_match_corner :
    (∃ letters final, (Network.start fun r =>
        (Share.searches r (cornerShares r) [cornerRequests r, cornerRequests r]).run).Settles
          letters final ∧
      (∀ s d, final.channel s d = []) ∧
      ∀ r, ∃ results, final.programs.get r = .done (.ok results) ∧
        results.map (fun result => (result.1, result.2.correspondence)) =
          [(.ok (), bruteForce cornerShares cornerRequests r),
            (.ok (), bruteForce cornerShares cornerRequests r)]) ∧
      ((cornerShares 0).records (cornerShares 1) (cornerRequests 1)).map
        (fun record => (record.domain, record.range)) = [(1, 7)] := by
  have hanswerable : Answerable cornerShares cornerRequests := by
    constructor
    · decide +kernel
    · intro s e _
      exact ⟨_, rfl⟩
    · intro p s e _ d hd _ point _
      have hbox : d ∈ if p = 0 then [.ofBox 1 0 ⟨#v[0, 0, 0], #v[1, 1, 1]⟩] else [] :=
        List.mem_of_mem_filter hd
      split at hbox
      · rw [List.mem_singleton] at hbox
        subst hbox
        exact ⟨_, rfl⟩
      · cases hbox
    · decide +kernel
    · decide +kernel
  have hconfig : ∀ r, (cornerShares r).config.validate = .ok () := by
    intro r
    apply if_neg
    revert r
    decide +kernel
  constructor
  · exact searches_match_brute_force cornerShares [cornerRequests, cornerRequests] hconfig
      (by decide +kernel) (by decide +kernel) (by simpa using hanswerable)
  · decide +kernel

end Vicinity
