import Mathlib
import Vicinity.Proofs.Search.Failure

/-!
# Missed range entities

A range entity is missed when no domain entity of any rank matches it. After a
search of all ranks a rank lists its missed range entities and no others: the
records of a match come back to the rank that asked, and those of other ranks
name other range entities where no id is given twice. Nothing of an earlier
search is left, for a search that goes through writes the list anew and one that
fails ends the program, or leaves a single rank with what it had.
-/

set_option autoImplicit false

namespace Vicinity

variable {n : Nat} {α : Type}

/-- What comes of a group on the way to rest goes on to the same end. -/
theorem Network.Leads.goes_on {g g' final : Network n α} {letters : Fin n → Fin n → List Envelope}
    (h : g.Leads letters g') {schedule : List (Fin n)} (hfollow : g.follow schedule = some final)
    (quiet : final.Quiet) (here : final.AllHere) : ∃ rest, g'.follow rest = some final := by
  obtain ⟨first, hfirst, -⟩ := h
  obtain ⟨rest, hrest, -⟩ := Network.follow_converges hfollow quiet here hfirst
  exact ⟨rest, hrest⟩

namespace Session

abbrev History (α : Type) (n : Nat) := List (Except (SearchError α) Unit × Session α n)

def finish (front later : History α n) : Proc n (Except (SearchError α) (History α n)) :=
  .done (.ok (front ++ later))

theorem finish_cons (front later : History α n)
    (entry : Except (SearchError α) Unit × Session α n) :
    finish front (entry :: later) = finish (front ++ [entry]) later := by
  rw [finish, finish, List.append_cons]

/-- The history with which a rank ends begins with what its program has of it on the way. -/
theorem history_of_follow {g final : Network n (Except (SearchError α) (History α n))}
    {rest : List (Fin n)} (hrest : g.follow rest = some final) {r : Fin n}
    {history front : History α n} (hdone : final.programs.get r = .done (.ok history))
    {p : Proc n (History α n)} {post : History α n → Prop} (hp : p.Returns post)
    (hprogram : g.programs.get r = p.bind (finish front)) :
    ∃ later, post later ∧ history = front ++ later := by
  have hreturns : (p.bind (finish front)).Returns fun result =>
      ∃ later, post later ∧ result = .ok (front ++ later) :=
    hp.bind fun later hlater => ⟨later, hlater, rfl⟩
  rw [← hprogram] at hreturns
  obtain ⟨later, hlater, hresult⟩ :=
    Network.reached_done hreturns (Network.follow_moves hrest) hdone
  exact ⟨later, hlater, Except.ok.inj hresult⟩

/-- A rank that ends with a failed search has no outcome of a later one. -/
theorem no_entry_of_failure {g final : Network n (Except (SearchError α) (History α n))}
    {rest : List (Fin n)} (hrest : g.follow rest = some final) {q : Fin n}
    {history front : History α n} (hdone : final.programs.get q = .done (.ok history))
    {e : SearchError α} {s s' : Session α n}
    (hprogram : g.programs.get q = finish front [(.error e, s)]) {k : Nat}
    (hentry : history[front.length + k]? = some (.ok (), s')) : False := by
  have hends : (.done [(.error e, s)] : Proc n (History α n)).Returns (· = [(.error e, s)]) := rfl
  obtain ⟨_, rfl, rfl⟩ := history_of_follow hrest hdone hends hprogram
  rw [List.getElem?_append_right (Nat.le_add_right _ _), Nat.add_sub_cancel_left] at hentry
  cases k <;> cases hentry

end Session

variable [Coord α]

namespace Share

def Matches (p s : Share α) (map : LocalMap α) (e d : Entity α) : Prop :=
  d.bounds.meets (s.widened e) = true ∧ ∃ point coordinates, map.centroid e = .ok point ∧
    p.map.locate d point p.config.tolerance = .ok (some coordinates)

variable {p s : Share α} {map : LocalMap α} {e d : Entity α}

theorem record?_isSome_iff : (p.record? s map e d).isSome = true ↔ p.Matches s map e d := by
  unfold record? Matches
  split
  · next hmeets =>
    cases hcentroid : map.centroid e with
    | error fault => simp
    | ok point =>
      cases hlocate : p.map.locate d point p.config.tolerance with
      | error fault => simp [hmeets, hlocate]
      | ok found => cases found <;> simp [hmeets, hlocate]
  · next hmeets => simp [hmeets]

instance : Decidable (p.Matches s map e d) := decidable_of_iff _ record?_isSome_iff

theorem record?_range {record : Record α} (h : p.record? s map e d = some record) :
    record.range = e.id := by
  unfold record? at h
  split at h
  · split at h
    · cases h
    · split at h
      · cases h
        rfl
      · cases h
  · cases h

theorem mem_records_iff {request : Request α} {record : Record α} :
    record ∈ p.records s request ↔ ∃ e ∈ s.range request, ∃ d ∈ p.domain,
      p.record? s request.2 e d = some record := by
  simp only [records, List.mem_flatMap, List.mem_filterMap]

end Share

section Unmatched

variable {shares : Fin n → Share α} {requests : Fin n → Request α} {r : Fin n} {e : Entity α}

def Matched (shares : Fin n → Share α) (requests : Fin n → Request α) (r : Fin n)
    (e : Entity α) : Prop :=
  ∃ q, ∃ d ∈ (shares q).domain, (shares q).Matches (shares r) (requests r).2 e d

instance : Decidable (Matched shares requests r e) :=
  inferInstanceAs (Decidable (∃ q, ∃ d ∈ (shares q).domain, _))

def DistinctRange (shares : Fin n → Share α) (requests : Fin n → Request α) : Prop :=
  ((List.finRange n).flatMap fun r => ((shares r).range (requests r)).map (·.id)).Nodup

omit [Coord α] in
instance : Decidable (DistinctRange shares requests) := inferInstanceAs (Decidable (List.Nodup _))

omit [Coord α] in
theorem DistinctRange.unique (h : DistinctRange shares requests) {q : Fin n} {e' : Entity α}
    (he : e ∈ (shares r).range (requests r)) (he' : e' ∈ (shares q).range (requests q))
    (hid : e'.id = e.id) : q = r ∧ e' = e := by
  obtain ⟨hnodup, hdisjoint⟩ := List.nodup_flatMap.mp h
  have hrank : q = r := by
    by_contra hne
    have : Std.Symm (Function.onFun List.Disjoint
        fun r => ((shares r).range (requests r)).map (·.id)) := ⟨fun _ _ h => h.symm⟩
    exact hdisjoint.forall (List.mem_finRange q) (List.mem_finRange r) hne
      (List.mem_map_of_mem he') (hid ▸ List.mem_map_of_mem he)
  subst hrank
  exact ⟨rfl, List.inj_on_of_nodup_map (hnodup q (List.mem_finRange q)) he' he hid⟩

/-- A rank knows a domain entity for one of its range entities exactly where one
matches it. -/
theorem domainEntities_isEmpty_iff (h : DistinctRange shares requests)
    (he : e ∈ (shares r).range (requests r)) :
    ((bruteForce shares requests r).domainEntities e.id).isEmpty = true ↔
      ¬ Matched shares requests r e := by
  rw [List.isEmpty_iff, List.eq_nil_iff_forall_not_mem, ← not_exists, not_iff_not]
  constructor
  · rintro ⟨id, hid⟩
    obtain ⟨p, s, -, record, hrecord, hpair⟩ := domainEntities_bruteForce.mp hid
    obtain ⟨e', he', d, hd, hfound⟩ := Share.mem_records_iff.mp hrecord
    -- The record may be of another rank's range entity, which then has another id.
    have hrange : e'.id = e.id :=
      (Share.record?_range hfound).symm.trans (congrArg Prod.snd hpair)
    obtain ⟨rfl, rfl⟩ := h.unique he he' hrange
    exact ⟨p, d, hd, Share.record?_isSome_iff.mp (Option.isSome_iff_exists.mpr ⟨record, hfound⟩)⟩
  · rintro ⟨q, d, hd, hmatch⟩
    obtain ⟨record, hrecord⟩ := Option.isSome_iff_exists.mp (Share.record?_isSome_iff.mpr hmatch)
    have hmem := Share.mem_records_iff.mpr ⟨e, he, d, hd, hrecord⟩
    have hreports := (bruteForce_reports hmem (.inr rfl)).2
    rw [Share.record?_range hrecord] at hreports
    exact ⟨_, hreports⟩

def missedBy (shares : Fin n → Share α) (requests : Fin n → Request α) (r : Fin n) :
    List EntityId :=
  (((shares r).range (requests r)).filter fun e => ¬ Matched shares requests r e).map (·.id)

theorem unmatchedBy_eq (h : DistinctRange shares requests)
    (htrack : (shares r).config.trackMissed = true) :
    unmatchedBy shares requests r = missedBy shares requests r := by
  rw [unmatchedBy, if_pos htrack, Session.unmatched, List.filter_map, missedBy]
  congr 1
  apply List.filter_congr
  intro e he
  rw [Bool.eq_iff_iff, decide_eq_true_iff]
  exact domainEntities_isEmpty_iff h he

theorem missedBy_nodup (h : DistinctRange shares requests) :
    (missedBy shares requests r).Nodup :=
  ((List.nodup_flatMap.mp h).1 r (List.mem_finRange r)).sublist (List.filter_sublist.map _)

omit [Coord α] in
theorem findSome?_setOwner {entities : List (Entity α)} (h : (entities.map (·.id)).Nodup)
    (he : e ∈ entities) :
    (entities.map fun e => Edit.setOwner (α := α) e.id e.owner).reverse.findSome?
      (Edit.owner? e.id) = some e.owner := by
  have hsome : ((entities.map fun e => Edit.setOwner (α := α) e.id e.owner).reverse.findSome?
      (Edit.owner? e.id)).isSome = true := by
    rw [List.findSome?_isSome_iff]
    exact ⟨.setOwner e.id e.owner, List.mem_reverse.mpr (List.mem_map_of_mem he),
      by simp [Edit.owner?]⟩
  obtain ⟨owner, howner⟩ := Option.isSome_iff_exists.mp hsome
  obtain ⟨edit, hedit, hfound⟩ := List.exists_of_findSome?_eq_some howner
  obtain ⟨e', he', rfl⟩ := List.mem_map.mp (List.mem_reverse.mp hedit)
  rw [howner, ← hfound, Edit.owner?]
  split
  · next hid => rw [List.inj_on_of_nodup_map h he' he hid]
  · next hid => simp [Edit.owner?, hid] at hfound

/-- A rank knows the owner of every range entity that it submitted. -/
theorem rangeOwner_bruteForce (h : DistinctRange shares requests)
    (he : e ∈ (shares r).range (requests r)) :
    (bruteForce shares requests r).rangeOwner? e.id = some e.owner := by
  have hnodup := (List.nodup_flatMap.mp h).1 r (List.mem_finRange r)
  rw [bruteForce_eq, Correspondence.edited_owner, Correspondence.owner?, List.reverse_append,
    List.findSome?_append, findSome?_setOwner hnodup he]
  rfl

end Unmatched

structure Fits (shares : Fin n → Share α) (requests : Fin n → Request α) : Prop where
  fewRange : ∀ s, ((shares s).range (requests s)).length < UInt64.size
  fewRecords : ∀ p s, ((shares p).records (shares s) (requests s)).length < UInt64.size

namespace Session

section Rounds

variable {shares : Fin n → Share α} {trees : Fin n → Hierarchy α Nat 3}
  {requests : Fin n → Request α}

theorem answerable_of (hsound : Askable shares requests) (hfits : Fits shares requests)
    {c : Fin n → Correspondence α} {missed : Fin n → List EntityId}
    (hlocates : ∀ r, ∀ pair ∈ (holding shares trees r (c r) (missed r)).candidates
      (asked shares requests), ¬ (holding shares trees r (c r) (missed r)).Unlocatable pair) :
    Answerable shares requests := by
  refine ⟨fun s e he => (sound_of_not_flawed (hsound.sound s e he)).1,
    fun s e he => (sound_of_not_flawed (hsound.sound s e he)).2,
    fun p s e he d hd hmeets point hpoint => ?_, hfits.fewRange, hfits.fewRecords⟩
  have hasked : ((shares s).query (requests s).2 e, s) ∈ asked shares requests :=
    List.mem_flatMap.mpr ⟨s, List.mem_finRange s, List.mem_map_of_mem (List.mem_map_of_mem he)⟩
  have hpair : ((shares s).query (requests s).2 e, d) ∈
      (holding shares trees p (c p) (missed p)).candidates (asked shares requests) :=
    List.mem_flatMap.mpr ⟨_, hasked, List.mem_map_of_mem (List.mem_filter.mpr ⟨hd, hmeets⟩)⟩
  obtain rfl := Except.ok.inj ((Share.point_ok ⟨point, hpoint⟩).symm.trans hpoint)
  cases hfound : (shares p).map.locate d (Share.point (requests s).2 e)
      (shares p).config.tolerance with
  | ok found => exact ⟨found, rfl⟩
  | error fault => exact (hlocates p _ hpair ⟨fault, hfound⟩).elim

variable [Codec α]

def afterSearch {β : Type} (rest : List (Request α)) (next : History α n → Proc n β) :
    Except (SearchError α) Unit × Session α n → Proc n β
  | (.error e, s) =>
    if 1 < n then next [(.error e, s)]
    else (s.searchAll rest).bind fun later => next ((.error e, s) :: later)
  | (.ok (), s) => (s.searchAll rest).bind fun later => next ((.ok (), s) :: later)

theorem searchAll_bind {β : Type} (s : Session α n) (request : Request α)
    (rest : List (Request α)) (next : History α n → Proc n β) :
    (s.searchAll (request :: rest)).bind next =
      (s.search request.1 request.2).bind (afterSearch rest next) := by
  rw [searchAll, Proc.bind_assoc]
  congr 1
  funext result
  obtain ⟨outcome, s'⟩ := result
  cases outcome with
  | error e =>
    simp only [afterSearch]
    split
    · rfl
    · rw [Proc.bind_assoc]
      rfl
  | ok =>
    simp only [afterSearch]
    rw [Proc.bind_assoc]
    rfl

/-- What a search leaves to the next one: what brute force gives where it went
through, and what was there before it where it failed. -/
inductive Leaves (shares : Fin n → Share α) (requests : Fin n → Request α)
    (c : Fin n → Correspondence α) (missed : Fin n → List EntityId) :
    Except (SearchError α) Unit → (Fin n → Correspondence α) → (Fin n → List EntityId) → Prop where
  | through : Leaves shares requests c missed (.ok ()) (bruteForce shares requests)
      (unmatchedBy shares requests)
  | alone (e : SearchError α) : Leaves shares requests c missed (.error e) c missed

variable [OrderedCoord α] (hcodec : ∀ x : α, Codec.RoundTrips x)
  (hbuild : ∀ r, Hierarchy.build (shares r).items = .ok (trees r))
  (hsize : ∀ r, (shares r).domain.length < UInt64.size)

include hcodec hbuild hsize

/-- A search of all ranks goes through, or fails on some rank. -/
theorem answerable_or_breaks (h : Fits shares requests) (c : Fin n → Correspondence α)
    (missed : Fin n → List EntityId) : Answerable shares requests ∨ ∃ r e, Proc.Yields
      (fun q => (holding shares trees q (c q) (missed q)).search (requests q).1 (requests q).2) r
      (.error e, holding shares trees r (c r) (missed r)) := by
  by_cases hsound : ∀ s, ∀ e ∈ (shares s).range (requests s), ¬ Flawed (requests s).2 e
  · have hask : Askable shares requests := ⟨hsound, h.fewRange⟩
    by_cases hlocates : ∀ r, ∀ pair ∈ (holding shares trees r (c r) (missed r)).candidates
        (asked shares requests), ¬ (holding shares trees r (c r) (missed r)).Unlocatable pair
    · exact .inl (answerable_of hask h hlocates)
    · push Not at hlocates
      obtain ⟨r, hbad⟩ := hlocates
      obtain ⟨before, pair, hfirst⟩ := First.exists_of_mem hbad
      obtain ⟨e, he⟩ := hfirst.bad
      exact .inr ⟨r, e, search_breaks hcodec hbuild hsize hask c missed hfirst he⟩
  · push Not at hsound
    obtain ⟨r, hbad⟩ := hsound
    obtain ⟨before, entity, hfirst⟩ := First.exists_of_mem hbad
    obtain ⟨e, hflaw⟩ := hfirst.bad.flaw before.length
    exact .inr ⟨r, e, .of_done (search_unasked (queries_flawed hfirst hflaw))⟩

/-- One search of a program ends the program of some rank, or the ranks go on. -/
theorem searchAll_step (h : Fits shares requests) (rest : Fin n → List (Request α))
    (c : Fin n → Correspondence α) (missed : Fin n → List EntityId) (front : Fin n → History α n)
    (journals : Fin n → List Event) : ∃ letters journals' programs,
      (Network.resting journals fun r => ((holding shares trees r (c r) (missed r)).searchAll
        (requests r :: rest r)).bind (finish (front r))).Leads letters
          (Network.resting journals' programs) ∧
      ((∃ outcome c' missed', Leaves shares requests c missed outcome c' missed' ∧
          programs = fun r => ((holding shares trees r (c' r) (missed' r)).searchAll (rest r)).bind
            (finish (front r ++ [(outcome, holding shares trees r (c' r) (missed' r))]))) ∨
        ∃ r e s, programs r = finish (front r) [(.error e, s)]) := by
  simp only [searchAll_bind]
  rcases answerable_or_breaks hcodec hbuild hsize h c missed with
    hanswerable | ⟨q, e, hyields⟩
  · obtain ⟨letters, hcompletes⟩ := search_completes hcodec hbuild hsize hanswerable c missed
    obtain ⟨journals', hleads⟩ :=
      hcompletes _ journals fun r => afterSearch (rest r) (finish (front r))
    refine ⟨letters, journals', _, hleads, .inl ⟨.ok (), _, _, .through, funext fun r => ?_⟩⟩
    simp only [afterSearch, finish_cons]
  · obtain ⟨letters, journals', programs, hleads, hprogram⟩ :=
      hyields _ journals fun r => afterSearch (rest r) (finish (front r))
    by_cases hn : 1 < n
    · refine ⟨letters, journals', programs, hleads,
        .inr ⟨q, e, holding shares trees q (c q) (missed q), ?_⟩⟩
      rw [hprogram, afterSearch, if_pos hn]
    · have hone : Subsingleton (Fin n) := Fin.subsingleton_iff_le_one.mpr (Nat.le_of_not_lt hn)
      refine ⟨letters, journals', programs, hleads,
        .inl ⟨.error e, c, missed, .alone e, funext fun r => ?_⟩⟩
      obtain rfl := Subsingleton.elim q r
      rw [hprogram, afterSearch, if_neg hn]
      simp only [finish_cons]

/-- Where all ranks end and some search went through on each, it left them with what
it gives by brute force, whatever came before. -/
theorem searchAll_entry {earlier : List (Fin n → Request α)}
    (hfits : ∀ q ∈ earlier ++ [requests], Fits shares q) (later : Fin n → List (Request α))
    (c : Fin n → Correspondence α) (missed : Fin n → List EntityId)
    {journals : Fin n → List Event} {front history : Fin n → History α n}
    {sessions : Fin n → Session α n} {schedule : List (Fin n)}
    {final : Network n (Except (SearchError α) (History α n))}
    (hfollow : (Network.resting journals fun r =>
      ((holding shares trees r (c r) (missed r)).searchAll
        (earlier.map (fun q => q r) ++ requests r :: later r)).bind (finish (front r))).follow
          schedule = some final)
    (here : final.AllHere) (hdone : ∀ r, final.programs.get r = .done (.ok (history r)))
    (hentry : ∀ r, (history r)[(front r).length + earlier.length]? = some (.ok (), sessions r))
    (r : Fin n) : sessions r = holding shares trees r (bruteForce shares requests r)
      (unmatchedBy shares requests r) := by
  have quiet : final.Quiet := by
    intro r
    rw [Network.step?, hdone r]
  induction earlier generalizing c missed journals front schedule with
  | nil =>
    obtain ⟨letters, journals', programs, hleads, hprograms⟩ :=
      searchAll_step hcodec hbuild hsize (hfits requests (by simp)) later c missed front journals
    obtain ⟨rest, hrest⟩ := hleads.goes_on hfollow quiet here
    rcases hprograms with ⟨outcome, c', missed', hgoes, rfl⟩ | ⟨q, e, s, hq⟩
    · obtain ⟨more, -, hmore⟩ := history_of_follow hrest (hdone r) (Proc.returns_any _)
        (Network.programs_present r)
      have hr := hentry r
      simp only [hmore, List.length_nil, Nat.add_zero, List.append_assoc,
        List.getElem?_append_right le_rfl, Nat.sub_self] at hr
      cases hgoes with
      | through => exact (congrArg Prod.snd (Option.some.inj hr)).symm
      | alone e => cases hr
    · exact (no_entry_of_failure hrest (hdone q) ((Network.programs_present q).trans hq)
        (hentry q)).elim
  | cons request earlier ih =>
    obtain ⟨letters, journals', programs, hleads, hprograms⟩ :=
      searchAll_step hcodec hbuild hsize (hfits request (by simp))
        (fun r => earlier.map (fun q => q r) ++ requests r :: later r) c missed front journals
    obtain ⟨rest, hrest⟩ := hleads.goes_on hfollow quiet here
    rcases hprograms with ⟨outcome, c', missed', -, rfl⟩ | ⟨q, e, s, hq⟩
    · refine ih (fun q hq => hfits q (by simp [hq])) c' missed' hrest fun r => ?_
      rw [← hentry r]
      congr 1
      simp
      omega
    · exact (no_entry_of_failure hrest (hdone q) ((Network.programs_present q).trans hq)
        (hentry q)).elim

end Rounds

theorem start_stays [Codec α] (me : Fin n) (entities : List (Entity α)) (map : LocalMap α)
    (config : SearchConfig α) : Routine.Stays (start me entities map config) := by
  have h := @Routine.Stays.compositional n (SearchError α)
  refine h.bind (h.ofExcept fun _ _ => trivial) fun prepared => ?_
  refine h.bind (.mapError (Routine.Stays.conversational.allGather me _) _) fun regions => ?_
  exact h.pure _

theorem searchAll_stays [Codec α] (s : Session α n) (requests : List (Request α)) :
    (s.searchAll requests).Stays := by
  induction requests generalizing s with
  | nil => trivial
  | cons request rest ih =>
    have hbind := s.searchAll_bind request rest .done
    rw [Proc.bind_done] at hbind
    rw [hbind]
    apply (search_stays s _ _).bind
    rintro ⟨outcome, s'⟩
    cases outcome with
    | error e =>
      rw [afterSearch]
      split
      · trivial
      · exact (ih s').bind fun _ => trivial
    | ok => exact (ih s').bind fun _ => trivial

end Session

theorem Share.searches_stays [Codec α] (me : Fin n) (p : Share α) (requests : List (Request α)) :
    (p.searches me requests).run.Stays := by
  have hsession : ∀ s : Session α n, Routine.Stays
      (ExceptT.lift (s.searchAll requests) : Routine n (SearchError α) _) := fun s =>
    (s.searchAll_stays requests).bind fun _ => trivial
  exact Routine.Stays.compositional.bind (Session.start_stays me _ _ _) hsession

/-- Ranks that all can open their sessions come to search with them. -/
theorem Share.searches_open [Codec α] {shares : Fin n → Share α} {trees : Fin n → Hierarchy α Nat 3}
    (hcodec : ∀ x : α, Codec.RoundTrips x)
    (hconfig : ∀ r, (shares r).config.validate = .ok ())
    (hbuild : ∀ r, Hierarchy.build (shares r).items = .ok (trees r))
    (requests : Fin n → List (Request α)) :
    ∃ letters journals, (Network.start fun r => ((shares r).searches r (requests r)).run).Leads
      letters (Network.resting journals fun r =>
        ((Session.holding shares trees r .empty []).searchAll (requests r)).bind
          (Session.finish [])) := by
  obtain ⟨letters, hstart⟩ := Session.start_finishes hcodec hconfig hbuild
  obtain ⟨journals, hleads⟩ := hstart _ (fun _ => []) fun r =>
    Routine.resume (fun session => ExceptT.lift (session.searchAll (requests r))) .done
  refine ⟨letters, journals, ?_⟩
  have hprogram : ∀ r, ((shares r).searches r (requests r)).run = (Session.start r
      (shares r).entities (shares r).map (shares r).config).run.bind (Routine.resume
        (fun session => ExceptT.lift (session.searchAll (requests r))) .done) := by
    intro r
    rw [← Routine.run_bind, Proc.bind_done]
    rfl
  simp only [Network.start_eq, hprogram]
  simp only [Routine.resume, Proc.bind_done] at hleads
  exact hleads

/-- A rank that ends with a history could open its session. -/
theorem Share.exists_prepared [Codec α] {shares : Fin n → Share α}
    {requests : Fin n → List (Request α)} {schedule : List (Fin n)}
    {final : Network n (Except (SearchError α) (Session.History α n))}
    (hfollow : (Network.start fun r => ((shares r).searches r (requests r)).run).follow schedule =
      some final) {r : Fin n} {history : Session.History α n}
    (hdone : final.programs.get r = .done (.ok history)) :
    ∃ prepared, Session.prepare (shares r).config (shares r).entities = .ok prepared := by
  cases hprepare : Session.prepare (shares r).config (shares r).entities with
  | ok prepared => exact ⟨prepared, rfl⟩
  | error fault =>
    have hprogram :
        (Network.start fun r => ((shares r).searches r (requests r)).run).programs.get r =
          .done (.error fault) := by
      simp only [Network.start_eq, Network.resting, Network.programs_present, Share.searches]
      rw [ExceptT.run_bind, start_unprepared hprepare]
      rfl
    have hbeside := Network.reached_beside hprogram (Network.follow_moves hfollow)
    cases hdone.symm.trans (hbeside.program.trans hprogram)

/-- Where all ranks end and some search went through on each, it left them with what
it gives by brute force. -/
theorem Share.searches_entry [Codec α] [OrderedCoord α] (hcodec : ∀ x : α, Codec.RoundTrips x)
    {shares : Fin n → Share α} (hsize : ∀ r, (shares r).domain.length < UInt64.size)
    {earlier : List (Fin n → Request α)} {requests : Fin n → Request α}
    (hfits : ∀ q ∈ earlier ++ [requests], Fits shares q) (later : Fin n → List (Request α))
    {history : Fin n → Session.History α n} {sessions : Fin n → Session α n}
    {schedule : List (Fin n)} {final : Network n (Except (SearchError α) (Session.History α n))}
    (hfollow : (Network.start fun r => ((shares r).searches r
      (earlier.map (fun q => q r) ++ requests r :: later r)).run).follow schedule = some final)
    (hdone : ∀ r, final.programs.get r = .done (.ok (history r)))
    (hentry : ∀ r, (history r)[earlier.length]? = some (.ok (), sessions r)) :
    ∃ trees, ∀ r, sessions r = .holding shares trees r (bruteForce shares requests r)
      (unmatchedBy shares requests r) := by
  choose prepared hprepared using fun r => Share.exists_prepared hfollow (hdone r)
  have hopened := fun r => Session.prepare_inv (hprepared r)
  obtain ⟨letters, journals, hleads⟩ := Share.searches_open hcodec (fun r => (hopened r).1)
    (fun r => (hopened r).2.2) fun r => earlier.map (fun q => q r) ++ requests r :: later r
  have here : final.AllHere := by
    refine Network.follow_allHere (fun r => ?_) (Network.start_allHere _) hfollow
    simpa [Network.start, Vector.get_eq_getElem] using (shares r).searches_stays r _
  have quiet : final.Quiet := by
    intro r
    rw [Network.step?, hdone r]
  obtain ⟨rest, hrest⟩ := hleads.goes_on hfollow quiet here
  refine ⟨fun r => (prepared r).2, Session.searchAll_entry hcodec (fun r => (hopened r).2.2) hsize
    hfits later _ _ hrest here hdone fun r => ?_⟩
  rw [List.length_nil, Nat.zero_add, hentry r]

/-- Searches that can all be answered do come to such an end. -/
theorem Share.searches_end [Codec α] [OrderedCoord α] (hcodec : ∀ x : α, Codec.RoundTrips x)
    {shares : Fin n → Share α} (hconfig : ∀ r, (shares r).config.validate = .ok ())
    (hvalid : ∀ r, ∀ e ∈ (shares r).domain, e.bounds.isValid = true)
    (hsize : ∀ r, (shares r).domain.length < UInt64.size) {rounds : List (Fin n → Request α)}
    (hrounds : ∀ requests ∈ rounds, Answerable shares requests) :
    ∃ schedule final trees, (Network.start fun r =>
        ((shares r).searches r (rounds.map fun q => q r)).run).follow schedule = some final ∧
      ∀ r, final.programs.get r = .done (.ok (rounds.map fun requests =>
        (.ok (), .holding shares trees r (bruteForce shares requests r)
          (unmatchedBy shares requests r)))) := by
  choose trees hbuild using fun r => Hierarchy.exists_build (Share.items_valid (hvalid r))
  have hstart := Session.start_finishes hcodec hconfig hbuild
  have hsearch := Session.searchAll_completes hcodec hbuild hsize hrounds (fun _ => .empty)
    fun _ => []
  obtain ⟨letters, hall⟩ := hstart.bind (f := fun r session =>
    ExceptT.lift (session.searchAll (rounds.map fun q => q r))) (Routine.Finishes.lift hsearch)
  obtain ⟨final, hsettles, -, hdone⟩ := Proc.Completes.settles hall
  obtain ⟨steps, hsteps⟩ := hsettles.goes_on
  obtain ⟨schedule, hfollow, -⟩ := hsteps [] _ rfl
  exact ⟨schedule, final, trees, hfollow, hdone⟩

def trackingShares (r : Fin 2) : Share Float where
  entities := if r.val = 0 then [.ofBox 1 0 ⟨.replicate 3 0, .replicate 3 1⟩] else []
  map := .basic
  config := ⟨0.5, none, none, true⟩

def strayPoint : Entity Float := .ofPoint 8 1 (.replicate 3 5) false

def cornerAndStray : List (Entity Float) :=
  [.ofPoint 9 1 (.replicate 3 3) false, .ofPoint 7 1 (.replicate 3 1) false]

def pointRequests (points : List (Entity Float)) (r : Fin 2) : Request Float :=
  (if r.val = 0 then [] else points, .basic)

theorem pointRequests_answerable :
    ∀ points ∈ [[strayPoint], cornerAndStray],
      Answerable trackingShares (pointRequests points) := by
  intro points hpoints
  have hvalid : ∀ points ∈ [[strayPoint], cornerAndStray], ∀ s,
      ∀ e ∈ (trackingShares s).range (pointRequests points s), e.bounds.isValid = true := by
    decide +kernel
  have hrange : ∀ points ∈ [[strayPoint], cornerAndStray], ∀ s,
      ((trackingShares s).range (pointRequests points s)).length < UInt64.size := by decide +kernel
  have hrecords : ∀ points ∈ [[strayPoint], cornerAndStray], ∀ p s, ((trackingShares p).records
      (trackingShares s) (pointRequests points s)).length < UInt64.size := by decide +kernel
  refine ⟨hvalid points hpoints, fun s e _ => ⟨_, rfl⟩, ?_, hrange points hpoints,
    hrecords points hpoints⟩
  intro p s e _ d hd _ point _
  have hbox : d ∈ if p.val = 0 then [.ofBox 1 0 ⟨.replicate 3 0, .replicate 3 1⟩] else [] :=
    List.mem_of_mem_filter hd
  split at hbox
  · rw [List.mem_singleton] at hbox
    subst hbox
    exact ⟨_, rfl⟩
  · cases hbox

end Vicinity
