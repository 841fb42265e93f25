import Mathlib
import Vicinity.Proofs.Hierarchy.Overlap
import Vicinity.Proofs.Positions
import Vicinity.Search.Session

/-!
# Matches

A range entity matches a domain entity when the domain box meets the widened
range box and the domain's map locates the centroid of the range entity. The
matches between the shares of two ranks are found by comparing every pair. A
rank that looks its hits up in its index finds the same records in the same
order.
-/

set_option autoImplicit false

namespace Vicinity

structure Share (α : Type) where
  entities : List (Entity α)
  map : LocalMap α
  config : SearchConfig α

abbrev Request (α : Type) := List (Entity α) × LocalMap α

namespace Share

variable {α : Type} [Coord α]

def domain (p : Share α) : List (Entity α) := Session.keep p.config.domainDimension p.entities

def range (p : Share α) (request : Request α) : List (Entity α) :=
  Session.keep p.config.rangeDimension request.1

def widened (p : Share α) (e : Entity α) : Box α 3 :=
  e.bounds.expanded (Session.padding p.config.tolerance e.bounds)

def record? (p s : Share α) (map : LocalMap α) (e d : Entity α) : Option (Record α) :=
  if d.bounds.meets (s.widened e) then
    match map.centroid e with
    | .error _ => none
    | .ok point =>
      match p.map.locate d point p.config.tolerance with
      | .ok (some coordinates) => some ⟨d.id, e.id, e.owner, coordinates⟩
      | _ => none
  else none

def records (p s : Share α) (request : Request α) : List (Record α) :=
  (s.range request).flatMap fun e => p.domain.filterMap (p.record? s request.2 e)

def point (map : LocalMap α) (e : Entity α) : Point α 3 :=
  match map.centroid e with
  | .ok point => point
  | .error _ => LocalMap.center e

def query (s : Share α) (map : LocalMap α) (e : Entity α) : RangeQuery α :=
  ⟨e.id, e.owner, point map e, s.widened e⟩

def items (p : Share α) : List (Nat × Box α 3) := p.domain.zipIdx.map fun (e, i) => (i, e.bounds)

end Share

theorem mapM_ok {ε τ σ : Type} {f : τ → Except ε σ} {g : τ → σ} {l : List τ}
    (h : ∀ x ∈ l, f x = .ok (g x)) : l.mapM f = .ok (l.map g) := by
  induction l with
  | nil => rfl
  | cons x l ih =>
    rw [List.mapM_cons, h x (by simp), ih fun y hy => h y (by simp [hy])]
    rfl

theorem flatMap_filter {τ σ : Type} {xs : List τ} {keep : τ → Bool} {f : τ → List σ}
    (h : ∀ x ∈ xs, ¬ keep x = true → f x = []) : (xs.filter keep).flatMap f = xs.flatMap f := by
  induction xs with
  | nil => rfl
  | cons x xs ih =>
    have hrest := ih fun y hy => h y (by simp [hy])
    by_cases hx : keep x = true
    · rw [List.filter_cons_of_pos hx, List.flatMap_cons, List.flatMap_cons, hrest]
    · rw [List.filter_cons_of_neg hx, List.flatMap_cons, h x (by simp) hx, hrest]
      rfl

namespace Share

variable {α : Type} [Coord α]

theorem items_valid {p : Share α} (h : ∀ e ∈ p.domain, e.bounds.isValid = true) :
    ∀ item ∈ p.items, item.2.isValid = true := by
  intro item hitem
  obtain ⟨⟨e, i⟩, hmem, rfl⟩ := List.mem_map.mp hitem
  exact h e (List.fst_mem_of_mem_zipIdx hmem)

theorem point_ok {map : LocalMap α} {e : Entity α} (h : ∃ point, map.centroid e = .ok point) :
    map.centroid e = .ok (point map e) := by
  obtain ⟨p, hp⟩ := h
  rw [point, hp]

theorem queries_ok {s : Share α} {request : Request α}
    (hvalid : ∀ e ∈ s.range request, e.bounds.isValid = true)
    (hcentroid : ∀ e ∈ s.range request, ∃ point, request.2.centroid e = .ok point) :
    Session.queries s.config.tolerance request.2 (s.range request) =
      .ok ((s.range request).map (s.query request.2)) := by
  have heach := mapM_ok (l := (s.range request).zipIdx) (f := fun (e, position) => do
      if !e.bounds.isValid then throw (.index (.invalidVolume position))
      let point ← request.2.centroid e
      pure ⟨e.id, e.owner, point,
        e.bounds.expanded (Session.padding s.config.tolerance e.bounds)⟩)
    (g := fun (e, _) => s.query request.2 e) ?_
  · rw [Session.queries, heach]
    conv_rhs => rw [← List.zipIdx_map_fst 0 (s.range request), List.map_map]
    rfl
  · rintro ⟨e, position⟩ hmem
    have he := List.fst_mem_of_mem_zipIdx hmem
    simp only [hvalid e he, point_ok (hcentroid e he)]
    rfl

section Located

variable [OrderedCoord α] {p s : Share α} {tree : Hierarchy α Nat 3}

/-- The index finds the domain entities whose box meets another, in order. -/
theorem hits_entities (hbuild : Hierarchy.build p.items = .ok tree)
    (hsize : p.domain.length ≤ 2 ^ 64) (box : Box α 3) :
    ((tree.query box).mergeSort fun i j => decide (i ≤ j)).filterMap
      (fun i => p.domain.toArray[i]?) = p.domain.filter fun e => e.bounds.meets box := by
  have hperm := Hierarchy.query_perm hbuild (by simpa [items] using hsize) box
  have hpositions : (p.items.filter fun item => item.2.meets box).map (·.1) =
      positions p.domain fun e => e.bounds.meets box := by
    rw [items, List.filter_map, List.map_map, positions_eq]
    rfl
  rw [hpositions] at hperm
  simp only [mergeSort_positions hperm, List.getElem?_toArray]
  exact positions_items p.domain fun e => e.bounds.meets box

def Locates (p s : Share α) (map : LocalMap α) (e : Entity α) : Prop :=
  ∀ d ∈ p.domain, d.bounds.meets (s.widened e) = true → ∀ point, map.centroid e = .ok point →
    ∃ found, p.map.locate d point p.config.tolerance = .ok found

variable {n : Nat} {x : Session α n}

omit [OrderedCoord α] in
theorem resolveIn_ok {map : LocalMap α} {e d : Entity α} (hmap : x.domainMap = p.map)
    (hconfig : x.config = p.config) (hcentroid : ∃ point, map.centroid e = .ok point)
    (hmeets : d.bounds.meets (s.widened e) = true)
    (hlocate : ∃ found, p.map.locate d (point map e) p.config.tolerance = .ok found) :
    x.resolveIn (s.query map e) d = .ok (p.record? s map e d) := by
  obtain ⟨found, hfound⟩ := hlocate
  rw [Session.resolveIn, hmap, hconfig, query, hfound, record?, if_pos hmeets,
    point_ok hcentroid]
  simp only [hfound]
  cases found with
  | none => rfl
  | some coordinates => rfl

omit [OrderedCoord α] in
theorem record?_of_not_meets {map : LocalMap α} {e d : Entity α}
    (h : ¬ d.bounds.meets (s.widened e) = true) : p.record? s map e d = none := if_neg h

omit [OrderedCoord α] in
/-- Only entities whose box meets the query's can match. -/
theorem filterMap_record? (map : LocalMap α) (e : Entity α) (domain : List (Entity α)) :
    (domain.filter fun d => d.bounds.meets (s.widened e)).filterMap (p.record? s map e) =
      domain.filterMap (p.record? s map e) := by
  rw [List.filterMap_filter]
  apply List.filterMap_congr
  intro d _
  by_cases h : d.bounds.meets (s.widened e) = true
  · rw [if_pos h]
  · rw [if_neg h, record?_of_not_meets h]

theorem region_meets (hbuild : Hierarchy.build p.items = .ok tree)
    (hsize : p.domain.length ≤ 2 ^ 64) {d : Entity α} (hd : d ∈ p.domain) {box : Box α 3}
    (hmeets : d.bounds.meets box = true) : ∃ region, tree.bounds = some region ∧
      region.meets box = true := by
  obtain ⟨i, hi⟩ := List.getElem?_of_mem hd
  have hitem : (i, d.bounds) ∈ p.items :=
    List.mem_map.mpr ⟨(d, i), List.mk_mem_zipIdx_iff_getElem?.mpr hi, rfl⟩
  obtain ⟨region, hregion, hcovers⟩ :=
    Hierarchy.bounds_covers hbuild (by simpa [items] using hsize) _ hitem
  exact ⟨region, hregion, hcovers.meets hmeets⟩

/-- Range entities that miss the bounds of an index match nothing in it. -/
theorem records_of_region (hbuild : Hierarchy.build p.items = .ok tree)
    (hsize : p.domain.length ≤ 2 ^ 64) (request : Request α) :
    ((s.range request).filter fun e => tree.bounds.any fun region =>
      region.meets (s.widened e)).flatMap
        (fun e => p.domain.filterMap (p.record? s request.2 e)) = p.records s request := by
  apply flatMap_filter
  intro e _ hmiss
  rw [List.filterMap_eq_nil_iff]
  intro d hd
  apply record?_of_not_meets
  intro hmeets
  obtain ⟨region, hregion, hregion'⟩ := region_meets hbuild hsize hd hmeets
  exact hmiss (by rw [hregion]; exact hregion')

/-- A rank resolves the queries of range entities into the records of their
matches, each with the rank that asked. -/
theorem resolve_ok {shares : Fin n → Share α} {requests : Fin n → Request α}
    {imports : List (Entity α × Fin n)} (hbuild : Hierarchy.build p.items = .ok x.index)
    (hsize : p.domain.length ≤ 2 ^ 64) (hdomain : x.domain = p.domain)
    (hmap : x.domainMap = p.map) (hconfig : x.config = p.config)
    (hcentroid : ∀ i ∈ imports, ∃ point, (requests i.2).2.centroid i.1 = .ok point)
    (hlocates : ∀ i ∈ imports, p.Locates (shares i.2) (requests i.2).2 i.1) :
    x.resolve (imports.map fun i => ((shares i.2).query (requests i.2).2 i.1, i.2)) =
      .ok (imports.flatMap fun i =>
        (p.domain.filterMap (p.record? (shares i.2) (requests i.2).2 i.1)).map (·, i.2)) := by
  have heach : ∀ i ∈ imports, ((x.hits ((shares i.2).query (requests i.2).2 i.1)).filterMap
      fun j => p.domain.toArray[j]?).mapM (x.resolveIn ((shares i.2).query (requests i.2).2 i.1)) =
        .ok ((p.domain.filter fun d => d.bounds.meets ((shares i.2).widened i.1)).map
          (p.record? (shares i.2) (requests i.2).2 i.1)) := by
    intro i hi
    rw [Session.hits, hits_entities hbuild hsize]
    apply mapM_ok
    intro d hd
    obtain ⟨hd, hmeets⟩ := List.mem_filter.mp hd
    exact resolveIn_ok hmap hconfig (hcentroid i hi) hmeets
      (hlocates i hi d hd hmeets _ (point_ok (hcentroid i hi)))
  have hall := mapM_ok (l := imports) (f := fun i => do
      let found ← ((x.hits ((shares i.2).query (requests i.2).2 i.1)).filterMap
        fun j => p.domain.toArray[j]?).mapM (x.resolveIn ((shares i.2).query (requests i.2).2 i.1))
      pure ((found.filterMap id).map fun record => (record, i.2)))
    (g := fun i =>
      (p.domain.filterMap (p.record? (shares i.2) (requests i.2).2 i.1)).map (·, i.2)) ?_
  · rw [Session.resolve, List.mapM_map, hdomain]
    refine (congrArg (fun result => result >>= fun perQuery => pure perQuery.flatten) hall).trans ?_
    rw [List.flatMap_def]
    rfl
  · intro i hi
    have hfound : ((p.domain.filter fun d => d.bounds.meets ((shares i.2).widened i.1)).map
        (p.record? (shares i.2) (requests i.2).2 i.1)).filterMap id =
          p.domain.filterMap (p.record? (shares i.2) (requests i.2).2 i.1) := by
      rw [List.filterMap_map, Function.id_comp, filterMap_record?]
    rw [heach i hi, ← hfound]
    rfl

end Located

end Share

end Vicinity
