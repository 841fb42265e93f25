import Mathlib
import Vicinity.Proofs.Coord.Machine
import Vicinity.Proofs.Hierarchy.Distance
import Vicinity.Proofs.Hierarchy.Nearest
import Vicinity.Proofs.Search.Gathering

/-!
# How a pairing ends

Once the sources are gathered a rank is on its own. It can always index them,
for a center that another rank found in a box has no NaN, and every child is
one of the gathered sources. All that a rank may lack is room for the
neighbours it asks for. It then breaks off, and the others do not notice.
-/

set_option autoImplicit false

namespace Vicinity

variable {n : Nat} {α : Type} [Coord α]

namespace Pairing

structure Sound (p : Pairing α) : Prop where
  numbers : ∀ center ∈ p.sourceCenters, ∀ i : Fin 3, Coord.isNaN (center.get i) = false
  aligned : p.sourceIds.length = p.sourceCenters.length
  inBounds : ∀ parent ∈ p.parents, ∀ i ∈ parent.children, i < p.sourceIds.length
  childIds : ∀ parent ∈ p.parents,
    (p.childIds parent).map some = parent.children.map fun i => p.sourceIds[i]?

omit [Coord α] in
theorem childIds_of_inBounds {p : Pairing α} {parent : Parent α}
    (h : ∀ i ∈ parent.children, i < p.sourceIds.length) :
    (p.childIds parent).map some = parent.children.map fun i => p.sourceIds[i]? := by
  simp only [childIds, List.getElem?_toArray]
  rw [List.map_filterMap_some_eq_filter_map_isSome, List.filter_eq_self]
  intro id hid
  obtain ⟨i, hi, rfl⟩ := List.mem_map.mp hid
  simp [h i hi]

namespace Gathered

variable (g : Gathered α)

def children (center : Point α 3) : List Nat × α :=
  match g.rule with
  | .within radius =>
    ((g.index.withinDistance center radius).mergeSort fun i j => decide (i ≤ j), radius)
  | .nearest count =>
    let found := g.index.closest center count
    (found.map (·.id), (found.getLast?.map fun c => Coord.sqrt c.distance).getD Coord.zero)

def parent (target : Entity α × Point α 3) : Parent α :=
  ⟨target.1.id, target.2, (g.children target.2).1, (g.children target.2).2⟩

def pairing : Pairing α := ⟨g.targets.map g.parent, g.ids, g.centers⟩

def Roomy : Prop :=
  ∀ count, g.rule = .nearest count →
    g.targets = [] ∨ g.index.isEmpty = true ∨ Neighbor.hasRoom count = true

variable {g}

theorem conclude_ok (h : g.Roomy) : g.conclude = .ok g.pairing := by
  have hparents : parentsOf g.rule g.index g.targets = .ok (g.targets.map g.parent) := by
    apply mapM_ok
    rintro ⟨e, center⟩ htarget
    suffices hchildren : childrenOf g.rule g.index center = .ok (g.children center) by
      simp only [hchildren]
      rfl
    cases hrule : g.rule with
    | within radius => simp only [childrenOf, children, hrule]
    | nearest count =>
      have hroom : (g.index.isEmpty || count = 0 || Neighbor.hasRoom count) = true := by
        rcases h count hrule with hnone | hempty | hroom
        · simp [hnone] at htarget
        · simp [hempty]
        · simp [hroom]
      simp only [childrenOf, children, hrule, Hierarchy.nearestWithDistance, if_pos hroom]
      rfl
  rw [conclude, hparents]
  rfl

theorem conclude_error (h : ¬ g.Roomy) : g.conclude = .error .capacity := by
  simp only [Roomy, not_forall, not_or, exists_prop] at h
  obtain ⟨count, hrule, hne, hsome, hroom⟩ := h
  obtain ⟨⟨e, center⟩, targets, htargets⟩ := List.exists_cons_of_ne_nil hne
  have hcount : count ≠ 0 := by
    rintro rfl
    exact hroom (by decide)
  have hfirst : childrenOf g.rule g.index center = .error .capacity := by
    rw [hrule, childrenOf, Hierarchy.nearestWithDistance, if_neg (by simp [hsome, hcount, hroom])]
    rfl
  simp only [conclude, parentsOf, htargets, List.mapM_cons, hfirst]
  rfl

theorem lt_of_mem_children [MonotoneCoord α]
    (hbuild : Hierarchy.build (Hierarchy.ofPoints g.centers) = .ok g.index)
    (hsize : g.centers.length ≤ 2 ^ 64) {center : Point α 3} {i : Nat}
    (hi : i ∈ (g.children center).1) : i < g.centers.length := by
  have hitems : (Hierarchy.ofPoints g.centers).length ≤ 2 ^ 64 := by
    rwa [Hierarchy.length_ofPoints]
  rw [← List.mem_range, ← Hierarchy.ids_ofPoints]
  unfold children at hi
  split at hi
  · next radius hrule =>
    exact Hierarchy.collectWhere_subset hbuild hitems _ (List.mem_mergeSort.mp hi)
  · next count hrule =>
    obtain ⟨ranking, hperm, -, hclosest⟩ := Hierarchy.closest_ranking hbuild hitems center count
    rw [hclosest] at hi
    have hranking : i ∈ ranking.map (·.id) := List.map_subset _ (List.take_subset _ _) hi
    have hneighbors := (hperm.map (·.id)).mem_iff.mp hranking
    simpa [Hierarchy.neighbors] using hneighbors

end Gathered

def closing (leaves : Bool) :
    Except (SearchError α) (Gathered α) → Proc n (Except (SearchError α) (Pairing α))
  | .error e => .ending leaves (.error e)
  | .ok g =>
    match g.conclude with
    | .ok pairing => .ending leaves (.ok pairing)
    | .error _ => .leave .abort

theorem closing_closes (leaves : Bool) (result : Except (SearchError α) (Gathered α)) :
    (closing leaves result : Proc n _).Closing := by
  cases result with
  | error e => exact Proc.ending_closing leaves _
  | ok g =>
    rw [closing]
    split
    · exact Proc.ending_closing leaves _
    · exact .leaves .abort

theorem build_ending [Codec α] (me : Fin n) (config : PairingConfig α)
    (domain : List (Entity α)) (domainMap : LocalMap α)
    (range : List (Entity α)) (rangeMap : LocalMap α) (leaves : Bool) :
    (build me config domain domainMap range rangeMap).run.bind (Proc.ending leaves) =
      (gather me config domain domainMap range rangeMap).run.bind (closing leaves) := by
  rw [build_eq, Routine.run_bind]
  congr 1
  funext result
  cases result with
  | error e => rfl
  | ok g =>
    change (Routine.orAbort g.conclude).run.bind (Proc.ending leaves) = _
    rw [closing]
    cases g.conclude <;> rfl

end Pairing

namespace Gathering

variable (g : Gathering n α)

def Roomy (r : Fin n) : Prop :=
  ∀ count, g.rule r = .nearest count →
    g.targets r = [] ∨ g.nearby r = [] ∨ Neighbor.hasRoom count = true

def held (r : Fin n) (tree : Hierarchy α Nat 3) : Pairing.Gathered α :=
  ⟨g.rule r, g.targets r, g.ids r, g.centers r, tree⟩

variable {g} {r : Fin n}

theorem length_centers_eq : (g.centers r).length = (g.nearby r).length := by
  rw [g.centers_eq, List.length_map]

section Index

variable {tree : Hierarchy α Nat 3}
  (hbuild : Hierarchy.build (Hierarchy.ofPoints (g.centers r)) = .ok tree)
  (hsize : (g.nearby r).length ≤ 2 ^ 64)

include hbuild hsize

theorem held_roomy : (g.held r tree).Roomy ↔ g.Roomy r := by
  have hitems : (Hierarchy.ofPoints (g.centers r)).length ≤ 2 ^ 64 := by
    rwa [Hierarchy.length_ofPoints, length_centers_eq]
  have hempty : tree.isEmpty = true ↔ g.nearby r = [] := by
    rw [Hierarchy.isEmpty_iff hbuild hitems, Hierarchy.ofPoints, List.map_eq_nil_iff,
      List.zipIdx_eq_nil_iff, g.centers_eq, List.map_eq_nil_iff]
  simp only [Pairing.Gathered.Roomy, Roomy, held, hempty]

theorem held_sound [MonotoneCoord α] : (g.held r tree).pairing.Sound := by
  have hbounds : ∀ parent ∈ (g.held r tree).pairing.parents, ∀ i ∈ parent.children,
      i < (g.ids r).length := by
    intro parent hparent i hi
    obtain ⟨target, -, rfl⟩ := List.mem_map.mp hparent
    rw [g.length_ids]
    exact Pairing.Gathered.lt_of_mem_children (g := g.held r tree) hbuild
      (length_centers_eq.trans_le hsize) hi
  constructor
  · intro center hcenter i
    exact (Box.numbers_of_isValid (centers_valid center hcenter) i).1
  · exact g.length_ids r
  · exact hbounds
  · intro parent hparent
    exact Pairing.childIds_of_inBounds (hbounds parent hparent)

end Index

end Gathering

namespace Cloud

/-- The settings are accepted, all entities that take part have centers, and
the counts fit their words. -/
structure Ready (configs : Fin n → PairingConfig α) (clouds : Fin n → Cloud α)
    (rules : Fin n → PairingRule α) : Prop where
  accepted : ∀ r, (configs r).validate = .ok (rules r)
  source : ∀ s, ∀ e ∈ owned s (configs s).domainDimension (clouds s).domain,
    ∃ center, (clouds s).domainMap.centroid e = .ok center
  target : ∀ r, ∀ e ∈ owned r (configs r).rangeDimension (clouds r).range,
    ∃ center, (clouds r).rangeMap.centroid e = .ok center
  fewSources : ∀ s, (sources (configs s) clouds s).length < UInt64.size
  fewGathered : ∀ r, ((gathering configs clouds rules).nearby r).length < UInt64.size

variable {configs : Fin n → PairingConfig α} {clouds : Fin n → Cloud α}

structure Ends (g : Gathering n α) (r : Fin n) (tree : Hierarchy α Nat 3) (leaves : Bool)
    (final : Network n (Except (SearchError α) (Pairing α))) : Prop where
  done : g.Roomy r → final.left.get r = leaves ∧
    final.programs.get r = .done (.ok (g.held r tree).pairing)
  breaksOff : ¬ g.Roomy r → final.left.get r = true ∧ final.programs.get r = .abort

/-- Ranks that have passed their checks come to their ends however their steps
interleave, provided that what travels survives the wire and that the gathered
centers can be indexed. -/
theorem settles [Codec α] {g : Gathering n α}
    (hprepare : ∀ r, Pairing.prepare r (configs r) (clouds r).domain (clouds r).domainMap
      (clouds r).range (clouds r).rangeMap = .ok (g.rule r, g.sources r, g.targets r))
    (hregion : ∀ r, Codec.RoundTrips (g.region r))
    (hcodec : ∀ s, ∀ source ∈ g.sources s, Codec.RoundTrips source.2)
    (hsources : ∀ s, (g.sources s).length < UInt64.size)
    (hnearby : ∀ r, (g.nearby r).length < UInt64.size)
    {trees : Fin n → Hierarchy α Nat 3}
    (hbuild : ∀ r, Hierarchy.build (Hierarchy.ofPoints (g.centers r)) = .ok (trees r))
    (leaves : Fin n → Bool) :
    ∃ (letters : Fin n → Fin n → List Envelope)
      (final : Network n (Except (SearchError α) (Pairing α))),
      (Network.start fun r => (Pairing.build r (configs r) (clouds r).domain (clouds r).domainMap
        (clouds r).range (clouds r).rangeMap).run.bind (Proc.ending (leaves r))).Settles
          letters final ∧
      (∀ s d, final.channel s d = []) ∧ ∀ r, Ends g r (trees r) (leaves r) final := by
  obtain ⟨letters, hall⟩ := gather_finishes hprepare hregion hcodec hsources hbuild
  obtain ⟨final, hsettles, hleft, hempty, hprograms⟩ :=
    hall.settles_closing fun r => Pairing.closing_closes (leaves r)
  simp only [← Pairing.build_ending] at hsettles
  refine ⟨letters, final, hsettles, hempty, fun r => ?_⟩
  have hroomy := Gathering.held_roomy (hbuild r) (hnearby r).le
  constructor
  · intro hroom
    have hclosing : Pairing.closing (leaves r) (.ok (g.held r (trees r))) =
        Proc.ending (n := n) (leaves r) (.ok (g.held r (trees r)).pairing) := by
      rw [Pairing.closing, Pairing.Gathered.conclude_ok (hroomy.mpr hroom)]
    rw [hleft, hprograms]
    change (Pairing.closing _ (.ok (g.held r (trees r)))).departs = _ ∧
      (Pairing.closing _ (.ok (g.held r (trees r)))).closed = _
    rw [hclosing]
    cases leaves r <;> exact ⟨rfl, rfl⟩
  · intro hroom
    have hclosing : Pairing.closing (leaves r) (.ok (g.held r (trees r))) =
        (.leave .abort : Proc n _) := by
      rw [Pairing.closing, Pairing.Gathered.conclude_error fun h => hroom (hroomy.mp h)]
    rw [hleft, hprograms]
    change (Pairing.closing _ (.ok (g.held r (trees r)))).departs = _ ∧
      (Pairing.closing _ (.ok (g.held r (trees r)))).closed = _
    rw [hclosing]
    exact ⟨rfl, rfl⟩

theorem Ready.settles [MonotoneCoord α] [Codec α] {rules : Fin n → PairingRule α}
    (hcodec : ∀ x : α, Codec.RoundTrips x) (h : Ready configs clouds rules)
    (leaves : Fin n → Bool) :
    ∃ (trees : Fin n → Hierarchy α Nat 3) (letters : Fin n → Fin n → List Envelope)
      (final : Network n (Except (SearchError α) (Pairing α))),
      (∀ r, Hierarchy.build (Hierarchy.ofPoints ((gathering configs clouds rules).centers r)) =
        .ok (trees r)) ∧
      (Network.start fun r => (Pairing.build r (configs r) (clouds r).domain (clouds r).domainMap
        (clouds r).range (clouds r).rangeMap).run.bind (Proc.ending (leaves r))).Settles
          letters final ∧
      (∀ s d, final.channel s d = []) ∧
      ∀ r, Ends (gathering configs clouds rules) r (trees r) (leaves r) final := by
  let g := gathering configs clouds rules
  have hvalid : ∀ r, ∀ item ∈ Hierarchy.ofPoints (g.centers r), item.2.isValid = true := by
    intro r item hitem
    obtain ⟨⟨center, i⟩, hmem, rfl⟩ := List.mem_map.mp hitem
    exact Gathering.centers_valid center (List.fst_mem_of_mem_zipIdx hmem)
  choose trees hbuild using fun r => Hierarchy.exists_build (hvalid r)
  have hprepare := fun r => prepare_ok (h.accepted r) (h.source r) (h.target r)
  obtain ⟨letters, final, hends⟩ := Cloud.settles (g := g) hprepare
    (fun r => Codec.roundTrips_anyOption (Codec.roundTrips_anyBox hcodec) _)
    (fun s source _ => Codec.roundTrips_anyVector hcodec source.2) h.fewSources h.fewGathered
    hbuild leaves
  exact ⟨trees, letters, final, hbuild, hends⟩

end Cloud

/-- Ranks that build pairings under settings of their own, over entities with
any coordinates at all, are served by the exchange however their steps
interleave, and all can index what they gather. A rank with room for the
neighbours it asks for ends with a pairing whose children are all there; any
other rank breaks off when the exchange is over. -/
theorem pairings_stay_in_bounds (configs : Fin n → PairingConfig Float)
    (clouds : Fin n → Cloud Float) (rules : Fin n → PairingRule Float)
    (h : Cloud.Ready configs clouds rules) (leaves : Fin n → Bool) :
    ∃ (letters : Fin n → Fin n → List Envelope)
      (final : Network n (Except (SearchError Float) (Pairing Float))),
      (Network.start fun r => (Pairing.build r (configs r) (clouds r).domain (clouds r).domainMap
        (clouds r).range (clouds r).rangeMap).run.bind (Proc.ending (leaves r))).Settles
          letters final ∧
      (∀ s d, final.channel s d = []) ∧
      ∀ r, (∃ tree, Hierarchy.build
          (Hierarchy.ofPoints ((Cloud.gathering configs clouds rules).centers r)) = .ok tree) ∧
        ((Cloud.gathering configs clouds rules).Roomy r → ∃ pairing,
          final.programs.get r = .done (.ok pairing) ∧ pairing.Sound ∧
          pairing.parents.map (fun parent => (parent.id, parent.center)) =
            (Cloud.targets (configs r) clouds r).map (fun target => (target.1.id, target.2)) ∧
          pairing.sourceIds = (Cloud.gathering configs clouds rules).ids r ∧
          pairing.sourceCenters = (Cloud.gathering configs clouds rules).centers r) ∧
        (¬ (Cloud.gathering configs clouds rules).Roomy r → final.programs.get r = .abort) := by
  obtain ⟨trees, letters, final, hbuild, hsettles, hempty, hends⟩ :=
    h.settles Binary64.roundTrips leaves
  refine ⟨letters, final, hsettles, hempty, fun r => ⟨⟨trees r, hbuild r⟩, fun hroom => ?_,
    fun hroom => ((hends r).breaksOff hroom).2⟩⟩
  have hsound := Gathering.held_sound (hbuild r) (h.fewGathered r).le
  refine ⟨_, ((hends r).done hroom).2, hsound, ?_, rfl, rfl⟩
  rw [Gathering.held, Pairing.Gathered.pairing, List.map_map]
  rfl

/-- Sources at the origin, at infinity and nowhere, and targets at the first two. -/
def extremes (r : Fin 2) : Cloud Float where
  domain := if r.val = 0 then
      [.ofPoint 1 0 (Vector.replicate 3 0) false, .ofPoint 2 0 (Vector.replicate 3 Float.nan) false,
        .ofPoint 3 0 (Vector.replicate 3 Float.inf) false]
    else []
  domainMap := .basic
  range := if r.val = 0 then [] else
    [.ofPoint 7 1 (Vector.replicate 3 0) false, .ofPoint 8 1 (Vector.replicate 3 Float.inf) false]
  rangeMap := .basic

def extremeConfig (r : Fin 2) : PairingConfig Float :=
  if r.val = 0 then .ofNearest 2 else .ofRadius 1

def extremeRule (r : Fin 2) : PairingRule Float := if r.val = 0 then .nearest 2 else .within 1

theorem pairings_with_extremes : Cloud.Ready extremeConfig extremes extremeRule ∧
    ∃ letters final, ∃ pairing : Pairing Float,
      (Network.start fun r => (Pairing.build r (extremeConfig r) (extremes r).domain
        (extremes r).domainMap (extremes r).range (extremes r).rangeMap).run.bind
          (Proc.ending false)).Settles letters final ∧
      final.programs.get 1 = .done (.ok pairing) ∧ pairing.Sound ∧
      pairing.parents.map (·.id) = [7, 8] ∧ pairing.sourceIds = [1, 3] := by
  have hready : Cloud.Ready extremeConfig extremes extremeRule := by
    constructor
    · intro r
      fin_cases r
      · rfl
      · have hradius : (Coord.isFinite (1 : Float) && decide (Coord.zero ≤ (1 : Float))) = true := by
          decide +kernel
        exact if_pos (e := Except.error (.radius 1)) hradius
    · intro s e _
      exact ⟨_, rfl⟩
    · intro r e _
      exact ⟨_, rfl⟩
    · decide +kernel
    · decide +kernel
  obtain ⟨letters, final, hsettles, -, hends⟩ :=
    pairings_stay_in_bounds extremeConfig extremes extremeRule hready fun _ => false
  have hroomy : (Cloud.gathering extremeConfig extremes extremeRule).Roomy 1 := by
    intro count hrule
    cases hrule
  obtain ⟨pairing, hdone, hsound, hparents, hids, -⟩ := (hends 1).2.1 hroomy
  refine ⟨hready, letters, final, pairing, hsettles, hdone, hsound, ?_, ?_⟩
  · have hids := congrArg (List.map Prod.fst) hparents
    rw [List.map_map] at hids
    exact hids.trans rfl
  · rw [hids]
    decide +kernel

def sharedPlace (r : Fin 2) : Cloud Float where
  domain := if r.val = 0 then [.ofPoint 1 0 (Vector.replicate 3 0) false] else []
  domainMap := .basic
  range := if r.val = 0 then [] else [.ofPoint 2 1 (Vector.replicate 3 0) false]
  rangeMap := .basic

def greedyConfig (r : Fin 2) : PairingConfig Float :=
  if r.val = 0 then .ofNearest 1 else .ofNearest 1152921504606846976

/-- A count of neighbours that is accepted may still be one that no memory has
room for, and the rank that asks for it gets no pairing. -/
theorem pairings_out_of_room :
    (∀ r, ∃ count, (greedyConfig r).validate = .ok (.nearest count)) ∧
    ∃ letters final, (Network.start fun r => (Pairing.build r (greedyConfig r)
        (sharedPlace r).domain (sharedPlace r).domainMap (sharedPlace r).range
        (sharedPlace r).rangeMap).run.bind (Proc.ending false)).Settles letters final ∧
      final.programs.get 1 = .abort := by
  let rules (r : Fin 2) : PairingRule Float :=
    .nearest (if r.val = 0 then 1 else 1152921504606846976)
  have hvalidate : ∀ r, (greedyConfig r).validate = .ok (rules r) := by
    intro r
    fin_cases r <;> rfl
  have hready : Cloud.Ready greedyConfig sharedPlace rules := by
    constructor
    · exact hvalidate
    · intro s e _
      exact ⟨_, rfl⟩
    · intro r e _
      exact ⟨_, rfl⟩
    · decide +kernel
    · decide +kernel
  obtain ⟨trees, letters, final, -, hsettles, -, hends⟩ :=
    hready.settles Binary64.roundTrips fun _ => false
  refine ⟨fun r => ⟨_, hvalidate r⟩, letters, final, hsettles, ((hends 1).breaksOff ?_).2⟩
  intro hroomy
  rcases hroomy 1152921504606846976 rfl with htargets | hnearby | hroom
  · exact absurd htargets (List.cons_ne_nil _ _)
  · have hlength : ((Cloud.gathering greedyConfig sharedPlace rules).nearby 1).length = 1 := by
      decide +kernel
    rw [hnearby] at hlength
    cases hlength
  · revert hroom
    decide

end Vicinity
