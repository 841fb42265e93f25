import Mathlib
import Vicinity.Proofs.Coord.Monotone
import Vicinity.Proofs.Group.Candidates
import Vicinity.Proofs.Search.Matches
import Vicinity.Search.Pairing

/-!
# Gathering for a pairing

What the ranks exchange for a pairing, whatever the rule: a rank gathers the
sources of all ranks that lie in the widened box of its own targets, by source
rank and by position there, and the ids in the same order as the centers. After
that nothing is left to communicate.
-/

set_option autoImplicit false

namespace Vicinity

variable {n : Nat} {α : Type} [Coord α]

namespace Pairing

structure Gathered (α : Type) where
  rule : PairingRule α
  targets : List (Entity α × Point α 3)
  ids : List EntityId
  centers : List (Point α 3)
  index : Hierarchy α Nat 3

def Gathered.conclude (g : Gathered α) : Except QueryFault (Pairing α) :=
  (parentsOf g.rule g.index g.targets).map fun parents => ⟨parents, g.ids, g.centers⟩

def gather [Codec α] (me : Fin n) (config : PairingConfig α)
    (domain : List (Entity α)) (domainMap : LocalMap α)
    (range : List (Entity α)) (rangeMap : LocalMap α) :
    Routine n (SearchError α) (Gathered α) := do
  let (rule, sources, targets) ←
    Routine.ofExcept (prepare me config domain domainMap range rangeMap)
  let (routing, gathered) ←
    (Routing.ofCenters me (sources.map (·.2)) (targets.map (·.2))
      (proximity rule (targets.map (·.1)))).mapError .comm
  let ids ← (routing.distribute (sources.map fun s => s.1.id)).mapError .comm
  let index ← Routine.ofExcept
    ((Hierarchy.build (gathered.zipIdx.map fun (p, i) => (i, Box.ofPoint p))).mapError .index)
  pure ⟨rule, targets, ids, gathered, index⟩

theorem build_eq [Codec α] (me : Fin n) (config : PairingConfig α)
    (domain : List (Entity α)) (domainMap : LocalMap α)
    (range : List (Entity α)) (rangeMap : LocalMap α) :
    build me config domain domainMap range rangeMap =
      gather me config domain domainMap range rangeMap >>= fun g => Routine.orAbort g.conclude := by
  have hlast : ∀ g : Gathered α, Routine.orAbort (n := n) (ε := SearchError α) g.conclude =
      Routine.orAbort (parentsOf g.rule g.index g.targets) >>= fun parents =>
        pure ⟨parents, g.ids, g.centers⟩ := by
    intro g
    rw [Gathered.conclude]
    cases parentsOf g.rule g.index g.targets <;> rfl
  simp only [build, gather, hlast, bind_assoc, pure_bind]

end Pairing

/-- A pairing as the whole group sets out on it: the sources and targets of
every rank, with their centers, and its rule. -/
structure Gathering (n : Nat) (α : Type) where
  sources : Fin n → List (Entity α × Point α 3)
  targets : Fin n → List (Entity α × Point α 3)
  rule : Fin n → PairingRule α

namespace Gathering

variable (g : Gathering n α)

def sourceIds (s : Fin n) : List EntityId := (g.sources s).map (·.1.id)

def sourceCenters (s : Fin n) : List (Point α 3) := (g.sources s).map (·.2)

def region (r : Fin n) : Option (Box α 3) :=
  Routing.region ((g.targets r).map (·.2))
    (Pairing.proximity (g.rule r) ((g.targets r).map (·.1)))

def origins (r : Fin n) : List (Fin n × Nat) :=
  Routing.origins g.sourceCenters
    (fun _ center r => (g.region r).any fun box => box.contains center) r

def centers (r : Fin n) : List (Point α 3) := Routing.carried (g.origins r) g.sourceCenters

def ids (r : Fin n) : List EntityId := Routing.carried (g.origins r) g.sourceIds

omit [Coord α] in
theorem length_sourceIds (s : Fin n) : (g.sourceIds s).length = (g.sourceCenters s).length := by
  rw [sourceIds, sourceCenters, List.length_map, List.length_map]

theorem centers_aligned (r : Fin n) : (g.centers r).map some =
    (g.origins r).map fun origin => (g.sources origin.1)[origin.2]?.map (·.2) := by
  rw [centers, origins, Routing.carried_aligned (fun _ => rfl)]
  simp only [sourceCenters, List.getElem?_map]

theorem ids_aligned (r : Fin n) : (g.ids r).map some =
    (g.origins r).map fun origin => (g.sources origin.1)[origin.2]?.map (·.1.id) := by
  rw [ids, origins, Routing.carried_aligned g.length_sourceIds]
  simp only [sourceIds, List.getElem?_map]

theorem length_centers (r : Fin n) : (g.centers r).length = (g.origins r).length := by
  simpa using congrArg List.length (g.centers_aligned r)

theorem length_ids (r : Fin n) : (g.ids r).length = (g.centers r).length := by
  simpa [g.length_centers] using congrArg List.length (g.ids_aligned r)

def nearby (r : Fin n) : List (Entity α × Point α 3) :=
  (List.finRange n).flatMap fun s => (g.sources s).filter fun source =>
    (g.region r).any fun box => box.contains source.2

theorem centers_eq (r : Fin n) : g.centers r = (g.nearby r).map (·.2) := by
  rw [nearby, List.map_flatMap]
  exact Routing.carried_map g.sources (·.2) (·.2)
    (fun _ center r => (g.region r).any fun box => box.contains center) r

theorem ids_eq (r : Fin n) : g.ids r = (g.nearby r).map (·.1.id) := by
  rw [nearby, List.map_flatMap]
  exact Routing.carried_map g.sources (·.2) (·.1.id)
    (fun _ center r => (g.region r).any fun box => box.contains center) r

variable {g}

theorem mem_nearby {r : Fin n} {source : Entity α × Point α 3} (h : source ∈ g.nearby r) :
    ∃ s, source ∈ g.sources s ∧ ∃ box, g.region r = some box ∧ box.contains source.2 = true := by
  obtain ⟨s, -, hsource⟩ := List.mem_flatMap.mp h
  obtain ⟨hmem, hnear⟩ := List.mem_filter.mp hsource
  exact ⟨s, hmem, (Option.any_eq_true _ _).mp hnear⟩

/-- A center that has come to a rank has no NaN, for it was found in a box. -/
theorem centers_valid [MonotoneCoord α] {r : Fin n} :
    ∀ center ∈ g.centers r, (Box.ofPoint center).isValid = true := by
  intro center hcenter
  rw [centers_eq] at hcenter
  obtain ⟨source, hsource, rfl⟩ := List.mem_map.mp hcenter
  obtain ⟨-, -, box, -, hcontains⟩ := mem_nearby hsource
  exact Box.isValid_of_contains hcontains

end Gathering

structure Cloud (α : Type) where
  domain : List (Entity α)
  domainMap : LocalMap α
  range : List (Entity α)
  rangeMap : LocalMap α

namespace Cloud

def owned (me : Fin n) (dimension : Option Dimension) (entities : List (Entity α)) :
    List (Entity α) :=
  entities.filter ((Selection.ownedBy me.val).both (Selection.ofDimension? dimension))

def centered (map : LocalMap α) (entities : List (Entity α)) : List (Entity α × Point α 3) :=
  entities.map fun e => (e, Share.point map e)

section Sides

variable (config : PairingConfig α) (clouds : Fin n → Cloud α)

def sources (s : Fin n) : List (Entity α × Point α 3) :=
  centered (clouds s).domainMap (owned s config.domainDimension (clouds s).domain)

def targets (r : Fin n) : List (Entity α × Point α 3) :=
  centered (clouds r).rangeMap (owned r config.rangeDimension (clouds r).range)

structure Centered : Prop where
  source : ∀ s, ∀ e ∈ owned s config.domainDimension (clouds s).domain,
    ∃ center, (clouds s).domainMap.centroid e = .ok center
  target : ∀ r, ∀ e ∈ owned r config.rangeDimension (clouds r).range,
    ∃ center, (clouds r).rangeMap.centroid e = .ok center

end Sides

def gathering (configs : Fin n → PairingConfig α) (clouds : Fin n → Cloud α)
    (rules : Fin n → PairingRule α) : Gathering n α where
  sources s := sources (configs s) clouds s
  targets r := targets (configs r) clouds r
  rule := rules

theorem centers_ok {me : Fin n} {dimension : Option Dimension} {map : LocalMap α}
    {entities : List (Entity α)}
    (h : ∀ e ∈ owned me dimension entities, ∃ center, map.centroid e = .ok center) :
    Pairing.centers me dimension map entities = .ok (centered map (owned me dimension entities)) := by
  apply mapM_ok
  intro e he
  rw [Share.point_ok (h e he)]
  rfl

/-- A rank whose entities all have centers passes its checks. -/
theorem prepare_ok {config : PairingConfig α} {clouds : Fin n → Cloud α} {rule : PairingRule α}
    (hrule : config.validate = .ok rule) {r : Fin n}
    (hsource : ∀ e ∈ owned r config.domainDimension (clouds r).domain,
      ∃ center, (clouds r).domainMap.centroid e = .ok center)
    (htarget : ∀ e ∈ owned r config.rangeDimension (clouds r).range,
      ∃ center, (clouds r).rangeMap.centroid e = .ok center) :
    Pairing.prepare r config (clouds r).domain (clouds r).domainMap (clouds r).range
      (clouds r).rangeMap = .ok (rule, sources config clouds r, targets config clouds r) := by
  rw [Pairing.prepare, hrule, centers_ok hsource, centers_ok htarget]
  rfl

variable [Codec α]

/-- The ranks gather what they need, provided that what travels survives the
wire and that the gathered centers can be indexed. -/
theorem gather_finishes {configs : Fin n → PairingConfig α} {clouds : Fin n → Cloud α}
    {g : Gathering n α}
    (hprepare : ∀ r, Pairing.prepare r (configs r) (clouds r).domain (clouds r).domainMap
      (clouds r).range (clouds r).rangeMap = .ok (g.rule r, g.sources r, g.targets r))
    (hregion : ∀ r, Codec.RoundTrips (g.region r))
    (hcodec : ∀ s, ∀ source ∈ g.sources s, Codec.RoundTrips source.2)
    (hsmall : ∀ s, (g.sources s).length < UInt64.size)
    {trees : Fin n → Hierarchy α Nat 3}
    (hbuild : ∀ r, Hierarchy.build ((g.centers r).zipIdx.map
      fun (p, i) => (i, Box.ofPoint p)) = .ok (trees r)) :
    Routine.Finishes
      (fun r => Pairing.gather r (configs r) (clouds r).domain (clouds r).domainMap
        (clouds r).range (clouds r).rangeMap)
      fun r => ⟨g.rule r, g.targets r, g.ids r, g.centers r, trees r⟩ := by
  have hsources : ∀ s, ∀ center ∈ g.sourceCenters s, Codec.RoundTrips center := by
    intro s center hcenter
    obtain ⟨source, hsource, rfl⟩ := List.mem_map.mp hcenter
    exact hcodec s source hsource
  have hfew : ∀ s, (g.sourceCenters s).length < UInt64.size := by
    intro s
    rw [Gathering.sourceCenters, List.length_map]
    exact hsmall s
  obtain ⟨routings, hcenters, hexact⟩ := Routing.ofCenters_exact hregion hsources hfew
  have hsent := hexact.distributes _ g.sourceIds g.length_sourceIds
    fun _ id _ => Codec.roundTrips_word id
  have hindex : ∀ r, (Hierarchy.build ((g.centers r).zipIdx.map
      fun (p, i) => (i, Box.ofPoint p))).mapError (SearchError.index : _ → SearchError α) =
        .ok (trees r) := by
    intro r
    rw [hbuild r]
    rfl
  dsimp only [Pairing.gather]
  apply (Routine.Finishes.ofExcept hprepare).bind
  apply (hcenters.mapError _).bind
  apply (hsent.mapError _).bind
  apply (Routine.Finishes.ofExcept hindex).bind
  exact Routine.Finishes.pure _

end Cloud

end Vicinity
