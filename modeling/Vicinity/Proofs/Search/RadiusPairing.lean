import Mathlib
import Vicinity.Proofs.Hierarchy.Distance
import Vicinity.Proofs.Search.Conclusion

/-!
# Pairing within a radius

Ranks that pair within a radius give every target the sources of all ranks
within the radius of it, once each, by source rank and by position there. What
a rank gathers is enough for that, since a source within the radius of a target
lies in the box of the targets widened by the radius.
-/

set_option autoImplicit false

namespace Vicinity

variable {n : Nat} {α : Type} [Coord α]

namespace Gathering

section Spec

variable (g : Gathering n α) (radius : α)

def within (center : Point α 3) : List (Fin n × Nat) :=
  (List.finRange n).flatMap fun s => (positions (g.sourceCenters s)
    fun source => decide (source.distanceSquared center ≤ radius * radius)).map fun i => (s, i)

/-- A pairing of rank `r` that comparing every target with every source gives. -/
structure PairsWithin (r : Fin n) (pairing : Pairing α) : Prop where
  parents : pairing.parents.map (fun parent => (parent.id, parent.center, parent.radius)) =
    (g.targets r).map fun target => (target.1.id, target.2, radius)
  sourceIds : pairing.sourceIds.map some =
    (g.origins r).map fun origin => (g.sources origin.1)[origin.2]?.map (·.1.id)
  sourceCenters : pairing.sourceCenters.map some =
    (g.origins r).map fun origin => (g.sources origin.1)[origin.2]?.map (·.2)
  ascending : ∀ parent ∈ pairing.parents, parent.children.Pairwise (· < ·)
  children : ∀ parent ∈ pairing.parents,
    parent.children.map (fun i => (g.origins r)[i]?) = (g.within radius parent.center).map some
  once : ∀ parent ∈ pairing.parents,
    (parent.children.map fun i => (g.origins r)[i]?).Nodup
  childIds : ∀ parent ∈ pairing.parents, (pairing.childIds parent).map some =
    (g.within radius parent.center).map fun origin =>
      (g.sources origin.1)[origin.2]?.map (·.1.id)

end Spec

structure Finite (g : Gathering n α) : Prop where
  source : ∀ s, ∀ source ∈ g.sources s, Point.Finite source.2
  target : ∀ r, ∀ target ∈ g.targets r, Point.Finite target.2

variable {g : Gathering n α} {radius : α}

theorem nodup_within (center : Point α 3) : (g.within radius center).Nodup :=
  Routing.nodup_flatMap_sources fun _ => (positions_ascending _ _).imp fun hlt => hlt.ne

theorem held_children_within {r : Fin n} (hrule : g.rule r = .within radius)
    (tree : Hierarchy α Nat 3) (center : Point α 3) : (g.held r tree).children center =
      ((tree.withinDistance center radius).mergeSort fun i j => decide (i ≤ j), radius) := by
  simp only [Pairing.Gathered.children, held, hrule]

theorem roomy_within {r : Fin n} (hrule : g.rule r = .within radius) : g.Roomy r := by
  intro count hcount
  rw [hrule] at hcount
  cases hcount

namespace Finite

variable (h : g.Finite)

include h

theorem centers (r : Fin n) : ∀ center ∈ g.centers r, Point.Finite center := by
  intro center hcenter
  rw [g.centers_eq] at hcenter
  obtain ⟨source, hsource, rfl⟩ := List.mem_map.mp hcenter
  obtain ⟨s, hmem, -⟩ := mem_nearby hsource
  exact h.source s source hmem

variable [ExactCoord α]

theorem exists_tree (r : Fin n) :
    ∃ tree, Hierarchy.build (Hierarchy.ofPoints (g.centers r)) = .ok tree :=
  Hierarchy.exists_build fun item hitem =>
    (Hierarchy.ofPoints_proper (h.centers r) item hitem).isValid

variable {r : Fin n} (hrule : g.rule r = .within radius) (hr : Coord.isFinite radius = true)

include hrule hr

theorem region_roundTrips [Codec α]
    (hcodec : ∀ x : α, Coord.isFinite x = true → Codec.RoundTrips x) :
    Codec.RoundTrips (g.region r) := by
  have htargets : ∀ p ∈ (g.targets r).map (·.2), Point.Finite p :=
    List.forall_mem_map.mpr (h.target r)
  rw [region, hrule, Routing.region]
  cases hscene : Box.ofPoints ((g.targets r).map (·.2)) with
  | none => exact Codec.roundTrips_none
  | some scene =>
    have hfinite := (Box.ofPoints_proper htargets hscene).expanded_finite hr
    exact Codec.roundTrips_some
      (Codec.roundTrips_box (hfinite.1.roundTrips hcodec) (hfinite.2.roundTrips hcodec))

/-- The rank boxes lose no source within the radius of a target. -/
theorem origins_within (hpos : Coord.zero ≤ radius) {target : Entity α × Point α 3}
    (ht : target ∈ g.targets r) :
    ((g.origins r).filter fun origin =>
      (g.sourceCenters origin.1)[origin.2]?.any fun source =>
        decide (source.distanceSquared target.2 ≤ radius * radius)) =
      g.within radius target.2 := by
  have hcenter : target.2 ∈ (g.targets r).map (·.2) := List.mem_map_of_mem ht
  have htargets : ∀ p ∈ (g.targets r).map (·.2), Point.Finite p :=
    List.forall_mem_map.mpr (h.target r)
  have hsame : ∀ s, ∀ center ∈ g.sourceCenters s,
      ((g.region r).any (fun box => box.contains center) &&
        decide (center.distanceSquared target.2 ≤ radius * radius)) =
          decide (center.distanceSquared target.2 ≤ radius * radius) := by
    intro s center hmem
    obtain ⟨source, hsource, rfl⟩ := List.mem_map.mp hmem
    by_cases hnear : source.2.distanceSquared target.2 ≤ radius * radius
    · simp only [hnear, decide_true, Bool.and_true]
      rw [region, hrule]
      exact Box.ofPoints_contains htargets hcenter (h.source s source hsource) hr hpos hnear
    · simp only [hnear, decide_false, Bool.and_false]
  rw [origins, Routing.origins_filter]
  change _ = Routing.origins g.sourceCenters
    (fun _ center _ => decide (center.distanceSquared target.2 ≤ radius * radius)) r
  exact Routing.origins_congr hsame

/-- The parents of a rank that holds an index of what it has gathered. -/
theorem held_parents (hsize : (g.centers r).length ≤ 2 ^ 64) {tree : Hierarchy α Nat 3}
    (hbuild : Hierarchy.build (Hierarchy.ofPoints (g.centers r)) = .ok tree) :
    (g.held r tree).pairing.parents = (g.targets r).map fun target =>
      ⟨target.1.id, target.2, positions (g.centers r) fun source =>
        decide (source.distanceSquared target.2 ≤ radius * radius), radius⟩ := by
  apply List.map_congr_left
  intro target ht
  have hchildren : ((tree.withinDistance target.2 radius).mergeSort fun i j => decide (i ≤ j)) =
      positions (g.centers r) fun source =>
        decide (source.distanceSquared target.2 ≤ radius * radius) := by
    apply mergeSort_positions
    rw [positions_eq]
    exact Hierarchy.withinDistance_points hbuild hsize (h.centers r) (h.target r target ht) hr
  rw [Pairing.Gathered.parent, held_children_within hrule, hchildren]

theorem pairsWithin (hpos : Coord.zero ≤ radius) (hsize : (g.centers r).length ≤ 2 ^ 64)
    {tree : Hierarchy α Nat 3}
    (hbuild : Hierarchy.build (Hierarchy.ofPoints (g.centers r)) = .ok tree) :
    g.PairsWithin radius r (g.held r tree).pairing := by
  have hparents := h.held_parents hrule hr hsize hbuild
  have haligned : (g.centers r).map some =
      (g.origins r).map fun origin => (g.sourceCenters origin.1)[origin.2]? :=
    Routing.carried_aligned (fun _ => rfl) _ r
  -- Every parent comes from a target, whose center it has.
  have hchildren : ∀ parent ∈ (g.held r tree).pairing.parents,
      parent.children = positions (g.centers r)
        (fun source => decide (source.distanceSquared parent.center ≤ radius * radius)) ∧
      parent.children.map (fun i => (g.origins r)[i]?) =
        (g.within radius parent.center).map some := by
    intro parent hparent
    rw [hparents] at hparent
    obtain ⟨target, ht, rfl⟩ := List.mem_map.mp hparent
    exact ⟨rfl, by rw [positions_of_aligned haligned, h.origins_within hrule hr hpos ht]⟩
  constructor
  · rw [hparents, List.map_map]
    rfl
  · exact g.ids_aligned r
  · exact g.centers_aligned r
  · intro parent hparent
    rw [(hchildren parent hparent).1]
    exact positions_ascending _ _
  · intro parent hparent
    exact (hchildren parent hparent).2
  · intro parent hparent
    rw [(hchildren parent hparent).2]
    exact (nodup_within parent.center).map (Option.some_injective _)
  · intro parent hparent
    simp only [Pairing.childIds, List.getElem?_toArray]
    exact lookup_of_aligned (g.ids_aligned r) (hchildren parent hparent).2

end Finite

end Gathering

theorem PairingConfig.radius_of_validate {config : PairingConfig α} {radius : α}
    (h : config.validate = .ok (.within radius)) :
    Coord.isFinite radius = true ∧ Coord.zero ≤ radius := by
  unfold PairingConfig.validate at h
  split at h
  · split at h
    · cases h
    · split at h
      · next hradius =>
        cases h
        simpa using hradius
      · cases h
  · split at h
    · cases h
    · split at h <;> cases h

namespace Cloud

structure Pairable (config : PairingConfig α) (clouds : Fin n → Cloud α) (radius : α) : Prop where
  source : ∀ s, ∀ e ∈ owned s config.domainDimension (clouds s).domain,
    ∃ center, (clouds s).domainMap.centroid e = .ok center ∧ center.Finite
  target : ∀ r, ∀ e ∈ owned r config.rangeDimension (clouds r).range,
    ∃ center, (clouds r).rangeMap.centroid e = .ok center ∧ center.Finite
  fewSources : ∀ s, (sources config clouds s).length < UInt64.size
  fewGathered : ∀ r,
    ((gathering (fun _ => config) clouds fun _ => .within radius).origins r).length < UInt64.size

theorem centered_finite {map : LocalMap α} {entities : List (Entity α)}
    (h : ∀ e ∈ entities, ∃ center, map.centroid e = .ok center ∧ center.Finite) :
    ∀ item ∈ centered map entities, Point.Finite item.2 := by
  intro item hitem
  obtain ⟨e, he, rfl⟩ := List.mem_map.mp hitem
  obtain ⟨center, hcenter, hfinite⟩ := h e he
  rw [Share.point_ok ⟨center, hcenter⟩] at hcenter
  cases hcenter
  exact hfinite

namespace Pairable

variable {config : PairingConfig α} {clouds : Fin n → Cloud α} {radius : α}
  (h : Pairable config clouds radius)

include h

theorem finite : (gathering (fun _ => config) clouds fun _ => .within radius).Finite where
  source s := centered_finite (h.source s)
  target r := centered_finite (h.target r)

theorem prepare_ok (hconfig : config.validate = .ok (.within radius)) (r : Fin n) :
    Pairing.prepare r config (clouds r).domain (clouds r).domainMap (clouds r).range
      (clouds r).rangeMap = .ok (.within radius, sources config clouds r,
        targets config clouds r) :=
  Cloud.prepare_ok hconfig
    (fun e he => (h.source r e he).imp fun _ hcenter => hcenter.1)
    fun e he => (h.target r e he).imp fun _ hcenter => hcenter.1

end Pairable

end Cloud

/-- With exact arithmetic, ranks that pair within a radius do so without a
failure however their steps interleave, whether a rank stays at its end or
leaves, and every target gets exactly the sources within the radius. -/
theorem pairings_match_brute_force [ExactCoord α] [Codec α]
    (hcodec : ∀ x : α, Coord.isFinite x = true → Codec.RoundTrips x) (config : PairingConfig α)
    (clouds : Fin n → Cloud α) (radius : α) (hconfig : config.validate = .ok (.within radius))
    (h : Cloud.Pairable config clouds radius) (leaves : Fin n → Bool) :
    ∃ (letters : Fin n → Fin n → List Envelope)
      (final : Network n (Except (SearchError α) (Pairing α))) (pairings : Fin n → Pairing α),
      (Network.start fun r => (Pairing.build r config (clouds r).domain (clouds r).domainMap
        (clouds r).range (clouds r).rangeMap).run.bind (Proc.ending (leaves r))).Settles
          letters final ∧
      (∀ r, final.left.get r = leaves r) ∧
      (∀ s d, final.channel s d = []) ∧
      (∀ r, final.programs.get r = .done (.ok (pairings r))) ∧
      ∀ r, (Cloud.gathering (fun _ => config) clouds fun _ => .within radius).PairsWithin radius r
        (pairings r) := by
  obtain ⟨hr, hpos⟩ := PairingConfig.radius_of_validate hconfig
  have hfinite := h.finite
  choose trees hbuild using hfinite.exists_tree
  have hnearby : ∀ r, ((Cloud.gathering (fun _ => config) clouds
      fun _ => .within radius).nearby r).length < UInt64.size := by
    intro r
    rw [← Gathering.length_centers_eq, Gathering.length_centers]
    exact h.fewGathered r
  obtain ⟨letters, final, hsettles, hempty, hends⟩ := Cloud.settles
    (g := Cloud.gathering (fun _ => config) clouds fun _ => .within radius) (h.prepare_ok hconfig)
    (fun r => hfinite.region_roundTrips rfl hr hcodec)
    (fun s source hsource => (hfinite.source s source hsource).roundTrips hcodec) h.fewSources
    hnearby hbuild leaves
  have hdone := fun r => (hends r).done (Gathering.roomy_within rfl)
  exact ⟨letters, final, _, hsettles, fun r => (hdone r).1, hempty, fun r => (hdone r).2,
    fun r => hfinite.pairsWithin rfl hr hpos
      (Gathering.length_centers_eq.trans_le (hnearby r).le) (hbuild r)⟩

/-- Two points at distance 5 of the target, one nearby on its own rank, and
one out of reach. -/
def fiveApart (r : Fin 2) : Cloud ℚ where
  domain := if r.val = 0 then
      [.ofPoint 1 0 #v[0, 0, 0] false, .ofPoint 2 0 #v[9, 9, 9] false,
        .ofPoint 3 0 #v[6, 0, 0] false]
    else [.ofPoint 4 1 #v[3, 4, 1] false]
  domainMap := .basic
  range := if r.val = 0 then [] else [.ofPoint 7 1 #v[3, 4, 0] false]
  rangeMap := .basic

theorem pairings_five_apart : (PairingConfig.ofRadius (5 : ℚ)).validate = .ok (.within 5) ∧
    Cloud.Pairable (PairingConfig.ofRadius 5) fiveApart 5 ∧
    ∃ letters final, ∃ pairings : Fin 2 → Pairing ℚ,
      (Network.start fun r => (Pairing.build r (PairingConfig.ofRadius 5) (fiveApart r).domain
        (fiveApart r).domainMap (fiveApart r).range (fiveApart r).rangeMap).run.bind
          (Proc.ending true)).Settles letters final ∧
      (∀ r, final.programs.get r = .done (.ok (pairings r))) ∧
      (pairings 1).parents.map (·.id) = [7] ∧
      ∀ parent ∈ (pairings 1).parents, (pairings 1).childIds parent = [1, 3, 4] := by
  have hvalidate : (PairingConfig.ofRadius (5 : ℚ)).validate = .ok (.within 5) := by
    have hradius : (Coord.isFinite (5 : ℚ) && decide (Coord.zero ≤ (5 : ℚ))) = true := by
      decide +kernel
    exact if_pos (e := Except.error (.radius 5)) hradius
  have hpairable : Cloud.Pairable (PairingConfig.ofRadius 5) fiveApart 5 := by
    constructor
    · intro s e _
      exact ⟨_, rfl, fun _ => rfl⟩
    · intro r e _
      exact ⟨_, rfl, fun _ => rfl⟩
    · decide +kernel
    · decide +kernel
  obtain ⟨letters, final, pairings, hsettles, -, -, hdone, hpairs⟩ :=
    pairings_match_brute_force (fun x _ => Codec.roundTrips_rational x)
      (PairingConfig.ofRadius 5) fiveApart 5 hvalidate hpairable fun _ => true
  have hparents := (hpairs 1).parents
  have htargets : (Cloud.gathering (fun _ => PairingConfig.ofRadius 5) fiveApart
      fun _ => .within 5).targets 1 = [(.ofPoint 7 1 #v[3, 4, 0] false, #v[3, 4, 0])] := rfl
  have hwithin : (Cloud.gathering (fun _ => PairingConfig.ofRadius 5) fiveApart
      fun _ => .within 5).within 5 #v[3, 4, 0] = [(0, 0), (0, 2), (1, 0)] := by decide +kernel
  rw [htargets] at hparents
  refine ⟨hvalidate, hpairable, letters, final, pairings, hsettles, hdone, ?_, ?_⟩
  · have hids := congrArg (List.map Prod.fst) hparents
    rw [List.map_map] at hids
    exact hids
  · intro parent hparent
    have hmem := List.mem_map_of_mem (f := fun parent => (parent.id, parent.center, parent.radius))
      hparent
    rw [hparents, List.map_singleton, List.mem_singleton] at hmem
    have hcenter : parent.center = #v[3, 4, 0] := congrArg (fun p => p.2.1) hmem
    have hids := (hpairs 1).childIds parent hparent
    rw [hcenter, hwithin] at hids
    exact (List.map_inj_right fun _ _ => Option.some.inj).mp hids

end Vicinity
