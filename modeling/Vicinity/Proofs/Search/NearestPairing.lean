import Mathlib
import Vicinity.Proofs.Search.Conclusion

/-!
# Pairing with the nearest

Ranks that pair with the nearest sources give every target the first of all
sources that they gather, by distance and then by the order in which these are
gathered. Of the arithmetic only the order of numbers is assumed, and that
differences, squares and sums keep it; of the square root nothing at all.
-/

set_option autoImplicit false

namespace Vicinity

variable {n : Nat} {α : Type} [Coord α]

namespace Neighbor

def ByDistance (found : List (Neighbor α Nat)) : Prop :=
  found.Pairwise fun a b => a.distance ≤ b.distance ∧ (b.distance ≤ a.distance → a.id < b.id)

/-- There is one such order of given neighbours. -/
theorem ByDistance.unique {found found' : List (Neighbor α Nat)} (h : ByDistance found)
    (h' : ByDistance found') (hperm : found.Perm found') : found = found' := by
  apply hperm.eq_of_pairwise ?_ h h'
  intro a b _ _ hab hba
  have hlt := hab.2 hba.1
  have hgt := hba.2 hab.1
  omega

theorem Ranked.byDistance [OrderedCoord α] {found : List (Neighbor α Nat)} (h : Ranked found)
    (hcomparable : ∀ a ∈ found, a.Comparable) (hids : (found.map (·.id)).Nodup) :
    ByDistance found := by
  have hne : found.Pairwise fun a b => a.id ≠ b.id := List.pairwise_map.mp hids
  apply (h.and hne).imp_of_mem
  rintro a b ha hb ⟨hbefore, hdistinct⟩
  obtain ⟨hle, hties⟩ := (not_before_iff (hcomparable a ha) (hcomparable b hb)).mp hbefore
  refine ⟨hle, fun hback => ?_⟩
  have hid : a.id ≤ b.id := Nat.isLE_compare.mp (hties hback)
  omega

end Neighbor

namespace Hierarchy

/-- The nearest of some points are the first ones by distance and place. -/
theorem closest_byDistance [MonotoneCoord α] {d : Nat} {points : List (Point α d)}
    {tree : Hierarchy α Nat d} (hbuild : build (ofPoints points) = .ok tree)
    (hsize : points.length ≤ 2 ^ 64) (center : Point α d) (count : Nat) :
    ∃ ranking, ranking.Perm (neighbors center (ofPoints points)) ∧
      Neighbor.ByDistance ranking ∧ tree.closest center count = ranking.take count := by
  have hitems : (ofPoints points).length ≤ 2 ^ 64 := by rwa [length_ofPoints]
  obtain ⟨ranking, hperm, hranked, hclosest⟩ := closest_ranking hbuild hitems center count
  have hcomparable : ∀ a ∈ ranking, a.Comparable := fun a ha =>
    comparable_of_mem_neighbors (hperm.mem_iff.mp ha)
  have hplaces : ((neighbors center (ofPoints points)).map (·.id)).Nodup := by
    rw [neighbors, List.map_map]
    change ((ofPoints points).map (·.1)).Nodup
    rw [ids_ofPoints]
    exact List.nodup_range
  exact ⟨ranking, hperm,
    hranked.byDistance hcomparable ((hperm.map (·.id)).nodup_iff.mpr hplaces), hclosest⟩

end Hierarchy

namespace Cloud

section Spec

variable (config : PairingConfig α) (clouds : Fin n → Cloud α)

/-- The box of the target centers of a rank, widened by a tenth of the largest
side of the box around its targets. -/
def surroundings (r : Fin n) : Option (Box α 3) :=
  match Box.ofPoints ((targets config clouds r).map (·.2)),
    Box.unionAll ((targets config clouds r).map fun target => target.1.bounds) with
  | some centers, some span => some (centers.expanded (span.largestExtent * Coord.tenth))
  | _, _ => none

def surrounding (r : Fin n) : List (Entity α × Point α 3) :=
  (List.finRange n).flatMap fun s => (sources config clouds s).filter fun source =>
    (surroundings config clouds r).any fun box => box.contains source.2

def distances (r : Fin n) (center : Point α 3) : List (Neighbor α Nat) :=
  (surrounding config clouds r).zipIdx.map fun (source, i) =>
    ⟨(Box.ofPoint source.2).distanceSquared center, i⟩

def support (children : List (Neighbor α Nat)) : α :=
  match children.getLast? with
  | none => Coord.zero
  | some last => Coord.sqrt last.distance

structure Rankable : Prop where
  centered : Centered config clouds
  fewSources : ∀ s, (sources config clouds s).length < UInt64.size
  fewSurrounding : ∀ r, (surrounding config clouds r).length < UInt64.size

def HasRoom (count : Nat) (r : Fin n) : Prop :=
  targets config clouds r = [] ∨ surrounding config clouds r = [] ∨
    Neighbor.hasRoom count = true

/-- A pairing of rank `r` that ranking all sources for every target gives. -/
structure PairsNearest (count : Nat) (r : Fin n) (pairing : Pairing α) : Prop where
  parents : pairing.parents.map (fun parent => (parent.id, parent.center)) =
    (targets config clouds r).map fun target => (target.1.id, target.2)
  sourceIds : pairing.sourceIds = (surrounding config clouds r).map (·.1.id)
  sourceCenters : pairing.sourceCenters = (surrounding config clouds r).map (·.2)
  children : ∀ parent ∈ pairing.parents, ∃ ranking : List (Neighbor α Nat),
    ranking.Perm (distances config clouds r parent.center) ∧ Neighbor.ByDistance ranking ∧
    parent.children = (ranking.take count).map (·.id) ∧
    parent.radius = support (ranking.take count)

end Spec

variable {config : PairingConfig α} {clouds : Fin n → Cloud α} {count : Nat}

theorem surroundings_eq (count : Nat) (r : Fin n) : surroundings config clouds r =
    (gathering (fun _ => config) clouds fun _ => .nearest count).region r := by
  rw [surroundings, Gathering.region, Routing.region]
  change _ = (Box.ofPoints ((targets config clouds r).map (·.2))).map fun box =>
    box.expanded (Pairing.proximity (.nearest count) ((targets config clouds r).map (·.1)))
  rw [Pairing.proximity, List.map_map]
  cases targets config clouds r <;> rfl

theorem surrounding_eq (count : Nat) (r : Fin n) : surrounding config clouds r =
    (gathering (fun _ => config) clouds fun _ => .nearest count).nearby r := by
  rw [surrounding, surroundings_eq count]
  rfl

theorem Rankable.ready (h : Rankable config clouds)
    (hconfig : config.validate = .ok (.nearest count)) :
    Ready (fun _ : Fin n => config) clouds fun _ => .nearest count where
  accepted _ := hconfig
  source := h.centered.source
  target := h.centered.target
  fewSources := h.fewSources
  fewGathered r := by
    rw [← surrounding_eq count]
    exact h.fewSurrounding r

theorem hasRoom_iff (r : Fin n) : HasRoom config clouds count r ↔
    (gathering (fun _ => config) clouds fun _ => .nearest count).Roomy r := by
  rw [HasRoom, surrounding_eq count]
  constructor
  · rintro h _ ⟨⟩
    exact h
  · intro h
    exact h count rfl

/-- The index ranks what it was built of. -/
theorem distances_eq (r : Fin n) (center : Point α 3) : distances config clouds r center =
    Hierarchy.neighbors center (Hierarchy.ofPoints
      ((gathering (fun _ => config) clouds fun _ => .nearest count).centers r)) := by
  rw [Gathering.centers_eq, ← surrounding_eq, distances, Hierarchy.neighbors, Hierarchy.ofPoints,
    List.zipIdx_map, List.map_map, List.map_map]
  rfl

variable [MonotoneCoord α]

theorem pairsNearest {r : Fin n} {tree : Hierarchy α Nat 3}
    (hbuild : Hierarchy.build (Hierarchy.ofPoints
      ((gathering (fun _ => config) clouds fun _ => .nearest count).centers r)) = .ok tree)
    (hsize : (surrounding config clouds r).length ≤ 2 ^ 64) :
    PairsNearest config clouds count r
      ((gathering (fun _ => config) clouds fun _ => .nearest count).held r tree).pairing := by
  let g := gathering (fun _ => config) clouds fun _ : Fin n => PairingRule.nearest count
  constructor
  · rw [Gathering.held, Pairing.Gathered.pairing, List.map_map]
    rfl
  · rw [surrounding_eq count]
    exact g.ids_eq r
  · rw [surrounding_eq count]
    exact g.centers_eq r
  · intro parent hparent
    obtain ⟨target, -, rfl⟩ := List.mem_map.mp hparent
    have hcenters : (g.centers r).length ≤ 2 ^ 64 := by
      rwa [Gathering.length_centers_eq, ← surrounding_eq]
    obtain ⟨ranking, hperm, hranked, hclosest⟩ :=
      Hierarchy.closest_byDistance hbuild hcenters target.2 count
    rw [← distances_eq] at hperm
    refine ⟨ranking, hperm, hranked, ?_, ?_⟩
    · rw [← hclosest]
      rfl
    · rw [← hclosest]
      change ((tree.closest target.2 count).getLast?.map _).getD _ = _
      rw [support]
      cases (tree.closest target.2 count).getLast? <;> rfl

end Cloud

/-- Ranks that pair with the nearest sources are served by the exchange however
their steps interleave, whether a rank stays at its end or leaves. A rank with
room for the neighbours it asks for gives every target the first ones, by
distance and place, of exactly the sources around its targets; any other rank
breaks off when the exchange is over. -/
theorem pairings_match_ranking [MonotoneCoord α] [Codec α] (hcodec : ∀ x : α, Codec.RoundTrips x)
    (config : PairingConfig α) (clouds : Fin n → Cloud α) (count : Nat)
    (hconfig : config.validate = .ok (.nearest count)) (h : Cloud.Rankable config clouds)
    (leaves : Fin n → Bool) :
    ∃ (letters : Fin n → Fin n → List Envelope)
      (final : Network n (Except (SearchError α) (Pairing α))),
      (Network.start fun r => (Pairing.build r config (clouds r).domain (clouds r).domainMap
        (clouds r).range (clouds r).rangeMap).run.bind (Proc.ending (leaves r))).Settles
          letters final ∧
      (∀ s d, final.channel s d = []) ∧
      ∀ r, (Cloud.HasRoom config clouds count r → final.left.get r = leaves r ∧
          ∃ pairing, final.programs.get r = .done (.ok pairing) ∧
            Cloud.PairsNearest config clouds count r pairing) ∧
        (¬ Cloud.HasRoom config clouds count r →
          final.left.get r = true ∧ final.programs.get r = .abort) := by
  obtain ⟨trees, letters, final, hbuild, hsettles, hempty, hends⟩ :=
    (h.ready hconfig).settles hcodec leaves
  refine ⟨letters, final, hsettles, hempty, fun r => ?_⟩
  rw [Cloud.hasRoom_iff]
  constructor
  · intro hroom
    obtain ⟨hleft, hdone⟩ := (hends r).done hroom
    exact ⟨hleft, _, hdone, Cloud.pairsNearest (hbuild r) (h.fewSurrounding r).le⟩
  · exact (hends r).breaksOff

def onAxis (x : Float) : Point Float 3 := Vector.ofFn fun i => if i.val = 0 then x else 0

/-- Two points at the same distance of the target, a nearer one on its own rank,
and one that is out of its surroundings. -/
def aroundBox (r : Fin 2) : Cloud Float where
  domain := if r.val = 0 then
      [.ofPoint 10 0 (onAxis 1) false, .ofPoint 11 0 (onAxis 9) false,
        .ofPoint 12 0 (onAxis (-1)) false]
    else [.ofPoint 13 1 (onAxis 0.5) false]
  domainMap := .basic
  range := if r.val = 0 then [] else
    [.ofBox 7 1 ⟨Vector.replicate 3 (-10), Vector.replicate 3 10⟩]
  rangeMap := .basic

theorem pairings_around_box : (PairingConfig.ofNearest 2).validate = .ok (.nearest 2 : PairingRule Float) ∧
    Cloud.Rankable (.ofNearest 2) aroundBox ∧
    ∃ letters final, ∃ pairing : Pairing Float,
      (Network.start fun r => (Pairing.build r (.ofNearest 2) (aroundBox r).domain
        (aroundBox r).domainMap (aroundBox r).range (aroundBox r).rangeMap).run.bind
          (Proc.ending true)).Settles letters final ∧
      final.programs.get 1 = .done (.ok pairing) ∧ pairing.sourceIds = [10, 12, 13] ∧
      pairing.parents.map (·.id) = [7] ∧
      ∀ parent ∈ pairing.parents, parent.children = [2, 0] := by
  have hrankable : Cloud.Rankable (.ofNearest 2) aroundBox := by
    constructor
    · exact ⟨fun s e _ => ⟨_, rfl⟩, fun r e _ => ⟨_, rfl⟩⟩
    · decide +kernel
    · decide +kernel
  obtain ⟨letters, final, hsettles, -, hends⟩ :=
    pairings_match_ranking Binary64.roundTrips (.ofNearest 2) aroundBox 2 rfl hrankable
      fun _ => true
  obtain ⟨-, pairing, hdone, hpairs⟩ := (hends 1).1 (.inr (.inr (by decide)))
  have hids : pairing.sourceIds = [10, 12, 13] := by
    rw [hpairs.sourceIds]
    decide +kernel
  have hparents := hpairs.parents
  refine ⟨rfl, hrankable, letters, final, pairing, hsettles, hdone, hids, ?_, ?_⟩
  · have hfirst := congrArg (List.map Prod.fst) hparents
    rw [List.map_map] at hfirst
    exact hfirst.trans rfl
  · intro parent hparent
    obtain ⟨ranking, hperm, hranked, hchildren, -⟩ := hpairs.children parent hparent
    have hcenter : parent.center = LocalMap.center
        (.ofBox 7 1 ⟨Vector.replicate 3 (-10), Vector.replicate 3 10⟩) := by
      have hmem := List.mem_map_of_mem (f := fun parent => (parent.id, parent.center)) hparent
      rw [hparents] at hmem
      exact congrArg Prod.snd (List.mem_singleton.mp hmem)
    rw [hcenter] at hperm
    let found := Cloud.distances (.ofNearest 2) aroundBox 1 (LocalMap.center
      (.ofBox 7 1 ⟨Vector.replicate 3 (-10), Vector.replicate 3 10⟩))
    -- Place 2 comes before place 0, and that before place 1, which is as far away.
    have hsorted : Neighbor.ByDistance (found.drop 2 ++ found.take 2) := by
      unfold Neighbor.ByDistance
      decide +kernel
    have hrotated : found.Perm (found.drop 2 ++ found.take 2) := by
      conv_lhs => rw [← List.take_append_drop 2 found]
      exact List.perm_append_comm
    rw [hchildren, hranked.unique hsorted (hperm.trans hrotated)]
    decide +kernel

/-- One source, one target in the same place, and more neighbours asked for
than there can be room for: the setting is accepted, and the rank breaks off. -/
theorem pairings_beyond_memory :
    (PairingConfig.ofNearest 1152921504606846976).validate =
      .ok (.nearest 1152921504606846976 : PairingRule Float) ∧
    Cloud.Rankable (.ofNearest 1152921504606846976) sharedPlace ∧
    ∃ letters final, (Network.start fun r => (Pairing.build r (.ofNearest 1152921504606846976)
        (sharedPlace r).domain (sharedPlace r).domainMap (sharedPlace r).range
        (sharedPlace r).rangeMap).run.bind (Proc.ending true)).Settles letters final ∧
      final.programs.get 1 = .abort := by
  have hrankable : Cloud.Rankable (.ofNearest 1152921504606846976) sharedPlace := by
    constructor
    · exact ⟨fun s e _ => ⟨_, rfl⟩, fun r e _ => ⟨_, rfl⟩⟩
    · decide +kernel
    · decide +kernel
  obtain ⟨trees, letters, final, -, hsettles, -, hends⟩ :=
    (hrankable.ready rfl).settles Binary64.roundTrips fun _ => true
  refine ⟨rfl, hrankable, letters, final, hsettles, ((hends 1).breaksOff ?_).2⟩
  rw [← Cloud.hasRoom_iff]
  rintro (htargets | hsurrounding | hroom)
  · exact absurd htargets (List.cons_ne_nil _ _)
  · have hlength : (Cloud.surrounding (.ofNearest 1152921504606846976) sharedPlace 1).length = 1 := by
      decide +kernel
    rw [hsurrounding] at hlength
    cases hlength
  · revert hroom
    decide

end Vicinity
