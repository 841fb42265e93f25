import Mathlib
import Vicinity.Proofs.Search.NearestPairing

/-!
# Targets with unknown coordinates

A pairing does not check its targets, so a center may have a NaN on an axis.
The three tests that it comes to treat that differently. A union passes over
it, hence the box of the targets is that of the numbers they have. A box with a
NaN corner contains nothing, hence a rank gathers nothing when no target has a
number on some axis. And no gap is seen on the axis of a NaN, hence the target
pairs with whatever is gathered as though it had the source's own coordinate
there.
-/

set_option autoImplicit false

namespace Vicinity

variable {n d : Nat} {α : Type} [Coord α]

namespace Coord

/-- A choice between two values that passes over a NaN, and of two numbers takes
the one that comes first. -/
structure Chooses (choose : α → α → α) (first : α → α → Prop) : Prop where
  mem (a b : α) : choose a b = a ∨ choose a b = b
  skipLeft {a b : α} : isNaN a = true → choose a b = b
  skipRight {a b : α} : isNaN a = false → isNaN b = true → choose a b = a
  best {a b : α} : isNaN a = false → isNaN b = false →
    first (choose a b) a ∧ first (choose a b) b
  refl {a : α} : isNaN a = false → first a a
  trans {a b c : α} : first a b → first b c → first a c

theorem lesser_chooses [OrderedCoord α] : Chooses (lesser : α → α → α) (· ≤ ·) where
  mem a b := lesser_of (P := fun x => x = a ∨ x = b) (.inl rfl) (.inr rfl)
  skipLeft ha := if_pos ha
  skipRight ha hb := by simp [lesser, ha, hb]
  best := lesser_le
  refl := le_refl
  trans := OrderedCoord.le_trans

theorem greater_chooses [OrderedCoord α] : Chooses (greater : α → α → α) fun a b => b ≤ a where
  mem a b := greater_of (P := fun x => x = a ∨ x = b) (.inl rfl) (.inr rfl)
  skipLeft ha := if_pos ha
  skipRight ha hb := by simp [greater, ha, hb]
  best := le_greater
  refl := le_refl
  trans h h' := OrderedCoord.le_trans h' h

namespace Chooses

variable {choose : α → α → α} {first : α → α → Prop} (h : Chooses choose first)

include h

/-- What is chosen is as good as any number it was chosen from. -/
theorem number {a b x : α} (hx : x = a ∨ x = b) (hnumber : isNaN x = false) :
    isNaN (choose a b) = false ∧ first (choose a b) x := by
  cases ha : isNaN a with
  | true =>
    obtain rfl : x = b := hx.resolve_left (by rintro rfl; rw [ha] at hnumber; cases hnumber)
    rw [h.skipLeft ha]
    exact ⟨hnumber, h.refl hnumber⟩
  | false =>
    cases hb : isNaN b with
    | true =>
      obtain rfl : x = a := hx.resolve_right (by rintro rfl; rw [hb] at hnumber; cases hnumber)
      rw [h.skipRight ha hb]
      exact ⟨hnumber, h.refl hnumber⟩
    | false =>
      have hchosen : isNaN (choose a b) = false := by
        rcases h.mem a b with heq | heq <;> rw [heq] <;> assumption
      rcases hx with rfl | rfl
      · exact ⟨hchosen, (h.best ha hb).1⟩
      · exact ⟨hchosen, (h.best ha hb).2⟩

theorem foldl_mem (values : List α) (start : α) :
    values.foldl choose start ∈ start :: values := by
  induction values generalizing start with
  | nil => exact List.mem_singleton.mpr rfl
  | cons value values ih =>
    rcases List.mem_cons.mp (ih (choose start value)) with hchosen | hlater
    · rw [List.foldl_cons, hchosen]
      rcases h.mem start value with heq | heq <;> simp [heq]
    · exact List.mem_cons_of_mem _ (List.mem_cons_of_mem _ hlater)

theorem foldl_first (values : List α) (start : α) : ∀ x ∈ start :: values, isNaN x = false →
    isNaN (values.foldl choose start) = false ∧ first (values.foldl choose start) x := by
  induction values generalizing start with
  | nil =>
    intro x hx hnumber
    obtain rfl := List.mem_singleton.mp hx
    exact ⟨hnumber, h.refl hnumber⟩
  | cons value values ih =>
    intro x hx hnumber
    rw [List.mem_cons, List.mem_cons, ← or_assoc] at hx
    rcases hx with hnow | hlater
    · obtain ⟨hchosen, hfirst⟩ := h.number hnow hnumber
      obtain ⟨hresult, hbefore⟩ := ih (choose start value) _ List.mem_cons_self hchosen
      exact ⟨hresult, h.trans hbefore hfirst⟩
    · exact ih _ x (List.mem_cons_of_mem _ hlater) hnumber

end Chooses

end Coord

namespace Binary64

open Float.Model (Format UnpackedFloat)
open Float.Model.UnpackedFloat

theorem isNaN_sub {x : Float} (h : x.isNaN = true) (y : Float) : (x - y).isNaN = true := by
  have hx : x.toModel.unpack = .notANumber := by
    change x.toModel.unpack.isNaN = true at h
    cases hunpack : x.toModel.unpack with
    | notANumber => rfl
    | _ => rw [hunpack] at h; cases h
  have hsub : UnpackedFloat.sub Format.binary64 .notANumber y.toModel.unpack = .notANumber := by
    cases y.toModel.unpack <;> rfl
  change (unpack Format.binary64 (pack Format.binary64
    (UnpackedFloat.sub Format.binary64 x.toModel.unpack y.toModel.unpack))).isNaN = true
  rw [hx, hsub]
  rfl

end Binary64

namespace Box

/-- A corner coordinate that unions choose is that of one of the boxes, and the
first of those that are numbers. -/
theorem foldl_union_first (corner : Box α d → α) {choose : α → α → α} {first : α → α → Prop}
    (h : Coord.Chooses choose first)
    (hunion : ∀ a b : Box α d, corner (a.union b) = choose (corner a) (corner b))
    (b : Box α d) (bs : List (Box α d)) :
    (∃ c ∈ b :: bs, corner (bs.foldl union b) = corner c) ∧
      ∀ c ∈ b :: bs, Coord.isNaN (corner c) = false →
        first (corner (bs.foldl union b)) (corner c) := by
  have hcorner : corner (bs.foldl union b) = (bs.map corner).foldl choose (corner b) := by
    rw [List.foldl_map]
    exact (List.foldl_hom corner fun a c => (hunion a c).symm).symm
  rw [hcorner]
  constructor
  · have hmem := h.foldl_mem (bs.map corner) (corner b)
    rw [← List.map_cons] at hmem
    obtain ⟨c, hc, heq⟩ := List.mem_map.mp hmem
    exact ⟨c, hc, heq.symm⟩
  · intro c hc hnumber
    have hmem := List.mem_map_of_mem (f := corner) hc
    rw [List.map_cons] at hmem
    exact (h.foldl_first _ _ _ hmem hnumber).2

structure Frames (b : Box α d) (points : List (Point α d)) (i : Fin d) : Prop where
  lower : ∃ p ∈ points, b.lower.get i = p.get i
  upper : ∃ p ∈ points, b.upper.get i = p.get i
  between : ∀ p ∈ points, Coord.isNaN (p.get i) = false →
    b.lower.get i ≤ p.get i ∧ p.get i ≤ b.upper.get i

/-- The box of points is that of their numbers. -/
theorem ofPoints_frames [OrderedCoord α] {points : List (Point α d)} {box : Box α d}
    (h : ofPoints points = some box) (i : Fin d) : box.Frames points i := by
  cases points with
  | nil => cases h
  | cons first points =>
    obtain rfl : (points.map ofPoint).foldl union (ofPoint first) = box := Option.some.inj h
    have hlower := foldl_union_first (fun b => b.lower.get i) Coord.lesser_chooses
      (fun a b => lower_union a b i) (ofPoint first) (points.map ofPoint)
    have hupper := foldl_union_first (fun b => b.upper.get i) Coord.greater_chooses
      (fun a b => upper_union a b i) (ofPoint first) (points.map ofPoint)
    rw [← List.map_cons] at hlower hupper
    constructor
    · obtain ⟨b, hb, heq⟩ := hlower.1
      obtain ⟨p, hp, rfl⟩ := List.mem_map.mp hb
      exact ⟨p, hp, heq⟩
    · obtain ⟨b, hb, heq⟩ := hupper.1
      obtain ⟨p, hp, rfl⟩ := List.mem_map.mp hb
      exact ⟨p, hp, heq⟩
    · intro p hp hnumber
      have hbox := List.mem_map_of_mem (f := ofPoint) hp
      exact ⟨hlower.2 _ hbox hnumber, hupper.2 _ hbox hnumber⟩

end Box

def Point.completed (p q : Point α d) : Point α d :=
  Vector.ofFn fun i => if Coord.isNaN (p.get i) then q.get i else p.get i

namespace Box

variable [MonotoneCoord α]

omit [MonotoneCoord α] in
theorem gap_eq (b : Box α d) (p : Point α d) (i : Fin d) : b.gap p i =
    if p.get i < b.lower.get i then b.lower.get i - p.get i
    else if b.upper.get i < p.get i then p.get i - b.upper.get i else Coord.zero := rfl

theorem gap_of_isNaN {b : Box α d} {p : Point α d} {i : Fin d} (h : Coord.isNaN (p.get i) = true) :
    b.gap p i = Coord.zero := by
  have hbelow : ¬ p.get i < b.lower.get i := fun hlt => by
    rw [(MonotoneCoord.numbers_of_lt hlt).1] at h
    cases h
  have habove : ¬ b.upper.get i < p.get i := fun hlt => by
    rw [(MonotoneCoord.numbers_of_lt hlt).2] at h
    cases h
  rw [gap_eq, if_neg hbelow, if_neg habove]

/-- A point sees no gap on the axis of a NaN, as if it were at the other point there. -/
theorem gap_completed (p q : Point α d) (i : Fin d) :
    (ofPoint q).gap (p.completed q) i = (ofPoint q).gap p i := by
  have hcompleted : (p.completed q).get i =
      if Coord.isNaN (p.get i) then q.get i else p.get i := by
    simp [Point.completed]
  have hsame : ¬ q.get i < q.get i := fun hlt =>
    Coord.not_lt_of_le (Coord.le_refl (MonotoneCoord.numbers_of_lt hlt).1) hlt
  cases hp : Coord.isNaN (p.get i) with
  | false =>
    simp only [gap_eq, hcompleted, hp, Bool.false_eq_true, if_false]
  | true =>
    rw [gap_of_isNaN hp, gap_eq, hcompleted, hp, if_pos rfl]
    exact (if_neg hsame).trans (if_neg hsame)

/-- A box with a NaN corner contains nothing. -/
theorem not_contains_of_isNaN {b : Box α d} {i : Fin d} (h : Coord.isNaN (b.lower.get i) = true)
    (p : Point α d) : b.contains p = false := by
  rw [Bool.eq_false_iff]
  intro hcontains
  have haxis := List.all_eq_true.mp hcontains i (List.mem_finRange i)
  simp only [Bool.and_eq_true, decide_eq_true_eq] at haxis
  have hcorner : Coord.isNaN (b.lower.get i) = false := (MonotoneCoord.numbers_of_le haxis.1).1
  rw [h] at hcorner
  cases hcorner

theorem distanceSquared_completed (p q : Point α d) :
    (ofPoint q).distanceSquared (p.completed q) = (ofPoint q).distanceSquared p := by
  simp only [distanceSquared, gap_completed]

end Box

namespace Hierarchy

/-- Points within a radius, in order, whatever their coordinates and the radius are. -/
theorem withinDistance_positions [MonotoneCoord α] {points : List (Point α d)}
    {tree : Hierarchy α Nat d} (hbuild : build (ofPoints points) = .ok tree)
    (hsize : points.length ≤ 2 ^ 64) (hvalid : ∀ p ∈ points, (Box.ofPoint p).isValid = true)
    (center : Point α d) (radius : α) :
    ((tree.withinDistance center radius).mergeSort fun i j => decide (i ≤ j)) =
      positions points fun p =>
        decide ((Box.ofPoint p).distanceSquared center ≤ radius * radius) := by
  have hitems : (ofPoints points).length ≤ 2 ^ 64 := by rwa [length_ofPoints]
  have hboxes : ∀ item ∈ ofPoints points, item.2.isValid = true := by
    intro item hitem
    obtain ⟨⟨p, i⟩, hmem, rfl⟩ := List.mem_map.mp hitem
    exact hvalid p (List.fst_mem_of_mem_zipIdx hmem)
  apply mergeSort_positions
  rw [positions_eq]
  have hfound : (tree.withinDistance center radius).Perm (((ofPoints points).filter fun item =>
      decide (item.2.distanceSquared center ≤ radius * radius)).map (·.1)) := by
    apply collectWhere_perm hbuild hitems (P := fun b => b.isValid = true)
      (fun _ _ => Box.isValid_union) hboxes
    intro c b _ hb hcovers hnear
    rw [decide_eq_true_eq] at hnear ⊢
    exact OrderedCoord.le_trans (hcovers.distanceSquared_mono hb center) hnear
  rw [ofPoints, List.filter_map, List.map_map] at hfound
  exact hfound

end Hierarchy

namespace Gathering

variable (g : Gathering n α) (r : Fin n)

def Knows (i : Fin 3) : Prop := ∃ target ∈ g.targets r, Coord.isNaN (target.2.get i) = false

def inReach (box : Box α 3) : List (Entity α × Point α 3) :=
  (List.finRange n).flatMap fun s => (g.sources s).filter fun source =>
    (box.expanded (Pairing.proximity (g.rule r) ((g.targets r).map (·.1)))).contains source.2

/-- The squared distances between a target and the gathered sources on the axes
on which it has numbers, with the places of the sources. -/
def distances (center : Point α 3) : List (Neighbor α Nat) :=
  (g.centers r).zipIdx.map fun (source, i) =>
    ⟨(Box.ofPoint source).distanceSquared (center.completed source), i⟩

def withinReach (radius : α) (center : Point α 3) : List Nat :=
  ((g.distances r center).filter fun a => decide (a.distance ≤ radius * radius)).map (·.id)

def Chosen (parent : Parent α) : Prop :=
  match g.rule r with
  | .within radius =>
    parent.children = g.withinReach r radius parent.center ∧ parent.radius = radius
  | .nearest count => ∃ ranking : List (Neighbor α Nat),
      ranking.Perm (g.distances r parent.center) ∧ Neighbor.ByDistance ranking ∧
      parent.children = (ranking.take count).map (·.id) ∧
      parent.radius = Cloud.support (ranking.take count)

/-- A pairing of rank `r` to which a coordinate that is a NaN is an unknown one. -/
structure PairsKnown (pairing : Pairing α) : Prop where
  parents : pairing.parents.map (fun parent => (parent.id, parent.center)) =
    (g.targets r).map fun target => (target.1.id, target.2)
  sourceIds : pairing.sourceIds = (g.nearby r).map (·.1.id)
  sourceCenters : pairing.sourceCenters = (g.nearby r).map (·.2)
  framed : (∀ i, g.Knows r i) → ∃ box : Box α 3,
    (∀ i, box.Frames ((g.targets r).map (·.2)) i) ∧ box.Numbers ∧ g.nearby r = g.inReach r box
  unframed : (∃ i, ¬ g.Knows r i) → pairing.sourceCenters = [] ∧
    ∀ parent ∈ pairing.parents, parent.children = []
  chosen : ∀ parent ∈ pairing.parents, g.Chosen r parent

section Chosen

variable [MonotoneCoord α] {g : Gathering n α} {r : Fin n} {tree : Hierarchy α Nat 3}
  (hbuild : Hierarchy.build (Hierarchy.ofPoints (g.centers r)) = .ok tree)
  (hsize : (g.nearby r).length ≤ 2 ^ 64)

theorem distances_eq (center : Point α 3) :
    g.distances r center = Hierarchy.neighbors center (Hierarchy.ofPoints (g.centers r)) := by
  simp only [distances, Box.distanceSquared_completed]
  rw [Hierarchy.neighbors, Hierarchy.ofPoints, List.map_map]
  rfl

include hbuild hsize

theorem held_chosen (target : Entity α × Point α 3) :
    g.Chosen r ((g.held r tree).parent target) := by
  have hcenters : (g.centers r).length ≤ 2 ^ 64 := length_centers_eq.trans_le hsize
  unfold Chosen
  cases hrule : g.rule r with
  | within radius =>
    have hfound := Hierarchy.withinDistance_positions hbuild hcenters centers_valid target.2 radius
    simp only [Pairing.Gathered.parent, Pairing.Gathered.children, held, hrule, and_true]
    rw [hfound, positions_eq, withinReach, distances_eq, Hierarchy.neighbors, Hierarchy.ofPoints,
      List.map_map, List.filter_map, List.map_map]
    rfl
  | nearest count =>
    obtain ⟨ranking, hperm, hranked, hclosest⟩ :=
      Hierarchy.closest_byDistance hbuild hcenters target.2 count
    rw [← distances_eq] at hperm
    simp only [Pairing.Gathered.parent, Pairing.Gathered.children, held, hrule, hclosest]
    refine ⟨ranking, hperm, hranked, rfl, ?_⟩
    rw [Cloud.support]
    cases (ranking.take count).getLast? <;> rfl

end Chosen

section Machine

variable {g : Gathering n Float} {r : Fin n}

/-- A corner with a NaN keeps every source away. -/
theorem nearby_unknown {i : Fin 3} (h : ¬ g.Knows r i) : g.nearby r = [] := by
  rw [List.eq_nil_iff_forall_not_mem]
  intro source hsource
  obtain ⟨-, -, region, hregion, hcontains⟩ := mem_nearby hsource
  obtain ⟨box, hbox, rfl⟩ := Option.map_eq_some_iff.mp hregion
  obtain ⟨p, hp, hlower⟩ := (Box.ofPoints_frames hbox i).lower
  obtain ⟨target, htarget, rfl⟩ := List.mem_map.mp hp
  have hnan : Coord.isNaN (box.lower.get i) = true := by
    rw [hlower, ← Bool.not_eq_false]
    exact fun hnumber => h ⟨target, htarget, hnumber⟩
  have hcorner : Coord.isNaN ((box.expanded
      (Pairing.proximity (g.rule r) ((g.targets r).map (·.1)))).lower.get i) = true := by
    simp only [Box.expanded, Vector.get_eq_getElem, Vector.getElem_ofFn]
    exact Binary64.isNaN_sub hnan _
  rw [Box.not_contains_of_isNaN hcorner] at hcontains
  cases hcontains

theorem nearby_framed (h : ∀ i, g.Knows r i) : ∃ box : Box Float 3,
    (∀ i, box.Frames ((g.targets r).map (·.2)) i) ∧ box.Numbers ∧ g.nearby r = g.inReach r box := by
  have hsome : ((g.targets r).map (·.2)).map Box.ofPoint ≠ [] := by
    obtain ⟨target, htarget, -⟩ := h 0
    simpa using List.ne_nil_of_mem htarget
  obtain ⟨box, hbox⟩ := Box.exists_unionAll hsome
  have hframes : ∀ i, box.Frames ((g.targets r).map (·.2)) i := Box.ofPoints_frames hbox
  refine ⟨box, hframes, fun i => ?_, ?_⟩
  · obtain ⟨target, htarget, hnumber⟩ := h i
    obtain ⟨hlower, hupper⟩ := (hframes i).between _ (List.mem_map_of_mem htarget) hnumber
    exact ⟨(MonotoneCoord.numbers_of_le hlower).1, (MonotoneCoord.numbers_of_le hupper).2⟩
  · have hregion : g.region r = some (box.expanded
        (Pairing.proximity (g.rule r) ((g.targets r).map (·.1)))) := by
      rw [region, Routing.region, Box.ofPoints, hbox]
      rfl
    rw [nearby, hregion]
    rfl

theorem held_pairsKnown {tree : Hierarchy Float Nat 3}
    (hbuild : Hierarchy.build (Hierarchy.ofPoints (g.centers r)) = .ok tree)
    (hsize : (g.nearby r).length ≤ 2 ^ 64) : g.PairsKnown r (g.held r tree).pairing where
  parents := by
    rw [held, Pairing.Gathered.pairing, List.map_map]
    rfl
  sourceIds := g.ids_eq r
  sourceCenters := g.centers_eq r
  framed := nearby_framed
  unframed := by
    rintro ⟨i, hi⟩
    have hnone : g.centers r = [] := by rw [centers_eq, nearby_unknown hi, List.map_nil]
    refine ⟨hnone, fun parent hparent => List.eq_nil_iff_forall_not_mem.mpr fun j hj => ?_⟩
    obtain ⟨target, -, rfl⟩ := List.mem_map.mp hparent
    have hlt := Pairing.Gathered.lt_of_mem_children (g := g.held r tree) hbuild
      (length_centers_eq.trans_le hsize) hj
    change j < (g.centers r).length at hlt
    rw [hnone] at hlt
    exact absurd hlt (Nat.not_lt_zero j)
  chosen := by
    intro parent hparent
    obtain ⟨target, -, rfl⟩ := List.mem_map.mp hparent
    exact held_chosen hbuild hsize target

end Machine

end Gathering

/-- Ranks that build pairings under settings of their own, with targets of which
any coordinate may be a NaN, are served by the exchange however their steps
interleave. No NaN is an error. A rank with room for the neighbours it asks for
ends with a pairing to which it is an unknown coordinate: a target pairs by the
others with what the rank gathers, and that is nothing if all targets of the
rank have a NaN on one axis. -/
theorem targets_pair_by_known_axes (configs : Fin n → PairingConfig Float)
    (clouds : Fin n → Cloud Float) (rules : Fin n → PairingRule Float)
    (h : Cloud.Ready configs clouds rules) (leaves : Fin n → Bool) :
    ∃ (letters : Fin n → Fin n → List Envelope)
      (final : Network n (Except (SearchError Float) (Pairing Float))),
      (Network.start fun r => (Pairing.build r (configs r) (clouds r).domain (clouds r).domainMap
        (clouds r).range (clouds r).rangeMap).run.bind (Proc.ending (leaves r))).Settles
          letters final ∧
      (∀ s d, final.channel s d = []) ∧
      ∀ r, ((Cloud.gathering configs clouds rules).Roomy r → ∃ pairing,
          final.programs.get r = .done (.ok pairing) ∧
          (Cloud.gathering configs clouds rules).PairsKnown r pairing) ∧
        (¬ (Cloud.gathering configs clouds rules).Roomy r → final.programs.get r = .abort) := by
  obtain ⟨trees, letters, final, hbuild, hsettles, hempty, hends⟩ :=
    h.settles Binary64.roundTrips leaves
  refine ⟨letters, final, hsettles, hempty, fun r => ⟨fun hroom => ?_,
    fun hroom => ((hends r).breaksOff hroom).2⟩⟩
  exact ⟨_, ((hends r).done hroom).2,
    Gathering.held_pairsKnown (hbuild r) (h.fewGathered r).le⟩

theorem ofRadius_one : (PairingConfig.ofRadius (1 : Float)).validate = .ok (.within 1) := by
  have hradius : (Coord.isFinite (1 : Float) && decide (Coord.zero ≤ (1 : Float))) = true := by
    decide +kernel
  exact if_pos (e := Except.error (.radius 1)) hradius

/-- Two sources, and targets without a first coordinate: one on its own, and one
beside a target at the first source. -/
def halfKnown (r : Fin 2) : Cloud Float where
  domain := if r.val = 0 then
      [.ofPoint 1 0 (onAxis 0) false,
        .ofPoint 2 0 (Vector.ofFn fun i => if i.val = 2 then 0 else 0.9) false]
    else []
  domainMap := .basic
  range := if r.val = 0 then [.ofPoint 5 0 (onAxis Float.nan) false] else
    [.ofPoint 7 1 (onAxis Float.nan) false, .ofPoint 8 1 (onAxis 0) false]
  rangeMap := .basic

theorem targets_pair_beside_number :
    Cloud.Ready (fun _ => .ofRadius 1) halfKnown (fun _ => .within 1) ∧
    ∃ letters final, ∃ pairings : Fin 2 → Pairing Float,
      (Network.start fun r => (Pairing.build r (.ofRadius 1) (halfKnown r).domain
        (halfKnown r).domainMap (halfKnown r).range (halfKnown r).rangeMap).run.bind
          (Proc.ending true)).Settles letters final ∧
      (∀ r, final.programs.get r = .done (.ok (pairings r))) ∧
      (pairings 0).parents.map (·.id) = [5] ∧
      (∀ parent ∈ (pairings 0).parents, parent.children = []) ∧
      (pairings 1).parents.map (fun parent => (parent.id, parent.children)) =
        [(7, [0, 1]), (8, [0])] := by
  have hready : Cloud.Ready (fun _ => .ofRadius 1) halfKnown (fun _ => .within 1) := by
    constructor
    · exact fun _ => ofRadius_one
    · exact fun s e _ => ⟨_, rfl⟩
    · exact fun r e _ => ⟨_, rfl⟩
    · decide +kernel
    · decide +kernel
  obtain ⟨letters, final, hsettles, -, hends⟩ :=
    targets_pair_by_known_axes (fun _ => .ofRadius 1) halfKnown (fun _ => .within 1) hready
      fun _ => true
  choose pairings hdone hpairs using fun r => (hends r).1 nofun
  refine ⟨hready, letters, final, pairings, hsettles, hdone, ?_, ?_, ?_⟩
  · have hids := congrArg (List.map Prod.fst) (hpairs 0).parents
    rw [List.map_map] at hids
    exact hids.trans rfl
  · have hunknown : ∀ target ∈ (Cloud.gathering (fun _ => .ofRadius 1) halfKnown
        fun _ => .within 1).targets 0, Coord.isNaN (target.2.get 0) = true := by
      decide +kernel
    refine ((hpairs 0).unframed ⟨0, ?_⟩).2
    rintro ⟨target, htarget, hnumber⟩
    rw [hunknown target htarget] at hnumber
    cases hnumber
  · have hchildren : ∀ parent ∈ (pairings 1).parents, (parent.id, parent.children) =
        (parent.id, (Cloud.gathering (fun _ => .ofRadius 1) halfKnown
          fun _ => .within 1).withinReach 1 1 parent.center) :=
      fun parent hparent => congrArg (parent.id, ·) ((hpairs 1).chosen parent hparent).1
    have hparents := congrArg (List.map fun parent => (parent.1, (Cloud.gathering
      (fun _ => .ofRadius 1) halfKnown fun _ => .within 1).withinReach 1 1 parent.2))
      (hpairs 1).parents
    rw [List.map_map] at hparents
    exact (List.map_congr_left hchildren).trans (hparents.trans (by decide +kernel))

/-- One source, and on the other rank two targets in the same place, of which
one has a NaN for its first coordinate. -/
def strayTarget (r : Fin 2) : Cloud Float where
  domain := if r.val = 0 then [.ofPoint 1 0 (onAxis 0) false] else []
  domainMap := .basic
  range := if r.val = 0 then [] else
    [.ofPoint 2 1 (onAxis Float.nan) false, .ofPoint 3 1 (onAxis 0) false]
  rangeMap := .basic

/-- A target with a NaN is neither refused nor left alone. -/
theorem malformed_target_paired :
    (PairingConfig.ofRadius (1 : Float)).validate = .ok (.within 1) ∧
    ∃ letters final, ∃ pairing : Pairing Float,
      (Network.start fun r => (Pairing.build r (.ofRadius 1) (strayTarget r).domain
        (strayTarget r).domainMap (strayTarget r).range (strayTarget r).rangeMap).run.bind
          (Proc.ending true)).Settles letters final ∧
      final.programs.get 1 = .done (.ok pairing) ∧ pairing.sourceIds = [1] ∧
      ∃ parent ∈ pairing.parents, parent.id = 2 ∧
        Coord.isNaN (parent.center.get 0) = true ∧ parent.children = [0] := by
  have hready : Cloud.Ready (fun _ => .ofRadius 1) strayTarget (fun _ => .within 1) := by
    constructor
    · exact fun _ => ofRadius_one
    · exact fun s e _ => ⟨_, rfl⟩
    · exact fun r e _ => ⟨_, rfl⟩
    · decide +kernel
    · decide +kernel
  obtain ⟨trees, letters, final, hbuild, hsettles, -, hends⟩ :=
    hready.settles Binary64.roundTrips fun _ => true
  have hpairs := Gathering.held_pairsKnown (hbuild 1) (hready.fewGathered 1).le
  refine ⟨ofRadius_one, letters, final, _, hsettles, ((hends 1).done nofun).2, ?_, ?_⟩
  · rw [hpairs.sourceIds]
    decide +kernel
  · have hfound : (Cloud.gathering (fun _ => .ofRadius 1) strayTarget
        fun _ => .within 1).withinReach 1 1 (onAxis Float.nan) = [0] := by
      decide +kernel
    have hnan : Coord.isNaN ((onAxis Float.nan).get 0) = true := by decide +kernel
    exact ⟨_, List.mem_map_of_mem List.mem_cons_self, rfl, hnan,
      (hpairs.chosen _ (List.mem_map_of_mem List.mem_cons_self)).1.trans hfound⟩

end Vicinity
