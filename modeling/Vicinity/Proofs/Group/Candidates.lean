import Mathlib
import Vicinity.Proofs.Coord.Float
import Vicinity.Proofs.Group.Departure
import Vicinity.Proofs.Group.Routing
import Vicinity.Proofs.Positions

/-!
# Candidates

Items routed by boxes come to exactly the ranks whose box concerns them, by
source and in the order of the source. All payloads of one routing come in this
order, so that what comes at one place in two of them belongs to one item.
-/

set_option autoImplicit false

namespace Vicinity

variable {n : Nat}

namespace Routing

variable {ι τ : Type}

def origins (items : Fin n → List ι) (concerns : Fin n → ι → Fin n → Bool) (r : Fin n) :
    List (Fin n × Nat) :=
  (List.finRange n).flatMap fun s =>
    (positions (items s) fun item => concerns s item r).map fun i => (s, i)

def carried (origins : List (Fin n × Nat)) (values : Fin n → List τ) : List τ :=
  origins.filterMap fun origin => (values origin.1)[origin.2]?

theorem nodup_flatMap_sources {positions : Fin n → List Nat} (h : ∀ s, (positions s).Nodup) :
    ((List.finRange n).flatMap fun s => (positions s).map fun i => (s, i)).Nodup := by
  apply List.nodup_flatMap.mpr
  constructor
  · intro s _
    exact (h s).map fun i j hij => congrArg Prod.snd hij
  · apply (List.nodup_finRange n).imp
    intro s s' hne origin hs hs'
    obtain ⟨i, -, rfl⟩ := List.mem_map.mp hs
    obtain ⟨j, -, hj⟩ := List.mem_map.mp hs'
    exact hne (congrArg Prod.fst hj).symm

theorem carried_origins (items : Fin n → List ι) (concerns : Fin n → ι → Fin n → Bool)
    (values : Fin n → List τ) (r : Fin n) : carried (origins items concerns r) values =
      (List.finRange n).flatMap fun s =>
        (positions (items s) fun item => concerns s item r).filterMap fun i => (values s)[i]? := by
  simp only [carried, origins, List.filterMap_flatMap, List.filterMap_map, Function.comp_def]

/-- What comes at one place belongs to the item at this place among the origins. -/
theorem carried_aligned {items : Fin n → List ι} {values : Fin n → List τ}
    (hlength : ∀ s, (values s).length = (items s).length)
    (concerns : Fin n → ι → Fin n → Bool) (r : Fin n) :
    (carried (origins items concerns r) values).map some =
      (origins items concerns r).map fun origin => (values origin.1)[origin.2]? := by
  rw [carried_origins, origins, List.map_flatMap, List.map_flatMap]
  apply List.flatMap_congr
  intro s _
  rw [positions_aligned _ _ (hlength s), List.map_map]
  rfl

theorem origins_sources {items : Fin n → List ι} {values : Fin n → List τ}
    (hlength : ∀ s, (values s).length = (items s).length)
    (concerns : Fin n → ι → Fin n → Bool) (r : Fin n) :
    (origins items concerns r).map (·.1) = (List.finRange n).flatMap fun s =>
      ((positions (items s) fun item => concerns s item r).filterMap
        fun i => (values s)[i]?).map fun _ => s := by
  rw [origins, List.map_flatMap]
  apply List.flatMap_congr
  intro s _
  have hcount := congrArg List.length
    (positions_aligned (items s) (fun item => concerns s item r) (hlength s))
  simp only [List.length_map] at hcount
  rw [List.map_const', hcount, List.map_map]
  exact List.map_const' ..

/-- What comes with the source of each. -/
theorem carried_zip {items : Fin n → List ι} {values : Fin n → List τ}
    (hlength : ∀ s, (values s).length = (items s).length)
    (concerns : Fin n → ι → Fin n → Bool) (r : Fin n) :
    (carried (origins items concerns r) values).zip ((origins items concerns r).map (·.1)) =
      (List.finRange n).flatMap fun s => ((positions (items s) fun item => concerns s item r).filterMap
        fun i => (values s)[i]?).map fun value => (value, s) := by
  rw [carried_origins, origins_sources hlength, Plan.zip_flatMap]

/-- Where items are routed by a part of them, another part comes along. -/
theorem carried_map {σ : Type} (items : Fin n → List σ) (key : σ → ι) (value : σ → τ)
    (concerns : Fin n → ι → Fin n → Bool) (r : Fin n) :
    carried (origins (fun s => (items s).map key) concerns r) (fun s => (items s).map value) =
      (List.finRange n).flatMap fun s =>
        ((items s).filter fun item => concerns s (key item) r).map value := by
  rw [carried_origins]
  apply List.flatMap_congr
  intro s _
  rw [positions_map, ← positions_items, List.map_filterMap]
  simp only [List.getElem?_map]

/-- Routings along which any payload comes in one order. -/
structure Exact (routings : Fin n → Routing n) (count : Fin n → Nat)
    (origins : Fin n → List (Fin n × Nat)) : Prop where
  importRanks : ∀ r, (routings r).importRanks = (origins r).map (·.1)
  distributes : ∀ (τ : Type) [Codec τ] (values : Fin n → List τ),
    (∀ r, (values r).length = count r) →
    (∀ r, ∀ value ∈ values r, Codec.RoundTrips value) →
    Routine.Finishes (fun r => (routings r).distribute (values r)) fun r =>
      carried (origins r) values

/-- The items among those that concern a rank that pass a further test. -/
theorem origins_filter (items : Fin n → List ι) (concerns : Fin n → ι → Fin n → Bool)
    (test : ι → Bool) (r : Fin n) :
    ((origins items concerns r).filter fun origin => (items origin.1)[origin.2]?.any test) =
      origins items (fun s item r => concerns s item r && test item) r := by
  simp only [origins, List.filter_flatMap, List.filter_map, positions, List.filter_filter]
  apply List.flatMap_congr
  intro s _
  apply congrArg
  apply List.filter_congr
  intro i hi
  simp [List.getElem?_eq_getElem (List.mem_range.mp hi), Bool.and_comm]

theorem origins_congr {items : Fin n → List ι} {concerns concerns' : Fin n → ι → Fin n → Bool}
    {r : Fin n} (h : ∀ s, ∀ item ∈ items s, concerns s item r = concerns' s item r) :
    origins items concerns r = origins items concerns' r := by
  apply List.flatMap_congr
  intro s _
  apply congrArg
  apply List.filter_congr
  intro i hi
  have hlt := List.mem_range.mp hi
  simp [List.getElem?_eq_getElem hlt, h s _ (List.getElem_mem hlt)]

section Carry

variable {B : Type} {T : B → Type} [(b : B) → Codec (T b)]

def carry (routing : Routing n) (payloads : List ((b : B) × List (T b))) :
    Routine n CommError (List ((b : B) × List (T b))) :=
  payloads.mapM fun payload => Sigma.mk payload.1 <$> routing.distribute payload.2

theorem Exact.carries {routings : Fin n → Routing n} {count : Fin n → Nat}
    {origins : Fin n → List (Fin n × Nat)} (h : Exact routings count origins)
    {payloads : List ((b : B) × (Fin n → List (T b)))}
    (hlength : ∀ payload ∈ payloads, ∀ r, (payload.2 r).length = count r)
    (hcodec : ∀ payload ∈ payloads, ∀ r, ∀ value ∈ payload.2 r, Codec.RoundTrips value) :
    Routine.Finishes
      (fun r => (routings r).carry (payloads.map fun payload => ⟨payload.1, payload.2 r⟩))
      fun r => payloads.map fun payload => ⟨payload.1, carried (origins r) payload.2⟩ := by
  have hall := Routine.Finishes.mapM payloads fun payload hpayload =>
    (h.distributes _ payload.2 (hlength payload hpayload) (hcodec payload hpayload)).map
      fun _ values => (⟨payload.1, values⟩ : (b : B) × List (T b))
  simp only [carry, List.mapM_map]
  exact hall

end Carry

section Routes

variable {items : Fin n → List ι} {dests : Fin n → ι → List Nat}
  {concerns : Fin n → ι → Fin n → Bool} (hnodup : ∀ s item, (dests s item).Nodup)
  (hconcerns : ∀ s item (r : Fin n), decide (r.val ∈ dests s item) = concerns s item r)

include hnodup hconcerns

theorem flatMap_received {values : Fin n → List τ}
    (hlength : ∀ s, (values s).length = (items s).length) (r : Fin n) :
    ((List.finRange n).flatMap fun s => received (items s) (dests s) (values s) r) =
      carried (origins items concerns r) values := by
  rw [carried_origins]
  apply List.flatMap_congr
  intro s _
  simp only [received_of_nodup (hnodup s), hconcerns]
  rw [positions_values _ _ (hlength s)]

theorem flatMap_received_sources (r : Fin n) :
    ((List.finRange n).flatMap fun s =>
      (received (items s) (dests s) (items s) r).map fun _ => s) =
        (origins items concerns r).map (·.1) := by
  have hlength : ∀ s, (items s).length = (items s).length := fun _ => rfl
  rw [origins_sources hlength]
  apply List.flatMap_congr
  intro s _
  simp only [received_of_nodup (hnodup s), hconcerns]
  rw [positions_values _ _ rfl]

theorem build_exact (hbound : ∀ s item, ∀ dest ∈ dests s item, dest < n)
    (hsmall : ∀ s, (items s).length < UInt64.size) : ∃ routings : Fin n → Routing n,
      Routine.Finishes (fun r => build r (items r) (dests r)) routings ∧
      Exact routings (fun r => (items r).length) (origins items concerns) := by
  have hranks : ∀ r, ∀ dest ∈ (items r).flatMap (dests r), dest < n := by
    intro r dest hdest
    obtain ⟨item, -, hmem⟩ := List.mem_flatMap.mp hdest
    exact hbound r item dest hmem
  obtain ⟨targets, htargets⟩ := exists_targets hranks
  have hcount : ∀ s d, (targets s).count d < UInt64.size := by
    intro s d
    rw [← Plan.count_map_val, congrFun htargets s]
    exact (count_flatMap_le (hnodup s) (items s) d).trans_lt (hsmall s)
  refine ⟨_, ⟨_, build_completes (congrFun htargets) hcount⟩, ?_, ?_⟩
  · intro r
    have hlength : ∀ s, (items s).length = (items s).length := fun _ => rfl
    rw [built_importRanks (congrFun htargets) hlength]
    exact flatMap_received_sources hnodup hconcerns r
  · intro τ _ values hlength hcodec
    have hdistribute := distribute_completes (congrFun htargets) hlength hcodec hcount
    simp only [flatMap_received hnodup hconcerns hlength] at hdistribute
    exact hdistribute

end Routes

variable {α : Type}

/-- Items are routed to the ranks whose box passes a test with them. -/
theorem ranksWhere_exact {items : Fin n → List ι} (boxes : Fin n → Fin n → Option (Box α 3))
    (test : ι → Box α 3 → Bool) (hsmall : ∀ s, (items s).length < UInt64.size) :
    ∃ routings : Fin n → Routing n,
      Routine.Finishes (fun r => build r (items r) fun item =>
        ranksWhere ((List.finRange n).map (boxes r)) (test item)) routings ∧
      Exact routings (fun r => (items r).length)
        (origins items fun s item r => (boxes s r).any (test item)) := by
  apply build_exact (fun _ _ => nodup_ranksWhere _ _) (fun _ _ _ => decide_mem_ranksWhere _)
    ?_ hsmall
  intro s item dest hdest
  obtain ⟨r, rfl, -⟩ := mem_ranksWhere_finRange.mp hdest
  exact r.isLt

variable [Coord α]

def region (targets : List (Point α 3)) (proximity : α) : Option (Box α 3) :=
  (Box.ofPoints targets).map fun box => box.expanded proximity

variable [Codec α]

theorem towardTargets_exact {sources targets : Fin n → List (Point α 3)} {proximity : Fin n → α}
    (hregions : ∀ r, Codec.RoundTrips (region (targets r) (proximity r)))
    (hsmall : ∀ s, (sources s).length < UInt64.size) : ∃ routings : Fin n → Routing n,
      Routine.Finishes (fun r => towardTargets r (sources r) (targets r) (proximity r)) routings ∧
      Exact routings (fun r => (sources r).length)
        (origins sources fun _ source r =>
          (region (targets r) (proximity r)).any fun box => box.contains source) := by
  obtain ⟨routings, hroute, hexact⟩ := ranksWhere_exact
    (fun _ r => region (targets r) (proximity r))
    (fun source box => box.contains source) hsmall
  have hgather : Routine.Finishes
      (fun r => gatherBoxes r (region (targets r) (proximity r)))
      fun _ => (List.finRange n).map fun r => region (targets r) (proximity r) :=
    ⟨_, Routine.allGather_completes hregions⟩
  exact ⟨routings, hgather.bind hroute, hexact⟩

theorem ofCenters_exact {sources targets : Fin n → List (Point α 3)} {proximity : Fin n → α}
    (hregions : ∀ r, Codec.RoundTrips (region (targets r) (proximity r)))
    (hsources : ∀ r, ∀ source ∈ sources r, Codec.RoundTrips source)
    (hsmall : ∀ s, (sources s).length < UInt64.size) : ∃ routings : Fin n → Routing n,
      Routine.Finishes (fun r => ofCenters r (sources r) (targets r) (proximity r))
        (fun r => (routings r, carried (origins sources (fun _ source r =>
          (region (targets r) (proximity r)).any fun box => box.contains source) r) sources)) ∧
      Exact routings (fun r => (sources r).length)
        (origins sources fun _ source r =>
          (region (targets r) (proximity r)).any fun box => box.contains source) := by
  obtain ⟨routings, hroute, hexact⟩ := towardTargets_exact hregions hsmall
  have hcenters := hexact.distributes _ sources (fun _ => rfl) hsources
  exact ⟨routings, hroute.bind (hcenters.bind (Routine.Finishes.pure _)), hexact⟩

end Routing

/-- One routing as the whole group builds it: of query boxes to the ranks whose
box meets them, where every rank has its own list of the boxes of all, or of
points to the ranks that have targets near them. -/
inductive Candidates (n : Nat) (α : Type) where
  | byBoxes (queries : Fin n → List (Box α 3)) (peers : Fin n → Fin n → Option (Box α 3))
  | byCenters (sources targets : Fin n → List (Point α 3)) (proximity : Fin n → α)

namespace Candidates

variable {α : Type}

def count : Candidates n α → Fin n → Nat
  | byBoxes queries _, r => (queries r).length
  | byCenters sources _ _, r => (sources r).length

variable [Coord α]

def origins : Candidates n α → Fin n → List (Fin n × Nat)
  | byBoxes queries peers => Routing.origins queries fun s query r =>
      (peers s r).any fun peer => peer.meets query
  | byCenters sources targets proximity => Routing.origins sources fun _ source r =>
      (Routing.region (targets r) (proximity r)).any fun region => region.contains source

def centers (c : Candidates n α) (r : Fin n) : Option (List (Point α 3)) :=
  match c with
  | byBoxes _ _ => none
  | byCenters sources _ _ => some (Routing.carried (c.origins r) sources)

variable [Codec α]

def route (me : Fin n) :
    Candidates n α → Routine n CommError (Routing n × Option (List (Point α 3)))
  | byBoxes queries peers => (fun routing => (routing, none)) <$>
      Routing.ofQueryBoxes me (queries me) ((List.finRange n).map (peers me))
  | byCenters sources targets proximity => (fun opened => (opened.1, some opened.2)) <$>
      Routing.ofCenters me (sources me) (targets me) (proximity me)

variable {B : Type} {T : B → Type} [(b : B) → Codec (T b)]

def exchange (me : Fin n) (c : Candidates n α) (payloads : List ((b : B) × (Fin n → List (T b)))) :
    Routine n CommError
      ((Routing n × Option (List (Point α 3))) × List ((b : B) × List (T b))) := do
  let opened ← c.route me
  (fun imports => (opened, imports)) <$>
    opened.1.carry (payloads.map fun payload => ⟨payload.1, payload.2 me⟩)

theorem route_exact (hcodec : ∀ x : α, Codec.RoundTrips x) (c : Candidates n α)
    (hsmall : ∀ r, c.count r < UInt64.size) : ∃ routings : Fin n → Routing n,
      Routine.Finishes (fun r => c.route r) (fun r => (routings r, c.centers r)) ∧
      Routing.Exact routings c.count c.origins := by
  cases c with
  | byBoxes queries peers =>
    obtain ⟨routings, hroute, hexact⟩ := Routing.ranksWhere_exact peers
      (fun query peer => peer.meets query) hsmall
    exact ⟨routings, hroute.map fun _ routing => (routing, none), hexact⟩
  | byCenters sources targets proximity =>
    have hregion : ∀ r, Codec.RoundTrips (Routing.region (targets r) (proximity r)) := fun _ =>
      Codec.roundTrips_anyOption (Codec.roundTrips_anyBox hcodec) _
    obtain ⟨routings, hroute, hexact⟩ :=
      Routing.ofCenters_exact hregion
        (fun _ source _ => Codec.roundTrips_anyVector hcodec source) hsmall
    exact ⟨routings, hroute.map fun _ opened => (opened.1, some opened.2), hexact⟩

theorem exchange_finishes {c : Candidates n α} {routings : Fin n → Routing n}
    {payloads : List ((b : B) × (Fin n → List (T b)))}
    (hroute : Routine.Finishes (fun r => c.route r) fun r => (routings r, c.centers r))
    (hexact : Routing.Exact routings c.count c.origins)
    (hlength : ∀ payload ∈ payloads, ∀ r, (payload.2 r).length = c.count r)
    (hcodec : ∀ payload ∈ payloads, ∀ r, ∀ value ∈ payload.2 r, Codec.RoundTrips value) :
    Routine.Finishes (fun r => c.exchange r payloads) fun r => ((routings r, c.centers r),
      payloads.map fun payload => ⟨payload.1, Routing.carried (c.origins r) payload.2⟩) := by
  have himports := (hexact.carries hlength hcodec).map
    fun r imports => ((routings r, c.centers r), imports)
  exact hroute.bind himports

omit [Codec α] in
theorem aligned {τ : Type} (c : Candidates n α) {values : Fin n → List τ}
    (hlength : ∀ s, (values s).length = c.count s) (r : Fin n) :
    (Routing.carried (c.origins r) values).map some =
      (c.origins r).map fun origin => (values origin.1)[origin.2]? := by
  cases c with
  | byBoxes queries peers =>
    rw [origins]
    exact Routing.carried_aligned hlength _ r
  | byCenters sources targets proximity =>
    rw [origins]
    exact Routing.carried_aligned hlength _ r

end Candidates

/-- Ranks that route their items and carry any number of payloads along do so
without a failure however their steps interleave, whether a rank stays at its
end or leaves. A rank receives exactly what belongs to the items that concern
it, by source and by position there, in every payload alike and among the
points that come with the routing; the import ranks name the sources. -/
theorem candidates_arrive {B : Type} {T : B → Type} [(b : B) → Codec (T b)]
    (c : Candidates n Float) (payloads : List ((b : B) × (Fin n → List (T b))))
    (hlength : ∀ payload ∈ payloads, ∀ r, (payload.2 r).length = c.count r)
    (hcodec : ∀ payload ∈ payloads, ∀ r, ∀ value ∈ payload.2 r, Codec.RoundTrips value)
    (hsmall : ∀ r, c.count r < UInt64.size) (leaves : Fin n → Bool) :
    ∃ (letters : Fin n → Fin n → List Envelope) (final : Network n (Except CommError
        ((Routing n × Option (List (Point Float 3))) × List ((b : B) × List (T b)))))
      (routings : Fin n → Routing n),
      (Network.start fun r => (c.exchange r payloads).run.bind (Proc.ending (leaves r))).Settles
        letters final ∧
      (∀ r, final.left.get r = leaves r) ∧
      (∀ s d, final.channel s d = []) ∧
      (∀ r, final.programs.get r = .done (.ok ((routings r, c.centers r),
        payloads.map fun payload => ⟨payload.1, Routing.carried (c.origins r) payload.2⟩))) ∧
      (∀ r, (routings r).importRanks = (c.origins r).map (·.1)) ∧
      ∀ (τ : Type) (values : Fin n → List τ), (∀ s, (values s).length = c.count s) → ∀ r,
        (Routing.carried (c.origins r) values).map some =
          (c.origins r).map fun origin => (values origin.1)[origin.2]? := by
  obtain ⟨routings, hroute, hexact⟩ := c.route_exact Binary64.roundTrips hsmall
  obtain ⟨letters, hall⟩ := Candidates.exchange_finishes hroute hexact hlength hcodec
  obtain ⟨final, hsettles, hleft, hempty, hdone⟩ := hall.settles_ending leaves
  exact ⟨letters, final, routings, hsettles, hleft, hempty, hdone, hexact.importRanks,
    fun τ values hlength r => c.aligned hlength r⟩

def farAndNearPoints (r : Fin 2) : List (Point Float 3) :=
  if r.val = 0 then [#v[9, 9, 9], #v[2, 0, 0]] else []

/-- Two points of the first rank, of which one is near the target of the second. -/
def farAndNear : Candidates 2 Float :=
  .byCenters farAndNearPoints (fun r => if r.val = 0 then [] else [#v[1, 0, 0]]) fun _ => 1

def farAndNearWords (r : Fin 2) : List UInt64 := if r.val = 0 then [7, 8] else []

theorem candidates_arrive_near : (∀ r, (farAndNearWords r).length = farAndNear.count r) ∧
    (∀ r, farAndNear.count r < UInt64.size) ∧
    ∃ letters final, ∃ routings : Fin 2 → Routing 2,
      (Network.start fun r => (farAndNear.exchange (T := fun _ : Unit => UInt64) r
        [⟨(), farAndNearWords⟩]).run.bind (Proc.ending (r = 0))).Settles letters final ∧
      final.programs.get 0 = .done (.ok ((routings 0, some []), [⟨(), []⟩])) ∧
      final.programs.get 1 = .done (.ok ((routings 1, some [#v[2, 0, 0]]), [⟨(), [8]⟩])) ∧
      (routings 1).importRanks = [0] := by
  have hlength : ∀ r, (farAndNearWords r).length = farAndNear.count r := by decide
  have hsmall : ∀ r, farAndNear.count r < UInt64.size := by decide
  have hcenters : ∀ r, farAndNear.centers r =
      some (Routing.carried (farAndNear.origins r) farAndNearPoints) := fun _ => rfl
  have hfirst : farAndNear.origins 0 = [] := by decide +kernel
  have hsecond : farAndNear.origins 1 = [(0, 1)] := by decide +kernel
  obtain ⟨letters, final, routings, hsettles, -, -, hdone, hranks, -⟩ :=
    candidates_arrive (T := fun _ : Unit => UInt64) farAndNear [⟨(), farAndNearWords⟩]
      (by simpa using hlength) (fun _ _ _ value _ => Codec.roundTrips_word value) hsmall
      fun r => r = 0
  refine ⟨hlength, hsmall, letters, final, routings, hsettles, ?_, ?_, ?_⟩
  · rw [hdone, hcenters, hfirst]
    rfl
  · rw [hdone, hcenters, hsecond]
    rfl
  · rw [hranks, hsecond]
    rfl

end Vicinity
