import Mathlib
import Vicinity.Group.Routing
import Vicinity.Proofs.Group.Delivery

/-!
# Delivery along a routing

A routing is a plan over pairs of an item and a destination, in item order. A
rank receives the value of an item once for each time that the item is routed
to it, so an item that a rank's box meets comes to that rank once.
-/

set_option autoImplicit false

namespace Vicinity.Routing

variable {n : Nat} {ι τ : Type}

def pairs (items : List ι) (dests : ι → List Nat) : List (Nat × Nat) :=
  items.zipIdx.flatMap fun (item, i) => (dests item).map fun dest => (i, dest)

def received (items : List ι) (dests : ι → List Nat) (values : List τ) (r : Nat) : List τ :=
  (items.zip values).flatMap fun item => List.replicate ((dests item.1).count r) item.2

theorem pairs_dests (items : List ι) (dests : ι → List Nat) :
    (pairs items dests).map (·.2) = items.flatMap dests := by
  rw [pairs, List.map_flatMap]
  conv_rhs => rw [← List.zipIdx_map_fst 0 items, List.flatMap_map]
  apply List.flatMap_congr
  intro item _
  simp

theorem pairs_values {items : List ι} (dests : ι → List Nat) {values stored : List τ} {k : Nat}
    (hlength : values.length = items.length) (hstored : stored.drop k = values) :
    ((((items.zipIdx k).flatMap fun (item, i) => (dests item).map fun dest => (i, dest)).map
      (·.1)).filterMap fun i => stored[i]?) =
        (items.zip values).flatMap fun item => (dests item.1).map fun _ => item.2 := by
  induction items generalizing values k with
  | nil => rfl
  | cons item items ih =>
    obtain ⟨value, rest, rfl⟩ := List.exists_cons_of_length_eq_add_one hlength
    obtain ⟨hk, hdrop⟩ := drop_eq_cons hstored
    have hfirst : ((dests item).map fun _ => k).filterMap (fun i => stored[i]?) =
        (dests item).map fun _ => value := by
      rw [List.filterMap_map, ← List.filterMap_eq_map]
      apply List.filterMap_congr
      intro dest _
      exact hk
    rw [List.zipIdx_cons, List.flatMap_cons, List.map_append, List.filterMap_append,
      ih (by simpa using hlength) hdrop, List.zip_cons_cons, List.flatMap_cons, ← hfirst]
    simp

theorem addressed_pairs {items : List ι} (dests : ι → List Nat) {values : List τ}
    (hlength : values.length = items.length) (r : Nat) :
    addressed (items.flatMap dests)
      ((items.zip values).flatMap fun item => (dests item.1).map fun _ => item.2) r =
        received items dests values r := by
  induction items generalizing values with
  | nil => rfl
  | cons item items ih =>
    obtain ⟨value, rest, rfl⟩ := List.exists_cons_of_length_eq_add_one hlength
    rw [List.flatMap_cons, List.zip_cons_cons, List.flatMap_cons,
      addressed_append (by rw [List.length_map]), addressed_const, ih (by simpa using hlength)]
    rfl

theorem length_pairs_values {items : List ι} (dests : ι → List Nat) {values : List τ}
    (hlength : values.length = items.length) :
    ((items.zip values).flatMap fun item => (dests item.1).map fun _ => item.2).length =
      (items.flatMap dests).length := by
  induction items generalizing values with
  | nil => rfl
  | cons item items ih =>
    obtain ⟨value, rest, rfl⟩ := List.exists_cons_of_length_eq_add_one hlength
    rw [List.zip_cons_cons, List.flatMap_cons, List.flatMap_cons, List.length_append,
      List.length_append, ih (by simpa using hlength), List.length_map]

/-- An item routed to distinct ranks comes to each of them once. -/
theorem received_of_nodup {dests : ι → List Nat} (hnodup : ∀ item, (dests item).Nodup)
    (items : List ι) (values : List τ) (r : Nat) : received items dests values r =
      ((items.zip values).filter fun item => r ∈ dests item.1).map (·.2) := by
  rw [received]
  induction items.zip values with
  | nil => rfl
  | cons item rest ih =>
    rw [List.flatMap_cons, ih]
    by_cases hr : r ∈ dests item.1
    · rw [List.count_eq_one_of_mem (hnodup _) hr, List.filter_cons_of_pos (by simpa using hr)]
      rfl
    · rw [List.count_eq_zero_of_not_mem hr, List.filter_cons_of_neg (by simpa using hr)]
      rfl

theorem count_flatMap_le {dests : ι → List Nat} (hnodup : ∀ item, (dests item).Nodup)
    (items : List ι) (r : Nat) : (items.flatMap dests).count r ≤ items.length := by
  induction items with
  | nil => simp
  | cons item items ih =>
    rw [List.flatMap_cons, List.count_append, List.length_cons]
    have hitem := List.nodup_iff_count_le_one.mp (hnodup item) r
    omega

section Completes

variable {items : Fin n → List ι} {dests : Fin n → ι → List Nat}
  {targets : Fin n → List (Fin n)}

def built (items : Fin n → List ι) (dests : Fin n → ι → List Nat)
    (targets : Fin n → List (Fin n)) (r : Fin n) : Routing n where
  plan := Plan.built targets r
  exports := (pairs (items r) (dests r)).map (·.1)
  numItems := (items r).length

theorem build_completes (htargets : ∀ r, (targets r).map Fin.val = (items r).flatMap (dests r))
    (hsmall : ∀ s d, (targets s).count d < UInt64.size) :
    Routine.Completes (fun r => build r (items r) (dests r))
      (fun s d => if s = d then [] else [Routine.valueLetter Tag.counts ((targets s).count d)])
      (built items dests targets) := by
  have hplan := (Plan.build_completes hsmall).map fun r plan =>
    (⟨plan, (pairs (items r) (dests r)).map (·.1), (items r).length⟩ : Routing n)
  apply hplan.congr
  · intro r
    rw [htargets r, ← pairs_dests, ← bind_pure_comp]
    rfl
  · intro s d
    rfl
  · intro r
    rfl

variable {values : Fin n → List τ}

theorem built_importRanks (htargets : ∀ r, (targets r).map Fin.val = (items r).flatMap (dests r))
    (hlength : ∀ r, (values r).length = (items r).length) (r : Fin n) :
    (built items dests targets r).importRanks = (List.finRange n).flatMap fun s =>
      (received (items s) (dests s) (values s) r).map fun _ => s := by
  have hranks := Plan.built_importRanks targets
    (fun s => ((items s).zip (values s)).flatMap fun item => (dests s item.1).map fun _ => item.2)
    (fun s => by rw [length_pairs_values _ (hlength s), ← htargets s, List.length_map]) r
  apply hranks.trans
  apply List.flatMap_congr
  intro s _
  rw [htargets s, addressed_pairs (dests s) (hlength s)]

variable [Codec τ]

/-- Where the imports have room, setting it aside changes nothing. -/
theorem distributeInRoom_eq {width : Nat} {r : Routing n}
    (h : Memory.hasRoom (Memory.word r.numImports) width = true) (values : List τ) :
    r.distributeInRoom width values = r.distribute values := by
  rw [distributeInRoom, Routine.requireRoom, if_pos h, distribute]

theorem distribute_completes
    (htargets : ∀ r, (targets r).map Fin.val = (items r).flatMap (dests r))
    (hlength : ∀ r, (values r).length = (items r).length)
    (hcodec : ∀ r, ∀ value ∈ values r, Codec.RoundTrips value)
    (hsmall : ∀ s d, (targets s).count d < UInt64.size) :
    ∃ letters, Routine.Completes (fun r => (built items dests targets r).distribute (values r))
      letters fun r => (List.finRange n).flatMap fun s =>
        received (items s) (dests s) (values s) r := by
  let exported (r : Fin n) : List τ :=
    ((items r).zip (values r)).flatMap fun item => (dests r item.1).map fun _ => item.2
  have hexported : ∀ r, (exported r).length = (targets r).length := by
    intro r
    rw [length_pairs_values _ (hlength r), ← htargets r, List.length_map]
  have hcodec' : ∀ r, ∀ value ∈ exported r, Codec.RoundTrips value := by
    intro r value hvalue
    obtain ⟨item, hitem, hmem⟩ := List.mem_flatMap.mp hvalue
    obtain ⟨-, -, rfl⟩ := List.mem_map.mp hmem
    exact hcodec r item.2 (List.of_mem_zip hitem).2
  have hplan := Plan.distribute_completes hexported hcodec' hsmall
  refine ⟨_, hplan.congr (fun r => ?_) (fun _ _ => rfl) fun r => ?_⟩
  · have hvalues : (((pairs (items r) (dests r)).map (·.1)).filterMap fun i => (values r)[i]?) =
        exported r := pairs_values (dests r) (hlength r) rfl
    have hnum : (values r).length = (built items dests targets r).numItems := hlength r
    rw [distribute, distributeWith, if_neg (not_not.mpr hnum)]
    simp only [built, List.getElem?_toArray, hvalues]
    rfl
  · apply List.flatMap_congr
    intro s _
    rw [htargets s]
    exact addressed_pairs (dests s) (hlength s) r

end Completes

section Boxes

variable {α : Type}

theorem ranksWhere_eq (boxes : List (Option (Box α 3))) (test : Box α 3 → Bool) :
    ranksWhere boxes test = (boxes.zipIdx.filter fun b => b.1.any test).map (·.2) := by
  rw [ranksWhere, ← List.filterMap_eq_map, List.filterMap_filter]
  rfl

theorem mem_ranksWhere {boxes : List (Option (Box α 3))} {test : Box α 3 → Bool} {r : Nat} :
    r ∈ ranksWhere boxes test ↔ ∃ box, boxes[r]? = some (some box) ∧ test box = true := by
  simp only [ranksWhere_eq, List.mem_map, List.mem_filter, Prod.exists,
    List.mk_mem_zipIdx_iff_getElem?, Option.any_eq_true]
  constructor
  · rintro ⟨b, r', ⟨hb, box, rfl, htest⟩, rfl⟩
    exact ⟨box, hb, htest⟩
  · rintro ⟨box, hb, htest⟩
    exact ⟨some box, r, ⟨hb, box, rfl, htest⟩, rfl⟩

theorem nodup_ranksWhere (boxes : List (Option (Box α 3))) (test : Box α 3 → Bool) :
    (ranksWhere boxes test).Nodup := by
  rw [ranksWhere_eq]
  apply List.Nodup.sublist (List.filter_sublist.map _)
  rw [List.zipIdx_map_snd]
  exact List.nodup_range'

variable {boxes : Fin n → Option (Box α 3)} {test : Box α 3 → Bool}

theorem mem_ranksWhere_finRange {r : Nat} : r ∈ ranksWhere ((List.finRange n).map boxes) test ↔
    ∃ s : Fin n, s.val = r ∧ (boxes s).any test = true := by
  rw [mem_ranksWhere]
  simp only [List.getElem?_map, Option.map_eq_some_iff, List.getElem?_eq_some_iff,
    List.getElem_finRange, Option.any_eq_true]
  constructor
  · rintro ⟨box, ⟨s, ⟨hr, rfl⟩, hbox⟩, htest⟩
    exact ⟨_, rfl, box, hbox, htest⟩
  · rintro ⟨s, rfl, box, hbox, htest⟩
    exact ⟨box, ⟨s, ⟨by simp, by simp⟩, hbox⟩, htest⟩

theorem decide_mem_ranksWhere (r : Fin n) :
    decide (r.val ∈ ranksWhere ((List.finRange n).map boxes) test) = (boxes r).any test := by
  rw [Bool.eq_iff_iff, decide_eq_true_eq, mem_ranksWhere_finRange]
  constructor
  · rintro ⟨s, hs, htest⟩
    rwa [← Fin.ext hs]
  · intro htest
    exact ⟨r, rfl, htest⟩

end Boxes

end Vicinity.Routing
