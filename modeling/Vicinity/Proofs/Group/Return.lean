import Mathlib
import Vicinity.Proofs.Group.Delivery
import Vicinity.Proofs.Group.Departure

/-!
# There and back

The import ranks of a plan are the destinations of its inverse. What a rank
gets back along it is what it sent, by where it went: each rank returns its
group for a destination as one part, and within the part nothing has moved.
-/

set_option autoImplicit false

namespace Vicinity

structure Trip (n : Nat) (τ : Type) where
  there : Plan n
  imports : List τ
  back : Plan n
  returned : List τ

namespace Plan

variable {n : Nat} {τ : Type}

def thereAndBack [Codec τ] (me : Fin n) (dests : List Nat) (values : List τ) :
    Routine n CommError (Trip n τ) := do
  let there ← build me dests
  let imports ← there.distribute values
  let back ← build me (there.importRanks.map Fin.val)
  let returned ← back.distribute imports
  pure ⟨there, imports, back, returned⟩

section ByKey

variable {β : Type} {items : List (Nat × β)}

theorem filter_lt_succ (h : items.Pairwise fun a b => a.1 ≤ b.1) (m : Nat) :
    (items.filter fun a => a.1 < m + 1) =
      (items.filter fun a => a.1 < m) ++ items.filter fun a => a.1 = m := by
  have hsplit := filter_append_filter (h.filter fun a => a.1 < m + 1) m
  simp only [List.filter_filter, ← Bool.decide_and] at hsplit
  have hbelow : ∀ a : Nat × β, a.1 < m ∧ a.1 < m + 1 ↔ a.1 < m := by omega
  have hat : ∀ a : Nat × β, a.1 = m ∧ a.1 < m + 1 ↔ a.1 = m := by omega
  have habove : ∀ a : Nat × β, ¬ (m < a.1 ∧ a.1 < m + 1) := by omega
  simpa only [hbelow, hat, habove, decide_false, List.filter_false, List.append_nil] using hsplit

/-- Items by key are the items of the first key, then those of the second, and so on. -/
theorem flatMap_keys_eq_self (h : items.Pairwise fun a b => a.1 ≤ b.1)
    (hbelow : ∀ a ∈ items, a.1 < n) :
    ((List.finRange n).flatMap fun d => items.filter fun a => a.1 = d.val) = items := by
  have hfirst : ∀ m : Nat, ((List.range m).flatMap fun d => items.filter fun a => a.1 = d) =
      items.filter fun a => a.1 < m := by
    intro m
    induction m with
    | zero => simp
    | succ m ih =>
      rw [List.range_succ, List.flatMap_append, ih, List.flatMap_singleton, filter_lt_succ h]
  have hall := hfirst n
  rw [List.filter_eq_self.mpr fun a ha => decide_eq_true (hbelow a ha),
    ← List.map_coe_finRange_eq_range, List.flatMap_map] at hall
  exact hall

end ByKey

/-- The values for each destination, one destination after the other, are all
values by destination. -/
theorem byKey_zip {dests : List Nat} (hdests : ∀ dest ∈ dests, dest < n) (values : List τ) :
    byKey (dests.zip values) = (List.finRange n).flatMap fun d : Fin n =>
      (addressed dests values d).map fun value => (d.val, value) := by
  have hbelow : ∀ item ∈ byKey (dests.zip values), item.1 < n := fun item hitem =>
    hdests _ (List.of_mem_zip ((byKey_perm _).mem_iff.mp hitem)).1
  rw [← flatMap_keys_eq_self (byKey_pairwise _) hbelow]
  apply List.flatMap_congr
  intro d _
  rw [byKey_filter, addressed, List.map_map]
  refine (List.map_id _).symm.trans (List.map_congr_left fun item hitem => ?_)
  exact Prod.ext (of_decide_eq_true (List.mem_filter.mp hitem).2) rfl

section Sources

variable (targets : Fin n → List (Fin n)) (r : Fin n)

theorem importRanks_count (d : Fin n) :
    (built targets r).importRanks.count d = (targets d).count r := by
  -- One group of marks for every source, of which the group of `d` is taken out again.
  have hgroup := congrArg List.length (addressed_groups (List.nodup_finRange n)
    (fun s => List.replicate ((targets s).count r) ()) d)
  rw [length_addressed (by simp [List.length_flatMap])] at hgroup
  rw [← count_map_val, importRanks, List.map_flatMap]
  simpa [built_importCount] using hgroup

/-- The counts of a plan and of the one back are each other's. -/
theorem back_exportCounts : (built (fun s => (built targets s).importRanks) r).exportCounts =
    (built targets r).importCounts :=
  List.map_congr_left fun d _ => importRanks_count targets r d

theorem back_importCounts : (built (fun s => (built targets s).importRanks) r).importCounts =
    (built targets r).exportCounts :=
  List.map_congr_left fun s _ => importRanks_count targets s r

variable {targets} {values : Fin n → List τ}

theorem delivered_length (hlength : ∀ s, (values s).length = (targets s).length) :
    (delivered (fun s => (targets s).map Fin.val) values r).length =
      (built targets r).importRanks.length := by
  rw [built_importRanks targets values hlength]
  simp [delivered, List.length_flatMap]

theorem addressed_back (hlength : ∀ s, (values s).length = (targets s).length) (d : Fin n) :
    addressed ((built targets r).importRanks.map Fin.val)
      (delivered (fun s => (targets s).map Fin.val) values r) d =
        addressed ((targets d).map Fin.val) (values d) r := by
  have hgroups := addressed_groups (List.nodup_finRange n)
    (fun s => addressed ((targets s).map Fin.val) (values s) r) d
  rw [built_importRanks targets values hlength, List.map_flatMap]
  simpa only [List.map_map, Function.comp_def, delivered, List.mem_finRange, if_true] using hgroups

/-- What comes back is what was sent, by where it went. -/
theorem delivered_back (hlength : ∀ s, (values s).length = (targets s).length) :
    delivered (fun s => (built targets s).importRanks.map Fin.val)
      (delivered (fun s => (targets s).map Fin.val) values) r =
        (byKey (((targets r).map Fin.val).zip (values r))).map (·.2) := by
  have hbelow : ∀ dest ∈ (targets r).map Fin.val, dest < n := by simp
  rw [byKey_zip hbelow, List.map_flatMap]
  apply List.flatMap_congr
  intro s _
  rw [addressed_back s hlength, List.map_map]
  exact (List.map_id _).symm

/-- The import ranks of the plan back are the destinations in the order in
which the values come back. -/
theorem back_importRanks (hlength : ∀ s, (values s).length = (targets s).length) :
    (built (fun s => (built targets s).importRanks) r).importRanks.map Fin.val =
      (byKey (((targets r).map Fin.val).zip (values r))).map (·.1) := by
  have hbelow : ∀ dest ∈ (targets r).map Fin.val, dest < n := by simp
  rw [built_importRanks _ _ fun s => delivered_length s hlength, byKey_zip hbelow,
    List.map_flatMap, List.map_flatMap]
  apply List.flatMap_congr
  intro s _
  rw [addressed_back s hlength, List.map_map, List.map_map]
  rfl

end Sources

section Routine

variable {targets : Fin n → List (Fin n)} {values : Fin n → List τ}

theorem mem_of_mem_delivered {dests : Fin n → List Nat} {r : Fin n} {value : τ}
    (h : value ∈ delivered dests values r) : ∃ s, value ∈ values s := by
  obtain ⟨s, -, hvalue⟩ := List.mem_flatMap.mp h
  exact ⟨s, mem_of_mem_addressed hvalue⟩

theorem thereAndBack_finishes [Codec τ] (hlength : ∀ s, (values s).length = (targets s).length)
    (hcodec : ∀ s, ∀ value ∈ values s, Codec.RoundTrips value)
    (hsmall : ∀ s d, (targets s).count d < UInt64.size) :
    Routine.Finishes (fun r => thereAndBack r ((targets r).map Fin.val) (values r)) fun r =>
      { there := built targets r
        imports := delivered (fun s => (targets s).map Fin.val) values r
        back := built (fun s => (built targets s).importRanks) r
        returned := (byKey (((targets r).map Fin.val).zip (values r))).map (·.2) } := by
  have hback : ∀ s d, (built targets s).importRanks.count d < UInt64.size := by
    intro s d
    rw [importRanks_count]
    exact hsmall d s
  have himports : ∀ s, ∀ value ∈ delivered (fun s => (targets s).map Fin.val) values s,
      Codec.RoundTrips value := by
    intro s value hvalue
    obtain ⟨source, hsource⟩ := mem_of_mem_delivered hvalue
    exact hcodec source value hsource
  have hreturned := distribute_completes (fun s => delivered_length s hlength) himports hback
  have hreturn : Routine.Finishes
      (fun r => (built (fun s => (built targets s).importRanks) r).distribute
        (delivered (fun s => (targets s).map Fin.val) values r))
      fun r => (byKey (((targets r).map Fin.val).zip (values r))).map (·.2) := by
    refine ⟨_, hreturned.congr (fun _ => rfl) (fun _ _ => rfl) fun r => ?_⟩
    exact delivered_back r hlength
  apply Routine.Finishes.bind ⟨_, build_completes hsmall⟩
  apply Routine.Finishes.bind ⟨_, distribute_completes hlength hcodec hsmall⟩
  apply Routine.Finishes.bind ⟨_, build_completes hback⟩
  exact hreturn.bind (Routine.Finishes.pure _)

end Routine

end Plan

/-- Ranks that route their items within the group send values along a plan, and
what arrives along a plan to where it came from, however their steps interleave
and whether a rank stays at its end or leaves. Each rank gets back its own
values, each of them once, by the rank they went to and for one rank in their
own order; the counts of the two plans are each other's, and no letter is left. -/
theorem values_return {n : Nat} {τ : Type} [Codec τ] (dests : Fin n → List Nat)
    (values : Fin n → List τ) (hdests : ∀ r, ∀ dest ∈ dests r, dest < n)
    (hlength : ∀ r, (values r).length = (dests r).length)
    (hcodec : ∀ r, ∀ value ∈ values r, Codec.RoundTrips value)
    (hsmall : ∀ r, (dests r).length < UInt64.size) (leaves : Fin n → Bool) :
    ∃ (letters : Fin n → Fin n → List Envelope) (final : Network n (Except CommError (Trip n τ)))
      (trips : Fin n → Trip n τ),
      (Network.start fun r => (Plan.thereAndBack r (dests r) (values r)).run.bind
        (Proc.ending (leaves r))).Settles letters final ∧
      (∀ r, final.left.get r = leaves r) ∧
      (∀ s d, final.channel s d = []) ∧
      (∀ r, final.programs.get r = .done (.ok (trips r))) ∧
      (∀ r, (trips r).imports = Plan.delivered dests values r) ∧
      (∀ r, (trips r).returned.Perm (values r)) ∧
      (∀ r, (trips r).returned =
        (((dests r).zip (values r)).mergeSort fun a b => decide (a.1 ≤ b.1)).map (·.2)) ∧
      (∀ r, (trips r).back.importRanks.map Fin.val =
        (((dests r).zip (values r)).mergeSort fun a b => decide (a.1 ≤ b.1)).map (·.1)) ∧
      (∀ r, (trips r).back.exportCounts = (trips r).there.importCounts) ∧
      ∀ r, (trips r).back.importCounts = (trips r).there.exportCounts := by
  obtain ⟨targets, rfl⟩ := exists_targets hdests
  simp only [List.length_map] at hlength hsmall
  have hcount : ∀ s d, (targets s).count d < UInt64.size := fun s d =>
    List.count_le_length.trans_lt (hsmall s)
  obtain ⟨letters, hall⟩ := Plan.thereAndBack_finishes hlength hcodec hcount
  obtain ⟨final, hsettles, hleft, hempty, hdone⟩ := hall.settles_ending leaves
  refine ⟨letters, final, _, hsettles, hleft, hempty, hdone, fun _ => rfl, fun r => ?_,
    fun _ => rfl, fun r => Plan.back_importRanks r hlength, Plan.back_exportCounts targets,
    Plan.back_importCounts targets⟩
  have hvalues : (((targets r).map Fin.val).zip (values r)).map (·.2) = values r :=
    List.map_snd_zip (by simp [hlength])
  have hperm := (Plan.byKey_perm (((targets r).map Fin.val).zip (values r))).map (·.2)
  rwa [hvalues] at hperm

def crossing (r : Fin 3) : List Nat :=
  if r = 0 then [2, 0, 1, 2, 0] else if r = 1 then [0, 1, 0] else []

def crossingWords (r : Fin 3) : List UInt64 :=
  if r = 0 then [10, 11, 12, 13, 14] else if r = 1 then [20, 21, 22] else []

/-- Two ranks send to each other, to themselves and to a third, which sends nothing. -/
theorem values_return_crossing : ∃ letters final, ∃ trips : Fin 3 → Trip 3 UInt64,
    (Network.start fun r => (Plan.thereAndBack r (crossing r) (crossingWords r)).run.bind
      (Proc.ending (r = 2))).Settles letters final ∧
    (∀ r, final.programs.get r = .done (.ok (trips r))) ∧
    (trips 0).returned = [11, 14, 12, 10, 13] ∧
    (trips 0).back.importRanks.map Fin.val = [0, 0, 1, 2, 2] ∧
    (trips 1).returned = [20, 22, 21] ∧ (trips 2).imports = [10, 13] ∧
    (trips 2).returned = [] := by
  have hdests : ∀ r, ∀ dest ∈ crossing r, dest < 3 := by decide
  have hsorted := fun r => Plan.byKey_zip (hdests r) (crossingWords r)
  simp only [Plan.byKey] at hsorted
  obtain ⟨letters, final, trips, hsettles, -, -, hdone, himports, -, hreturned, hranks, -⟩ :=
    values_return crossing crossingWords hdests (by decide)
      (fun _ value _ => Codec.roundTrips_word value) (by decide) fun r => r = 2
  simp only [hsorted] at hreturned hranks
  refine ⟨letters, final, trips, hsettles, hdone, ?_, ?_, ?_, ?_, ?_⟩
  · exact hreturned 0
  · exact hranks 0
  · exact hreturned 1
  · exact himports 2
  · exact hreturned 2

end Vicinity
