import Mathlib
import Vicinity.Group.Plan
import Vicinity.Proofs.Group.Collective

/-!
# Delivery along a plan

A plan that all ranks build brings every value to the rank that its item goes
to. A rank receives the values of all ranks by rank, each rank's in item order,
for the sort behind a plan is stable: the part of the order that belongs to one
destination holds its items in their own order.
-/

set_option autoImplicit false

namespace Vicinity

def addressed {τ : Type} (dests : List Nat) (values : List τ) (r : Nat) : List τ :=
  ((dests.zip values).filter fun item => item.1 = r).map (·.2)

theorem addressed_cons {τ : Type} (dest : Nat) (dests : List Nat) (value : τ) (values : List τ)
    (r : Nat) : addressed (dest :: dests) (value :: values) r =
      if dest = r then value :: addressed dests values r else addressed dests values r := by
  by_cases h : dest = r <;> simp [addressed, h]

theorem addressed_append {τ : Type} {dests dests' : List Nat} {values values' : List τ}
    (h : values.length = dests.length) (r : Nat) :
    addressed (dests ++ dests') (values ++ values') r =
      addressed dests values r ++ addressed dests' values' r := by
  rw [addressed, List.zip_append h.symm, List.filter_append, List.map_append]
  rfl

theorem addressed_const {τ : Type} (dests : List Nat) (value : τ) (r : Nat) :
    addressed dests (dests.map fun _ => value) r = List.replicate (dests.count r) value := by
  induction dests with
  | nil => rfl
  | cons dest dests ih =>
    rw [List.map_cons, addressed_cons, ih, List.count_cons]
    by_cases h : dest = r
    · simp [h, List.replicate_succ]
    · simp [h]

theorem mem_of_mem_addressed {τ : Type} {dests : List Nat} {values : List τ} {r : Nat} {value : τ}
    (h : value ∈ addressed dests values r) : value ∈ values := by
  obtain ⟨⟨dest, value'⟩, hmem, rfl⟩ := List.mem_map.mp h
  exact (List.of_mem_zip (List.mem_filter.mp hmem).1).2

theorem length_addressed {τ : Type} {dests : List Nat} {values : List τ}
    (h : values.length = dests.length) (r : Nat) :
    (addressed dests values r).length = dests.count r := by
  induction dests generalizing values with
  | nil => simp [addressed]
  | cons dest dests ih =>
    obtain ⟨value, rest, rfl⟩ := List.exists_cons_of_length_eq_add_one h
    rw [addressed_cons, List.count_cons]
    have hrest := ih (by simpa using h)
    by_cases hdest : dest = r <;> simp [hdest, hrest]

theorem addressed_one {τ : Type} (dest : Nat) (values : List τ) (r : Nat) :
    addressed (values.map fun _ => dest) values r = if dest = r then values else [] := by
  induction values with
  | nil => simp [addressed]
  | cons value values ih =>
    rw [List.map_cons, addressed_cons, ih]
    split <;> rfl

theorem addressed_groups {τ : Type} {n : Nat} {ranks : List (Fin n)} (nodup : ranks.Nodup)
    (group : Fin n → List τ) (r : Fin n) :
    addressed (ranks.flatMap fun s => (group s).map fun _ => s.val) (ranks.flatMap group) r =
      if r ∈ ranks then group r else [] := by
  induction ranks with
  | nil => rfl
  | cons s ranks ih =>
    rw [List.flatMap_cons, List.flatMap_cons, addressed_append (by rw [List.length_map]),
      addressed_one, ih nodup.of_cons]
    by_cases hs : s = r
    · subst hs
      have hs : s ∉ ranks := (List.nodup_cons.mp nodup).1
      simp [hs]
    · have hs' : r ≠ s := Ne.symm hs
      simp [hs', Fin.val_ne_of_ne hs]

theorem drop_eq_cons {τ : Type} {stored rest : List τ} {value : τ} {k : Nat}
    (h : stored.drop k = value :: rest) : stored[k]? = some value ∧ stored.drop (k + 1) = rest := by
  constructor
  · rw [← List.head?_drop, h, List.head?_cons]
  · rw [← List.drop_drop, h, List.drop_one, List.tail_cons]

namespace Plan

variable {n : Nat} {τ : Type}

section Order

variable {κ β : Type} [LinearOrder κ] (items : List (κ × β))

def byKey : List (κ × β) := items.mergeSort fun a b => decide (a.1 ≤ b.1)

theorem byKey_perm : (byKey items).Perm items := List.mergeSort_perm _ _

theorem key_trans (a b c : κ × β) (hab : decide (a.1 ≤ b.1) = true)
    (hbc : decide (b.1 ≤ c.1) = true) : decide (a.1 ≤ c.1) = true :=
  decide_eq_true ((of_decide_eq_true hab).trans (of_decide_eq_true hbc))

theorem key_total (a b : κ × β) : (decide (a.1 ≤ b.1) || decide (b.1 ≤ a.1)) = true := by
  simp [le_total]

theorem byKey_pairwise : (byKey items).Pairwise fun a b => a.1 ≤ b.1 := by
  apply (List.pairwise_mergeSort key_trans key_total _).imp
  intro a b h
  exact of_decide_eq_true h

/-- The items of one key keep their order. -/
theorem byKey_filter (d : κ) :
    (byKey items).filter (fun a => a.1 = d) = items.filter fun a => a.1 = d := by
  have hsub : (items.filter fun a => a.1 = d).Sublist (byKey items) := by
    apply List.sublist_mergeSort key_trans key_total _ List.filter_sublist
    apply List.pairwise_of_forall_mem_list
    intro a ha b hb
    have ha := of_decide_eq_true (List.mem_filter.mp ha).2
    have hb := of_decide_eq_true (List.mem_filter.mp hb).2
    simp [ha, hb]
  -- Both sides filter permutations of one list, so the sublist is all of it.
  have hfilter := hsub.filter fun a => a.1 = d
  rw [List.filter_filter] at hfilter
  simp only [Bool.and_self] at hfilter
  exact (hfilter.eq_of_length ((byKey_perm items).filter _).length_eq.symm).symm

/-- A sorted list falls into what comes before, at and after a key. -/
theorem filter_append_filter {items : List (κ × β)}
    (h : items.Pairwise fun a b => a.1 ≤ b.1) (d : κ) :
    items = (items.filter fun a => a.1 < d) ++ (items.filter fun a => a.1 = d) ++
      items.filter fun a => d < a.1 := by
  induction items with
  | nil => rfl
  | cons a items ih =>
    have hrest := ih (List.pairwise_cons.mp h).2
    have hle := (List.pairwise_cons.mp h).1
    rcases lt_trichotomy a.1 d with hlt | heq | hgt
    · simp only [List.filter_cons, hlt, hlt.ne, hlt.not_gt, decide_true, decide_false, if_true,
        Bool.false_eq_true, if_false, List.cons_append]
      exact congrArg (a :: ·) hrest
    · have hnone : items.filter (fun b => b.1 < d) = [] := by
        apply List.filter_eq_nil_iff.mpr
        intro b hb
        simpa [heq] using hle b hb
      rw [hnone] at hrest
      simp only [List.filter_cons, heq, lt_irrefl, decide_true, decide_false, if_true,
        Bool.false_eq_true, if_false, hnone, List.nil_append, List.cons_append]
      exact congrArg (a :: ·) hrest
    · have hnone : ∀ b ∈ items, ¬ b.1 < d ∧ b.1 ≠ d := fun b hb =>
        ⟨(hgt.trans_le (hle b hb)).not_gt, (hgt.trans_le (hle b hb)).ne'⟩
      have hlt : items.filter (fun b => b.1 < d) = [] :=
        List.filter_eq_nil_iff.mpr fun b hb => by simpa using (hnone b hb).1
      have heq : items.filter (fun b => b.1 = d) = [] :=
        List.filter_eq_nil_iff.mpr fun b hb => by simpa using (hnone b hb).2
      rw [hlt, heq] at hrest
      simp only [List.filter_cons, hgt, hgt.ne', hgt.not_gt, decide_true, decide_false, if_true,
        Bool.false_eq_true, if_false, hlt, heq, List.nil_append]
      exact congrArg (a :: ·) hrest

end Order

theorem countP_lt_succ {m : Nat} (hm : m < n) (targets : List (Fin n)) :
    targets.countP (fun r => r.val < m) + targets.count ⟨m, hm⟩ =
      targets.countP fun r => r.val < m + 1 := by
  induction targets with
  | nil => rfl
  | cons t targets ih =>
    simp only [List.countP_cons, List.count_cons, decide_eq_true_eq, beq_iff_eq, Fin.ext_iff] at ih ⊢
    split_ifs <;> omega

theorem sum_count_take (targets : List (Fin n)) {m : Nat} (hm : m ≤ n) :
    (((List.finRange n).take m).map fun r => targets.count r).sum =
      targets.countP fun r => r.val < m := by
  induction m with
  | zero => simp
  | succ m ih =>
    have hlast : (List.finRange n)[m]? = some ⟨m, hm⟩ := by
      rw [List.getElem?_eq_getElem (by simpa using hm)]
      simp
    rw [List.take_add_one, hlast, List.map_append, List.sum_append, ih (Nat.le_of_succ_le hm),
      ← countP_lt_succ hm]
    simp

def built (targets : Fin n → List (Fin n)) (r : Fin n) : Plan n where
  me := r
  order := orderOf (targets r)
  exportCounts := (List.finRange n).map fun d => (targets r).count d
  importCounts := (List.finRange n).map fun s => (targets s).count r

section Built

variable (targets : Fin n → List (Fin n)) (r : Fin n)

theorem getD_finRange_map {f : Fin n → Nat} (d : Fin n) :
    ((List.finRange n).map f).getD d 0 = f d := by
  simp [List.getD_eq_getElem?_getD]

theorem built_me : (built targets r).me = r := rfl

theorem built_exportCount (d : Fin n) : (built targets r).exportCount d = (targets r).count d :=
  getD_finRange_map d

theorem built_importCount (s : Fin n) : (built targets r).importCount s = (targets s).count r :=
  getD_finRange_map s

theorem built_numExports : (built targets r).numExports = (targets r).length := by
  simp [built, numExports, orderOf]

theorem built_offset (d : Fin n) :
    (built targets r).offset d = (targets r).countP fun t => t < d := by
  rw [offset, built, ← List.map_take, ← List.sum_eq_foldr, sum_count_take _ d.isLt.le]
  rfl

/-- The part of the order that belongs to one destination. -/
theorem built_slice (d : Fin n) :
    ((built targets r).order.drop ((built targets r).offset d)).take
      ((built targets r).exportCount d) =
        ((targets r).zipIdx.filter fun a => a.1 = d).map (·.2) := by
  have hcount : ∀ p : Fin n → Bool, ((byKey (targets r).zipIdx).filter fun a => p a.1).length =
      (targets r).countP p := by
    intro p
    rw [((byKey_perm (targets r).zipIdx).filter _).length_eq, ← List.countP_eq_length_filter]
    conv_rhs => rw [← List.zipIdx_map_fst 0 (targets r), List.countP_map]
    rfl
  have hbelow := hcount fun t => decide (t < d)
  have hat := hcount fun t => decide (t = d)
  have horder : (built targets r).order = (byKey (targets r).zipIdx).map (·.2) := rfl
  rw [horder, filter_append_filter (byKey_pairwise (targets r).zipIdx) d, built_offset,
    built_exportCount, ← byKey_filter (targets r).zipIdx]
  rw [List.append_assoc, List.map_append, List.map_append,
    List.drop_left' (by rw [List.length_map]; exact hbelow),
    List.take_left' (by rw [List.length_map]; exact hat)]

theorem filterMap_zipIdx {targets : List (Fin n)} {values stored : List τ} {k : Nat} (d : Fin n)
    (hlength : values.length = targets.length) (hstored : stored.drop k = values) :
    ((targets.zipIdx k).filter fun a => a.1 = d).filterMap (fun a => stored[a.2]?) =
      addressed (targets.map Fin.val) values d := by
  induction targets generalizing values k with
  | nil => rfl
  | cons t targets ih =>
    obtain ⟨value, rest, rfl⟩ := List.exists_cons_of_length_eq_add_one hlength
    obtain ⟨hk, hdrop⟩ := drop_eq_cons hstored
    have hrest := ih (by simpa using hlength) hdrop
    rw [List.zipIdx_cons, List.map_cons, addressed_cons]
    by_cases ht : t = d
    · simp [ht, hk, hrest]
    · simp [ht, Fin.val_ne_of_ne ht, hrest]

theorem built_batch {values : List τ} (hlength : values.length = (targets r).length) (d : Fin n) :
    (built targets r).batch values d = addressed ((targets r).map Fin.val) values d := by
  simp only [batch, built_slice, List.filterMap_map, List.getElem?_toArray]
  exact filterMap_zipIdx d hlength rfl

end Built

theorem mapM_rank (targets : List (Fin n)) :
    (targets.map Fin.val).mapM Routine.rank = (pure targets : Routine n CommError _) := by
  induction targets with
  | nil => rfl
  | cons t targets ih =>
    have ht : (Routine.rank t.val : Routine n CommError (Fin n)) = pure t := dif_pos t.isLt
    rw [List.map_cons, List.mapM_cons, ih, ht, pure_bind, pure_bind]

theorem build_completes {targets : Fin n → List (Fin n)}
    (hsmall : ∀ s d, (targets s).count d < UInt64.size) :
    Routine.Completes (fun r => build r ((targets r).map Fin.val))
      (fun s d => if s = d then [] else [Routine.valueLetter Tag.counts ((targets s).count d)])
      (built targets) := by
  have hexchange := Routine.exchangeCounts_completes
    (fun r => (List.finRange n).map fun d => (targets r).count d) (by simp)
    fun s r => by
      rw [getD_finRange_map]
      exact hsmall s r
  have hbuild := hexchange.map fun r importCounts => (⟨r, orderOf (targets r),
    (List.finRange n).map fun d => (targets r).count d, importCounts⟩ : Plan n)
  apply hbuild.congr
  · intro r
    rw [build, mapM_rank, pure_bind, bind_pure_comp]
  · intro s d
    rw [getD_finRange_map]
  · intro r
    simp only [getD_finRange_map]
    rfl

section Distribute

variable [Codec τ] {targets : Fin n → List (Fin n)} {values : Fin n → List τ}

def batchLetters (dests : Fin n → List Nat) (values : Fin n → List τ) (s d : Fin n) :
    List Envelope :=
  if s = d then []
  else if (dests s).count d.val = 0 then []
  else [Routine.valueLetter Tag.distribute (addressed (dests s) (values s) d)]

theorem count_map_val (targets : List (Fin n)) (d : Fin n) :
    (targets.map Fin.val).count d.val = targets.count d :=
  List.count_map_of_injective targets Fin.val Fin.val_injective d

theorem arrived_batch (hlength : ∀ s, (values s).length = (targets s).length)
    (hcodec : ∀ s, ∀ value ∈ values s, Codec.RoundTrips value)
    (hsmall : ∀ s d, (targets s).count d < UInt64.size) (s r : Fin n) :
    Routine.Arrived Tag.distribute ((built targets r).intake (values r) s)
      (addressed ((targets s).map Fin.val) (values s) r)
      (if s = r then [] else Routine.parcel Tag.distribute
        (if (built targets s).exportCount r = 0 then none
          else some (Codec.encode ((built targets s).batch (values s) r)))) := by
  have hcount : (addressed ((targets s).map Fin.val) (values s) r).length = (targets s).count r := by
    rw [length_addressed (by simpa using hlength s), count_map_val]
  have hchecked : checked ((targets s).count r) (addressed ((targets s).map Fin.val) (values s) r) =
      .ok (addressed ((targets s).map Fin.val) (values s) r) := if_pos hcount
  simp only [intake, built_me, built_importCount, built_exportCount, built_batch _ _ (hlength _)]
  by_cases hzero : (targets s).count r = 0
  · left
    have hempty := List.eq_nil_of_length_eq_zero (hcount.trans hzero)
    simp [hzero, hempty, Routine.parcel]
  · by_cases hs : s = r
    · subst hs
      left
      rw [if_neg hzero, if_pos rfl, if_pos rfl, hchecked]
      exact ⟨rfl, rfl⟩
    · right
      refine ⟨_, _, by rw [if_neg hzero, if_neg hs], ?_, by
        rw [if_neg hzero, if_neg hs]
        rfl⟩
      have hbatch : Codec.RoundTrips (addressed ((targets s).map Fin.val) (values s) r) :=
        Codec.roundTrips_list (fun x hx => hcodec s x (mem_of_mem_addressed hx))
          (hcount ▸ hsmall s r)
      rw [Routine.readValue_encode hbatch]
      exact hchecked

/-- Where the imports have room, setting it aside changes nothing. -/
theorem distributeInRoom_eq {width : Nat} {p : Plan n}
    (h : Memory.hasRoom (Memory.word p.numImports) width = true) (values : List τ) :
    p.distributeInRoom width values = p.distribute values := by
  rw [distributeInRoom, Routine.requireRoom, if_pos h, distribute]

theorem distribute_completes (hlength : ∀ s, (values s).length = (targets s).length)
    (hcodec : ∀ s, ∀ value ∈ values s, Codec.RoundTrips value)
    (hsmall : ∀ s d, (targets s).count d < UInt64.size) :
    Routine.Completes (fun r => (built targets r).distribute (values r))
      (batchLetters (fun s => (targets s).map Fin.val) values)
      fun r => (List.finRange n).flatMap fun s =>
        addressed ((targets s).map Fin.val) (values s) r := by
  have hround := (Routine.round_completes _ _ _ _ (arrived_batch hlength hcodec hsmall)).map
    fun _ batches => batches.flatten
  apply hround.congr
  · intro r
    rw [distribute, distributeWith, if_neg (by rw [built_numExports]; exact not_not.mpr (hlength r))]
    rfl
  · intro s d
    simp only [batchLetters, built_exportCount, built_batch _ _ (hlength _), count_map_val]
    split_ifs <;> rfl
  · intro r
    exact List.flatMap_def.symm

end Distribute

theorem zip_flatMap {ι : Type} (sources : List ι) (f : ι → List τ) :
    (sources.flatMap f).zip (sources.flatMap fun s => (f s).map fun _ => s) =
      sources.flatMap fun s => (f s).map fun value => (value, s) := by
  induction sources with
  | nil => rfl
  | cons s sources ih =>
    rw [List.flatMap_cons, List.flatMap_cons, List.flatMap_cons,
      List.zip_append (by rw [List.length_map]), ih, ← List.map_prod_left_eq_zip]

theorem built_importRanks (targets : Fin n → List (Fin n)) (values : Fin n → List τ)
    (hlength : ∀ s, (values s).length = (targets s).length) (r : Fin n) :
    (built targets r).importRanks = (List.finRange n).flatMap fun s =>
      (addressed ((targets s).map Fin.val) (values s) r).map fun _ => s := by
  apply List.flatMap_congr
  intro s _
  rw [built_importCount, List.map_const', length_addressed (by simpa using hlength s), count_map_val]

section Carry

variable {B : Type} {T : B → Type} [(b : B) → Codec (T b)]

def carry (me : Fin n) (dests : List Nat) (batches : List ((b : B) × List (T b))) :
    Routine n CommError (Plan n × List ((b : B) × List (T b))) := do
  let plan ← build me dests
  let imports ← batches.mapM fun batch => Sigma.mk batch.1 <$> plan.distribute batch.2
  pure (plan, imports)

def delivered (dests : Fin n → List Nat) (values : Fin n → List τ) (r : Fin n) : List τ :=
  (List.finRange n).flatMap fun s => addressed (dests s) (values s) r

def carryLetters (dests : Fin n → List Nat) (batches : List ((b : B) × (Fin n → List (T b))))
    (s d : Fin n) : List Envelope :=
  (if s = d then [] else [Routine.valueLetter Tag.counts ((dests s).count d.val)]) ++
    batches.flatMap fun batch => batchLetters dests batch.2 s d

theorem carry_completes {targets : Fin n → List (Fin n)}
    {batches : List ((b : B) × (Fin n → List (T b)))}
    (hlength : ∀ batch ∈ batches, ∀ r, (batch.2 r).length = (targets r).length)
    (hcodec : ∀ batch ∈ batches, ∀ r, ∀ value ∈ batch.2 r, Codec.RoundTrips value)
    (hsmall : ∀ s d, (targets s).count d < UInt64.size) :
    Routine.Completes (fun r => carry r ((targets r).map Fin.val)
        (batches.map fun batch => ⟨batch.1, batch.2 r⟩))
      (carryLetters (fun s => (targets s).map Fin.val) batches)
      fun r => (built targets r, batches.map fun batch =>
        ⟨batch.1, delivered (fun s => (targets s).map Fin.val) batch.2 r⟩) := by
  have himports := Routine.Completes.mapM batches fun batch hbatch =>
    (distribute_completes (hlength batch hbatch) (hcodec batch hbatch) hsmall).map
      fun _ values => (⟨batch.1, values⟩ : (b : B) × List (T b))
  have hall := (build_completes hsmall).bind (himports.map fun r imports => (built targets r, imports))
    (f := fun r plan => (fun imports => (plan, imports)) <$> batches.mapM fun batch =>
      (⟨batch.1, ·⟩ : List (T batch.1) → (b : B) × List (T b)) <$> plan.distribute (batch.2 r))
  apply hall.congr
  · intro r
    simp only [carry, List.mapM_map, bind_pure_comp]
    rfl
  · intro s d
    simp only [carryLetters, count_map_val]
  · intro r
    rfl

end Carry

end Plan

theorem exists_targets {n : Nat} {dests : Fin n → List Nat}
    (h : ∀ r, ∀ dest ∈ dests r, dest < n) :
    ∃ targets : Fin n → List (Fin n), (fun r => (targets r).map Fin.val) = dests := by
  refine ⟨fun r => (dests r).pmap (fun dest h => ⟨dest, h⟩) (h r), ?_⟩
  funext r
  rw [List.map_pmap]
  exact (List.pmap_eq_map ..).trans (List.map_id _)

/-- Ranks that route every item within the group build plans and carry any
number of batches along them, however their steps interleave. Every rank
receives the values that are addressed to it by source rank, its own included,
and in the order of the source; the counts agree on both sides, and the import
ranks name the source of every value. A batch travels in one letter to every
other rank that receives anything, and no letter is left. -/
theorem plan_delivers {n : Nat} {B : Type} {T : B → Type} [(b : B) → Codec (T b)]
    (dests : Fin n → List Nat) (batches : List ((b : B) × (Fin n → List (T b))))
    (hdests : ∀ r, ∀ dest ∈ dests r, dest < n)
    (hlength : ∀ batch ∈ batches, ∀ r, (batch.2 r).length = (dests r).length)
    (hcodec : ∀ batch ∈ batches, ∀ r, ∀ value ∈ batch.2 r, Codec.RoundTrips value)
    (hsmall : ∀ r, (dests r).length < UInt64.size) :
    ∃ (final : Network n (Except CommError (Plan n × List ((b : B) × List (T b)))))
      (plans : Fin n → Plan n),
      (Network.start fun r => (Plan.carry r (dests r)
        (batches.map fun batch => ⟨batch.1, batch.2 r⟩)).run).Settles
          (Plan.carryLetters dests batches) final ∧
      (∀ s d, final.channel s d = []) ∧
      (∀ r, final.programs.get r = .done (.ok (plans r, batches.map fun batch =>
        ⟨batch.1, Plan.delivered dests batch.2 r⟩))) ∧
      (∀ r, (plans r).exportCounts = (List.finRange n).map fun d => (dests r).count d.val) ∧
      (∀ r, (plans r).importCounts = (List.finRange n).map fun s => (plans s).exportCount r) ∧
      ∀ r, ∀ batch ∈ batches,
        (plans r).importRanks.length = (Plan.delivered dests batch.2 r).length ∧
        (Plan.delivered dests batch.2 r).zip (plans r).importRanks =
          (List.finRange n).flatMap fun s =>
            (addressed (dests s) (batch.2 s) r).map fun value => (value, s) := by
  obtain ⟨targets, rfl⟩ := exists_targets hdests
  simp only [List.length_map] at hlength hsmall
  obtain ⟨final, hsettles, hempty, hdone⟩ :=
    (Plan.carry_completes hlength hcodec fun s d =>
      List.count_le_length.trans_lt (hsmall s)).settles
  refine ⟨final, Plan.built targets, hsettles, hempty, hdone, ?_, ?_, ?_⟩
  · intro r
    simp only [Plan.count_map_val]
    rfl
  · intro r
    simp only [Plan.built_exportCount]
    rfl
  · intro r batch hbatch
    rw [Plan.built_importRanks targets batch.2 (hlength batch hbatch)]
    constructor
    · simp [Plan.delivered, List.length_flatMap]
    · exact Plan.zip_flatMap _ _

/-- Two ranks, of which the first sends two words to the second and one to
itself. -/
theorem plan_delivers_three_words : ∃ (final : Network 2 (Except CommError
      (Plan 2 × List ((_ : Unit) × List UInt64)))) (plans : Fin 2 → Plan 2),
    (∀ s d, final.channel s d = []) ∧
    (∀ schedule g, (Network.start fun r => (Plan.carry r (if r = 0 then [1, 0, 1] else [])
      [(⟨(), if r = 0 then [7, 8, 9] else []⟩ : (_ : Unit) × List UInt64)]).run).follow schedule =
        some g → ∃ rest, g.follow rest = some final) ∧
    final.programs.get 0 = .done (.ok (plans 0, [⟨(), [8]⟩])) ∧
    final.programs.get 1 = .done (.ok (plans 1, [⟨(), [7, 9]⟩])) := by
  obtain ⟨final, plans, hsettles, hempty, hdone, -⟩ := plan_delivers (n := 2)
    (T := fun _ : Unit => UInt64) (fun r => if r = 0 then [1, 0, 1] else [])
    [⟨(), fun r => if r = 0 then [7, 8, 9] else []⟩] (by decide) (by decide)
    (fun _ _ _ value _ => Codec.roundTrips_word value) (by decide)
  refine ⟨final, plans, hempty, fun schedule g h => ?_, hdone 0, hdone 1⟩
  obtain ⟨steps, hsteps⟩ := hsettles.goes_on
  obtain ⟨rest, hrest, -⟩ := hsteps schedule g h
  exact ⟨rest, hrest⟩

end Vicinity
