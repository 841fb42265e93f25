import Mathlib
import Vicinity.Search.Correspondence

/-!
# A correspondence is one relation

However records are inserted and owners set, both sides of a correspondence
and its coordinates list the same pairs, each once. What a correspondence
answers is read off its history: pairs stand in the order of their first
record and keep its coordinates, and of the owners set for a range entity the
last one counts, or else the one that the first record names.
-/

set_option autoImplicit false

namespace Vicinity

variable {α : Type}

def Record.pair (r : Record α) : EntityId × EntityId := (r.domain, r.range)

inductive Edit (α : Type) where
  | insert (record : Record α)
  | extend (records : List (Record α))
  | setOwner (range : EntityId) (owner : UInt64)

namespace Edit

def records : Edit α → List (Record α)
  | insert record => [record]
  | extend records => records
  | setOwner _ _ => []

def owner? (range : EntityId) : Edit α → Option UInt64
  | setOwner r owner => if r = range then some owner else none
  | _ => none

end Edit

inductive Side where
  | domain
  | range

namespace Side

def key : Side → EntityId × EntityId → EntityId
  | domain, p => p.1
  | range, p => p.2

def other : Side → EntityId × EntityId → EntityId
  | domain, p => p.2
  | range, p => p.1

def pair : Side → EntityId → EntityId → EntityId × EntityId
  | domain, k, o => (k, o)
  | range, k, o => (o, k)

theorem eq_pair_iff {s : Side} {p : EntityId × EntityId} {k o : EntityId} :
    p = s.pair k o ↔ s.key p = k ∧ s.other p = o := by
  cases s with
  | domain => exact Prod.ext_iff
  | range => exact Prod.ext_iff.trans and_comm

end Side

theorem eraseDups_concat {τ : Type} [BEq τ] [LawfulBEq τ] (xs : List τ) (x : τ) :
    (xs ++ [x]).eraseDups = if xs.contains x then xs.eraseDups else xs.eraseDups ++ [x] := by
  rw [List.eraseDups_append, List.removeAll, List.filter_singleton]
  by_cases h : x ∈ xs <;> simp [h, List.eraseDups_cons]

theorem nodup_eraseDups {τ : Type} [BEq τ] [LawfulBEq τ] (xs : List τ) : xs.eraseDups.Nodup := by
  induction xs using List.reverseRecOn with
  | nil => exact List.nodup_nil
  | append_singleton xs x ih =>
    rw [eraseDups_concat]
    by_cases h : x ∈ xs
    · simpa [h] using ih
    · have hx : x ∉ xs.eraseDups := fun hmem => h (List.mem_eraseDups.mp hmem)
      simpa [h, List.nodup_append, ih] using fun y hy => ne_of_mem_of_not_mem hy hx

namespace Correspondence

def edit (c : Correspondence α) : Edit α → Correspondence α
  | .insert record => c.insert record
  | .extend records => c.extend records
  | .setOwner range owner => c.setRangeOwner range owner

def edited (edits : List (Edit α)) : Correspondence α := edits.foldl edit empty

def index (c : Correspondence α) : Side → Std.HashMap EntityId (List EntityId)
  | .domain => c.byDomain
  | .range => c.byRange

def side (c : Correspondence α) (s : Side) (k : EntityId) : List EntityId := (c.index s).getD k []

section History

variable (edits : List (Edit α))

def inserted : List (Record α) := edits.flatMap Edit.records

def pairs : List (EntityId × EntityId) := ((inserted edits).map Record.pair).eraseDups

def firstRecord? (pair : EntityId × EntityId) : Option (Record α) :=
  (inserted edits).find? fun record => record.pair == pair

/-- The owner set last for a range entity, or else that of its first record. -/
def owner? (range : EntityId) : Option UInt64 :=
  (edits.reverse.findSome? (Edit.owner? range)).or
    (((inserted edits).find? fun record => record.range == range).map (·.rangeOwner))

end History

section Insert

variable (c : Correspondence α) (record : Record α) (d r : EntityId)

theorem isNew_iff : c.isNew record = true ↔ c.coordinates? record.domain record.range = none := by
  simp [isNew, coordinates?]

theorem coordinates?_insert : (c.insert record).coordinates? d r =
    if c.isNew record = true ∧ record.pair = (d, r) then some record.coordinates
    else c.coordinates? d r := by
  by_cases hnew : c.isNew record = true
  · by_cases hpair : record.pair = (d, r)
    · simp_all [insert, coordinates?, Record.pair]
    · simp_all [insert, coordinates?, Record.pair, Std.HashMap.getElem?_insert]
  · simp [insert, coordinates?, hnew]

theorem index_insert (s : Side) : (c.insert record).index s =
    if c.isNew record then (c.index s).insert (s.key record.pair)
      (c.side s (s.key record.pair) ++ [s.other record.pair]) else c.index s := by
  rw [insert]
  cases s <;> split <;> rfl

theorem side_insert (s : Side) (k : EntityId) : (c.insert record).side s k =
    if c.isNew record = true ∧ s.key record.pair = k then c.side s k ++ [s.other record.pair]
    else c.side s k := by
  rw [side, index_insert]
  by_cases hnew : c.isNew record = true
  · by_cases hk : s.key record.pair = k
    · simp [hnew, hk]
    · simp [hnew, hk, Std.HashMap.getD_insert, side]
  · simp [hnew, side]

theorem size_insert : (c.insert record).size =
    if c.isNew record = true then c.size + 1 else c.size := by
  by_cases hnew : c.isNew record = true
  · have hmem : (record.domain, record.range) ∉ c.coordinatesOf := by simpa [isNew] using hnew
    simp [insert, size, hnew, Std.HashMap.size_insert, hmem]
  · simp [insert, size, hnew]

theorem rangeOwner?_insert : (c.insert record).rangeOwner? r =
    (c.rangeOwner? r).or (if record.range = r then some record.rangeOwner else none) := by
  have howners : (c.insert record).owners = c.owners.insertIfNew record.range record.rangeOwner := by
    by_cases hnew : c.isNew record = true <;> simp [insert, hnew]
  rw [rangeOwner?, howners, Std.HashMap.getElem?_insertIfNew, rangeOwner?]
  by_cases hr : record.range = r
  · subst hr
    cases h : c.owners[record.range]? with
    | none => simp [Std.HashMap.mem_iff_isSome_getElem?, h]
    | some owner => simp [Std.HashMap.mem_iff_isSome_getElem?, h]
  · simp [hr]

theorem rangeOwner?_extend (records : List (Record α)) : (c.extend records).rangeOwner? r =
    (c.rangeOwner? r).or
      ((records.find? fun record => record.range == r).map (·.rangeOwner)) := by
  induction records generalizing c with
  | nil => simp [extend]
  | cons record records ih =>
    rw [extend, List.foldl_cons]
    change ((c.insert record).extend records).rangeOwner? r = _
    rw [ih, rangeOwner?_insert, Option.or_assoc]
    by_cases hr : record.range = r <;> simp [hr]

theorem rangeOwner?_setRangeOwner (range : EntityId) (owner : UInt64) :
    (c.setRangeOwner range owner).rangeOwner? r =
      if range = r then some owner else c.rangeOwner? r := by
  simp [setRangeOwner, rangeOwner?, Std.HashMap.getElem?_insert]

end Insert

structure Lists (c : Correspondence α) (records : List (Record α)) : Prop where
  coordinates : ∀ d r, c.coordinates? d r =
    (records.find? fun record => record.pair == (d, r)).map (·.coordinates)
  sides : ∀ s k, c.side s k =
    ((records.map Record.pair).eraseDups.filter fun p => s.key p = k).map s.other
  size : c.size = (records.map Record.pair).eraseDups.length

namespace Lists

variable {c : Correspondence α} {records : List (Record α)}

theorem empty : Lists (empty : Correspondence α) [] := by
  constructor
  · simp [Correspondence.empty, coordinates?]
  · rintro (_ | _) k <;> simp [Correspondence.empty, side, index]
  · simp [Correspondence.empty, Correspondence.size]

theorem isNew_iff (h : Lists c records) (record : Record α) :
    c.isNew record = true ↔ record.pair ∉ records.map Record.pair := by
  rw [Correspondence.isNew_iff, h.coordinates, Option.map_eq_none_iff, List.find?_eq_none]
  simp [Record.pair, -Prod.mk.injEq]

theorem insert (h : Lists c records) (record : Record α) :
    Lists (c.insert record) (records ++ [record]) := by
  have hnew := h.isNew_iff record
  have hpairs : ((records ++ [record]).map Record.pair).eraseDups =
      (records.map Record.pair).eraseDups ++ if c.isNew record then [record.pair] else [] := by
    rw [List.map_append, List.map_singleton, eraseDups_concat]
    by_cases hmem : record.pair ∈ records.map Record.pair
    · have hold : c.isNew record = false := by simpa [hmem] using hnew
      simp [hmem, hold]
    · simp [hmem, hnew.mpr hmem]
  constructor
  · intro d r
    rw [coordinates?_insert, h.coordinates, List.find?_append]
    by_cases hpair : record.pair = (d, r)
    · by_cases hmem : record.pair ∈ records.map Record.pair
      · have hold : c.isNew record = false := by simpa [hmem] using hnew
        obtain ⟨first, hfirst⟩ : ∃ first, records.find? (fun x => x.pair == (d, r)) = some first := by
          rw [← Option.isSome_iff_exists, List.find?_isSome]
          simpa [hpair] using hmem
        simp [hold, hfirst]
      · have hnone : records.find? (fun x => x.pair == (d, r)) = none := by
          rw [List.find?_eq_none]
          simpa [hpair] using hmem
        simp [hnew.mpr hmem, hpair, hnone]
    · simp [hpair]
  · intro s k
    rw [side_insert, h.sides, hpairs]
    cases c.isNew record <;> by_cases hk : s.key record.pair = k <;> simp [hk]
  · rw [size_insert, h.size, hpairs]
    cases c.isNew record <;> simp

theorem extend (h : Lists c records) (more : List (Record α)) :
    Lists (c.extend more) (records ++ more) := by
  induction more generalizing c records with
  | nil => simpa [Correspondence.extend] using h
  | cons record more ih => simpa [Correspondence.extend] using ih (h.insert record)

theorem edit (h : Lists c records) (e : Edit α) : Lists (c.edit e) (records ++ e.records) := by
  cases e with
  | insert record => exact h.insert record
  | extend more => exact h.extend more
  | setOwner range owner =>
    rw [Edit.records, List.append_nil]
    refine ⟨h.coordinates, fun s k => ?_, h.size⟩
    rw [← h.sides]
    cases s <;> rfl

end Lists

theorem edited_concat (edits : List (Edit α)) (e : Edit α) :
    edited (edits ++ [e]) = (edited edits).edit e := List.foldl_concat ..

theorem inserted_concat (edits : List (Edit α)) (e : Edit α) :
    inserted (edits ++ [e]) = inserted edits ++ e.records := by
  simp [inserted]

theorem edited_lists (edits : List (Edit α)) : Lists (edited edits) (inserted edits) := by
  induction edits using List.reverseRecOn with
  | nil => exact .empty
  | append_singleton edits e ih =>
    rw [edited_concat, inserted_concat]
    exact ih.edit e

theorem edited_owner (edits : List (Edit α)) (r : EntityId) :
    (edited edits).rangeOwner? r = owner? edits r := by
  induction edits using List.reverseRecOn with
  | nil => simp [edited, empty, rangeOwner?, owner?, inserted]
  | append_singleton edits e ih =>
    rw [edited_concat, owner?, inserted_concat, List.reverse_concat, List.findSome?_cons,
      List.find?_append]
    cases e with
    | insert record =>
      rw [edit, rangeOwner?_insert, ih, owner?]
      by_cases hr : record.range = r <;> simp [Edit.owner?, Edit.records, hr]
    | extend records =>
      rw [edit, rangeOwner?_extend, ih, owner?]
      simp [Edit.owner?, Edit.records, Option.or_assoc, Option.map_or]
    | setOwner range owner =>
      rw [edit, rangeOwner?_setRangeOwner, ih, owner?]
      by_cases hr : range = r <;> simp [Edit.owner?, Edit.records, hr]

/-- Every pair is counted once, by the value that `f` gives it. -/
theorem sum_length_filter (ps : List (EntityId × EntityId)) (f : EntityId × EntityId → EntityId) :
    ∑ k, (ps.filter fun p => f p = k).length = ps.length := by
  have hcount : ∀ k, (ps.filter fun p => f p = k).length =
      ((ps.map f : List EntityId) : Multiset EntityId).count k := by
    intro k
    rw [Multiset.coe_count, List.count, List.countP_map, List.countP_eq_length_filter]
    rfl
  rw [Finset.sum_congr rfl fun k _ => hcount k, Multiset.sum_count_eq_card fun k _ => Finset.mem_univ k]
  simp

section Views

variable (edits : List (Edit α)) (d r : EntityId)

theorem mem_pairs {p : EntityId × EntityId} :
    p ∈ pairs edits ↔ ∃ record ∈ inserted edits, record.pair = p := by
  simp [pairs, List.mem_eraseDups]

theorem mem_side (s : Side) (k o : EntityId) :
    o ∈ (edited edits).side s k ↔ s.pair k o ∈ pairs edits := by
  rw [(edited_lists edits).sides, List.mem_map]
  constructor
  · rintro ⟨p, hp, ho⟩
    obtain ⟨hmem, hk⟩ := List.mem_filter.mp hp
    rwa [← Side.eq_pair_iff.mpr ⟨of_decide_eq_true hk, ho⟩]
  · intro hmem
    obtain ⟨hk, ho⟩ := Side.eq_pair_iff.mp (rfl : s.pair k o = s.pair k o)
    exact ⟨_, List.mem_filter.mpr ⟨hmem, decide_eq_true hk⟩, ho⟩

theorem mem_rangeEntities : r ∈ (edited edits).rangeEntities d ↔ (d, r) ∈ pairs edits :=
  mem_side edits .domain d r

theorem mem_domainEntities : d ∈ (edited edits).domainEntities r ↔ (d, r) ∈ pairs edits :=
  mem_side edits .range r d

theorem isSome_coordinates? :
    ((edited edits).coordinates? d r).isSome ↔ (d, r) ∈ pairs edits := by
  rw [(edited_lists edits).coordinates, Option.isSome_map, List.find?_isSome, mem_pairs]
  simp

theorem nodup_side (s : Side) (k : EntityId) : ((edited edits).side s k).Nodup := by
  rw [(edited_lists edits).sides]
  apply ((nodup_eraseDups _).filter _).map_on
  intro p hp q hq ho
  -- Two pairs with one key that agree in the other part are the same.
  have hkp := of_decide_eq_true (List.mem_filter.mp hp).2
  have hkq := of_decide_eq_true (List.mem_filter.mp hq).2
  exact (Side.eq_pair_iff.mpr ⟨hkp, ho⟩).trans (Side.eq_pair_iff.mpr ⟨hkq, rfl⟩).symm

theorem size_eq_sum_side (s : Side) :
    (edited edits).size = ∑ k, ((edited edits).side s k).length := by
  simp only [(edited_lists edits).sides, (edited_lists edits).size, List.length_map]
  exact (sum_length_filter _ s.key).symm

end Views

/-- After any changes of an empty correspondence: a pair stands on one side
exactly when it stands on the other and has coordinates; no list repeats an id
and each follows the order of first insertion; a record is new exactly when no
record of its pair came before, and the first one gives the coordinates; the
size counts the pairs from either side; the owner of a range entity is the one
set last, or else that of its first record. -/
theorem sides_show_one_relation (edits : List (Edit α)) :
    (∀ d r, (r ∈ (edited edits).rangeEntities d ↔ d ∈ (edited edits).domainEntities r) ∧
      (r ∈ (edited edits).rangeEntities d ↔ ((edited edits).coordinates? d r).isSome)) ∧
    (∀ d, ((edited edits).rangeEntities d).Nodup ∧
      (edited edits).rangeEntities d = ((pairs edits).filter fun p => p.1 = d).map (·.2)) ∧
    (∀ r, ((edited edits).domainEntities r).Nodup ∧
      (edited edits).domainEntities r = ((pairs edits).filter fun p => p.2 = r).map (·.1)) ∧
    (∀ record, (edited edits).isNew record = true ↔
      ∀ earlier ∈ inserted edits, earlier.pair ≠ record.pair) ∧
    (∀ d r, (edited edits).coordinates? d r =
      (firstRecord? edits (d, r)).map (·.coordinates)) ∧
    (edited edits).size = ∑ d, ((edited edits).rangeEntities d).length ∧
    (edited edits).size = ∑ r, ((edited edits).domainEntities r).length ∧
    ∀ r, (edited edits).rangeOwner? r = owner? edits r := by
  have hlists := edited_lists edits
  refine ⟨fun d r => ⟨?_, ?_⟩, fun d => ⟨nodup_side edits .domain d, hlists.sides .domain d⟩,
    fun r => ⟨nodup_side edits .range r, hlists.sides .range r⟩, fun record => ?_,
    hlists.coordinates, size_eq_sum_side edits .domain, size_eq_sum_side edits .range,
    edited_owner edits⟩
  · rw [mem_rangeEntities, mem_domainEntities]
  · rw [mem_rangeEntities, isSome_coordinates?]
  · rw [hlists.isNew_iff]
    simp

end Correspondence

end Vicinity
