import Mathlib

/-!
# Positions

The positions of the items of a list that pass a test. They pick the same items
out of every list that goes along with the items, and sorting finds them again
in whatever order they come.
-/

set_option autoImplicit false

namespace Vicinity

variable {ι τ : Type}

def positions (items : List ι) (test : ι → Bool) : List Nat :=
  (List.range items.length).filter fun i => items[i]?.any test

theorem positions_cons (item : ι) (items : List ι) (test : ι → Bool) :
    positions (item :: items) test =
      (if test item then [0] else []) ++ (positions items test).map (· + 1) := by
  rw [positions, List.length_cons, List.range_succ_eq_map, List.filter_cons, List.filter_map,
    positions]
  by_cases h : test item <;> simp [h, Function.comp_def]

theorem positions_map (f : τ → ι) (items : List τ) (test : ι → Bool) :
    positions (items.map f) test = positions items fun item => test (f item) := by
  simp only [positions, List.length_map, List.getElem?_map, Option.any_map]

/-- Positions pick the same items out of every payload. -/
theorem positions_values (items : List ι) (test : ι → Bool) {values : List τ}
    (hlength : values.length = items.length) :
    (positions items test).filterMap (fun i => values[i]?) =
      ((items.zip values).filter fun item => test item.1).map (·.2) := by
  induction items generalizing values with
  | nil => rfl
  | cons item items ih =>
    obtain ⟨value, rest, rfl⟩ := List.exists_cons_of_length_eq_add_one hlength
    have hrest := ih (show rest.length = items.length by simpa using hlength)
    rw [positions_cons, List.filterMap_append, List.filterMap_map, List.zip_cons_cons]
    by_cases h : test item <;> simp [h, hrest]

theorem positions_aligned (items : List ι) (test : ι → Bool) {values : List τ}
    (hlength : values.length = items.length) :
    ((positions items test).filterMap fun i => values[i]?).map some =
      (positions items test).map fun i => values[i]? := by
  rw [List.map_filterMap_some_eq_filter_map_isSome, List.filter_eq_self]
  intro value hvalue
  obtain ⟨i, hi, rfl⟩ := List.mem_map.mp hvalue
  have hlt : i < items.length := List.mem_range.mp (List.mem_filter.mp hi).1
  simp [hlength, hlt]

theorem positions_eq (items : List ι) (test : ι → Bool) :
    positions items test = (items.zipIdx.filter fun item => test item.1).map (·.2) := by
  rw [positions, List.range_eq_range', ← List.zipIdx_map_snd 0 items, List.filter_map]
  apply congrArg
  apply List.filter_congr
  intro item hitem
  simp [List.mk_mem_zipIdx_iff_getElem?.mp hitem]

theorem positions_ascending (items : List ι) (test : ι → Bool) :
    (positions items test).Pairwise (· < ·) :=
  List.pairwise_lt_range.sublist List.filter_sublist

theorem positions_items (items : List ι) (test : ι → Bool) :
    (positions items test).filterMap (fun i => items[i]?) = items.filter test := by
  have hzip : items.zip items = items.map fun item => (item, item) := by
    simpa using List.zip_map' (f := id) (g := id) (l := items)
  rw [positions_values items test rfl, hzip, List.filter_map, List.map_map]
  exact List.map_id _

/-- Positions in a list that holds one value for each element of another. -/
theorem positions_of_aligned {σ : Type} {xs : List σ} {ys : List τ} {f : σ → Option τ}
    (h : ys.map some = xs.map f) (test : τ → Bool) :
    (positions ys test).map (fun i => xs[i]?) =
      (xs.filter fun x => (f x).any test).map some := by
  induction xs generalizing ys with
  | nil =>
    obtain rfl : ys = [] := by simpa using h
    rfl
  | cons x xs ih =>
    cases ys with
    | nil => cases h
    | cons y ys =>
      obtain ⟨hx, hrest⟩ := List.cons_eq_cons.mp h
      have hnext := ih hrest
      rw [positions_cons, List.map_append, List.map_map, List.filter_cons, ← hx]
      by_cases hy : test y <;> simp [hy, Function.comp_def, hnext]

/-- Looking positions up in a list that holds one value for each element of another. -/
theorem lookup_of_aligned {σ : Type} {xs : List σ} {ys : List τ} {f : σ → Option τ}
    (h : ys.map some = xs.map f) {found : List σ} {is : List Nat}
    (hfound : is.map (fun i => xs[i]?) = found.map some) :
    (is.filterMap fun i => ys[i]?).map some = found.map f := by
  induction is generalizing found with
  | nil =>
    obtain rfl : found = [] := by simpa using hfound
    rfl
  | cons i is ih =>
    cases found with
    | nil => cases hfound
    | cons x found =>
      obtain ⟨hx, hrest⟩ := List.cons_eq_cons.mp hfound
      have hi := congrArg (·[i]?) h
      simp only [List.getElem?_map, hx, Option.map_some] at hi
      obtain ⟨y, hy, hvalue⟩ := Option.map_eq_some_iff.mp hi
      rw [List.filterMap_cons_some hy, List.map_cons, List.map_cons, ih hrest, hvalue]

/-- Sorting finds positions in their order. -/
theorem mergeSort_positions {l : List Nat} {items : List ι} {test : ι → Bool}
    (h : l.Perm (positions items test)) :
    l.mergeSort (fun i j => decide (i ≤ j)) = positions items test := by
  have hsorted : (l.mergeSort fun i j => decide (i ≤ j)).Pairwise (· ≤ ·) :=
    List.pairwise_mergeSort' (· ≤ ·) _
  exact ((List.mergeSort_perm _ _).trans h).eq_of_pairwise (fun _ _ _ _ => le_antisymm) hsorted
    ((positions_ascending items test).imp fun hlt => hlt.le)

end Vicinity
