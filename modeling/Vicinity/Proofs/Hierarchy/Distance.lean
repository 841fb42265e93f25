import Mathlib
import Vicinity.Proofs.Coord.Exact
import Vicinity.Proofs.Coord.Machine
import Vicinity.Proofs.Hierarchy.Overlap

/-!
# Distance

A box is at no greater distance than what it covers, so a distance query that
leaves out subtrees out of reach finds each item within the radius, once. This
needs monotone arithmetic only. With exact arithmetic the distance to a box of
one point is that to the point, and a query over points finds those within the
radius.
-/

set_option autoImplicit false

namespace Vicinity.Hierarchy

variable {α ι : Type} {d : Nat} [Coord α]

section Monotone

variable [MonotoneCoord α]

/-- Wherever the point lies and whatever the radius is, the answer is that of a
scan over all items: the test passes on a box whenever it passes on what the box
covers, and where the square of the radius is a NaN it passes nowhere. -/
theorem withinDistance_matches_scan (items : List (ι × Box α d)) (hsize : items.length ≤ 2 ^ 64)
    (hvalid : ∀ item ∈ items, item.2.isValid = true) :
    ∃ tree, build items = .ok tree ∧ ∀ (p : Point α d) (radius : α),
      (tree.withinDistance p radius).Perm ((items.filter fun item =>
        decide (item.2.distanceSquared p ≤ radius * radius)).map (·.1)) := by
  obtain ⟨tree, hbuild⟩ := exists_build hvalid
  refine ⟨tree, hbuild, fun p radius => ?_⟩
  apply collectWhere_perm hbuild hsize (P := fun b => b.isValid = true)
    (fun _ _ => Box.isValid_union) hvalid
  intro c b _ hb hcovers hnear
  rw [decide_eq_true_eq] at hnear ⊢
  exact OrderedCoord.le_trans (hcovers.distanceSquared_mono hb p) hnear

theorem withinDistance_negative_radius : ∃ tree,
    build [(7, ⟨#v[-Float.inf], #v[0]⟩), (8, ⟨#v[1], #v[2]⟩)] = .ok tree ∧
      tree.withinDistance #v[3] (-1) = [8] ∧ tree.withinDistance #v[3] Float.nan = [] ∧
        (tree.withinDistance #v[Float.nan] 0).Perm [7, 8] := by
  obtain ⟨tree, hbuild, hquery⟩ := withinDistance_matches_scan
    [(7, ⟨#v[-Float.inf], #v[0]⟩), (8, ⟨#v[1], #v[2]⟩)] (by simp) (by decide +kernel)
  refine ⟨tree, hbuild, List.perm_singleton.mp ?_, List.perm_nil.mp ?_, ?_⟩
  · exact (hquery #v[3] (-1)).trans (.of_eq (by decide +kernel))
  · exact (hquery #v[3] Float.nan).trans (.of_eq (by decide +kernel))
  · exact (hquery #v[Float.nan] 0).trans (.of_eq (by decide +kernel))

end Monotone

section Exact

variable [ExactCoord α]

theorem withinDistance_perm {items : List (ι × Box α d)} {tree : Hierarchy α ι d}
    (hbuild : build items = .ok tree) (hsize : items.length ≤ 2 ^ 64)
    (hitems : ∀ item ∈ items, item.2.Proper) {p : Point α d} (hp : p.Finite) (radius : α) :
    (tree.withinDistance p radius).Perm ((items.filter fun item =>
      decide (item.2.distanceSquared p ≤ radius * radius)).map (·.1)) := by
  apply collectWhere_perm hbuild hsize (fun _ _ => Box.Proper.union) hitems
  intro c b hc hb hcovers hnear
  rw [decide_eq_true_eq] at hnear ⊢
  exact OrderedCoord.le_trans (hcovers.distanceSquared_le hc hb hp) hnear

def ofPoints (points : List (Point α d)) : List (Nat × Box α d) :=
  points.zipIdx.map fun (p, i) => (i, Box.ofPoint p)

omit [Coord α] [ExactCoord α] in
@[simp] theorem length_ofPoints (points : List (Point α d)) :
    (ofPoints points).length = points.length := by
  rw [ofPoints, List.length_map, List.length_zipIdx]

omit [Coord α] [ExactCoord α] in
theorem ids_ofPoints (points : List (Point α d)) :
    (ofPoints points).map (·.1) = List.range points.length := by
  rw [ofPoints, List.map_map, List.range_eq_range', ← List.zipIdx_map_snd 0 points]
  rfl

theorem ofPoints_proper {points : List (Point α d)} (h : ∀ p ∈ points, Point.Finite p) :
    ∀ item ∈ ofPoints points, item.2.Proper := by
  intro item hitem
  obtain ⟨⟨p, i⟩, hmem, rfl⟩ := List.mem_map.mp hitem
  exact .ofPoint (h p (List.fst_mem_of_mem_zipIdx hmem))

theorem distance_test {p q : Point α d} (hp : p.Finite) (hq : q.Finite) {radius : α}
    (hr : Coord.isFinite radius = true) :
    (Box.ofPoint p).distanceSquared q ≤ radius * radius ↔
      p.distanceSquared q ≤ radius * radius := by
  have hsquare := (Denotes.of_finite hr).mul (.of_finite hr)
  rw [(Box.distanceSquared_ofPoint hp hq).le_iff hsquare,
    (Point.distanceSquared_denotes hp hq).le_iff hsquare]

theorem withinDistance_points {points : List (Point α d)} {tree : Hierarchy α Nat d}
    (hbuild : build (ofPoints points) = .ok tree) (hsize : points.length ≤ 2 ^ 64)
    (hpoints : ∀ p ∈ points, Point.Finite p) {center : Point α d} (hcenter : center.Finite)
    {radius : α} (hr : Coord.isFinite radius = true) :
    (tree.withinDistance center radius).Perm ((points.zipIdx.filter fun (p, _) =>
      decide (p.distanceSquared center ≤ radius * radius)).map (·.2)) := by
  have hlength : (ofPoints points).length ≤ 2 ^ 64 := by rwa [length_ofPoints]
  apply (withinDistance_perm hbuild hlength (ofPoints_proper hpoints) hcenter radius).trans
  rw [ofPoints, List.filter_map, List.map_map]
  apply List.Perm.of_eq
  apply congrArg
  apply List.filter_congr
  rintro ⟨p, i⟩ hmem
  exact decide_eq_decide.mpr
    (distance_test (hpoints p (List.fst_mem_of_mem_zipIdx hmem)) hcenter hr)

end Exact

end Vicinity.Hierarchy
