import Mathlib
import Vicinity.Proofs.Coord.Machine
import Vicinity.Proofs.Hierarchy.Overlap

/-!
# The nearest items

The best neighbours kept so far are the first ones, by distance and id, of all
neighbours met so far. Offering one more keeps this, and so does leaving out a
subtree whose box is farther away than the worst of a full list: a branch box
is no farther than what it covers, and only a strictly greater distance is
ever left out, so that equal distances are still decided by id. The search
then ends with the first items of a full ranking.
-/

set_option autoImplicit false

namespace Vicinity

namespace Neighbor

variable {α ι : Type} [Coord α] [Ord ι]

def Comparable (a : Neighbor α ι) : Prop := Coord.isNaN a.distance = false

def Ranked (found : List (Neighbor α ι)) : Prop := found.Pairwise fun a b => b.before a = false

theorem insert_perm (a : Neighbor α ι) (best : List (Neighbor α ι)) :
    (insert a best).Perm (a :: best) := by
  induction best with
  | nil => exact .refl _
  | cons b best ih =>
    rw [insert]
    split
    · exact .refl _
    · exact (ih.cons b).trans (.swap a b best)

section Ordered

variable [OrderedCoord α] [Std.TransOrd ι]

theorem not_before_iff {a b : Neighbor α ι} (ha : a.Comparable) (hb : b.Comparable) :
    b.before a = false ↔ a.distance ≤ b.distance ∧
      (b.distance ≤ a.distance → (compare a.id b.id).isLE = true) := by
  have hswap : compare a.id b.id = (compare b.id a.id).swap := Std.OrientedOrd.eq_swap
  have hlt := OrderedCoord.lt_iff_not_le ha hb
  have hlt' := OrderedCoord.lt_iff_not_le hb ha
  rw [before, hswap]
  cases compare b.id a.id <;> simp [hlt, hlt']

theorem not_before_trans {a b c : Neighbor α ι} (ha : a.Comparable) (hb : b.Comparable)
    (hc : c.Comparable) (hab : b.before a = false) (hbc : c.before b = false) :
    c.before a = false := by
  rw [not_before_iff ha hb] at hab
  rw [not_before_iff hb hc] at hbc
  rw [not_before_iff ha hc]
  refine ⟨OrderedCoord.le_trans hab.1 hbc.1, fun hca => ?_⟩
  exact Std.TransCmp.isLE_trans (hab.2 (OrderedCoord.le_trans hbc.1 hca))
    (hbc.2 (OrderedCoord.le_trans hca hab.1))

theorem not_before_of_before {a b : Neighbor α ι} (ha : a.Comparable) (hb : b.Comparable)
    (h : a.before b = true) : b.before a = false := by
  have hswap : compare a.id b.id = (compare b.id a.id).swap := Std.OrientedOrd.eq_swap
  have htotal := OrderedCoord.le_total ha hb
  rw [not_before_iff ha hb]
  by_contra hnot
  have hback : a.before b = false := by
    rw [not_before_iff hb ha]
    cases hids : compare b.id a.id <;> simp [hswap, hids] at hnot ⊢ <;> grind
  rw [h] at hback
  cases hback

theorem not_before_self {a : Neighbor α ι} (ha : a.Comparable) : a.before a = false := by
  rw [not_before_iff ha ha]
  exact ⟨Coord.le_refl ha, fun _ => by simp [Std.ReflOrd.compare_self]⟩

theorem insert_ranked {a : Neighbor α ι} {best : List (Neighbor α ι)} (ha : a.Comparable)
    (hbest : ∀ b ∈ best, b.Comparable) (h : Ranked best) : Ranked (insert a best) := by
  induction best with
  | nil => exact List.pairwise_singleton _ a
  | cons b best ih =>
    obtain ⟨hfirst, htail⟩ := List.pairwise_cons.mp h
    have hb := hbest b List.mem_cons_self
    have hrest := fun c hc => hbest c (List.mem_cons_of_mem b hc)
    rw [insert]
    split
    · next hab =>
      have hle := not_before_of_before ha hb hab
      refine List.pairwise_cons.mpr ⟨fun c hc => ?_, h⟩
      rcases List.mem_cons.mp hc with rfl | hmem
      · exact hle
      · exact not_before_trans ha hb (hrest c hmem) hle (hfirst c hmem)
    · next hab =>
      refine List.pairwise_cons.mpr ⟨fun c hc => ?_, ih hrest htail⟩
      rcases List.mem_cons.mp ((insert_perm a best).mem_iff.mp hc) with rfl | hmem
      · exact Bool.eq_false_iff.mpr hab
      · exact hfirst c hmem

/-- Inserting pushes nobody in front back: as many as there were before are
still no worse than someone who was there. -/
theorem take_insert_le {a : Neighbor α ι} {best : List (Neighbor α ι)} (ha : a.Comparable)
    (hbest : ∀ b ∈ best, b.Comparable) :
    ∀ x ∈ (insert a best).take best.length, ∃ b ∈ best, b.before x = false := by
  induction best with
  | nil => simp
  | cons b best ih =>
    have hb := hbest b List.mem_cons_self
    intro x hx
    rw [insert] at hx
    split at hx
    · next hab =>
      rcases List.mem_cons.mp hx with rfl | hmem
      · exact ⟨b, List.mem_cons_self, not_before_of_before ha hb hab⟩
      · have hmem' := List.mem_of_mem_take hmem
        exact ⟨x, hmem', not_before_self (hbest x hmem')⟩
    · rcases List.mem_cons.mp hx with rfl | hmem
      · exact ⟨x, List.mem_cons_self, not_before_self hb⟩
      · obtain ⟨c, hc, hle⟩ := ih (fun c hc => hbest c (List.mem_cons_of_mem b hc)) x hmem
        exact ⟨c, List.mem_cons_of_mem b hc, hle⟩

theorem exists_ranked {found : List (Neighbor α ι)} (h : ∀ a ∈ found, a.Comparable) :
    ∃ ranking : List (Neighbor α ι), ranking.Perm found ∧ Ranked ranking := by
  induction found with
  | nil => exact ⟨[], .refl [], .nil⟩
  | cons a found ih =>
    obtain ⟨ranking, hperm, hranked⟩ := ih fun b hb => h b (List.mem_cons_of_mem a hb)
    have hcomparable : ∀ b ∈ ranking, b.Comparable := fun b hb =>
      h b (List.mem_cons_of_mem a (hperm.mem_iff.mp hb))
    exact ⟨insert a ranking, (insert_perm a ranking).trans (hperm.cons a),
      insert_ranked (h a List.mem_cons_self) hcomparable hranked⟩

/-- The first `k` of all neighbours met, by distance and id: whoever was left
out comes before none of them. -/
structure FirstOf (k : Nat) (all best : List (Neighbor α ι)) : Prop where
  ranked : Ranked best
  length : best.length = min k all.length
  rest : ∃ rest, (best ++ rest).Perm all ∧ ∀ a ∈ best, ∀ b ∈ rest, b.before a = false

namespace FirstOf

variable {k : Nat} {all best : List (Neighbor α ι)}

omit [OrderedCoord α] [Std.TransOrd ι] in
theorem nil (k : Nat) : FirstOf k [] ([] : List (Neighbor α ι)) where
  ranked := .nil
  length := by simp
  rest := ⟨[], .refl _, by simp⟩

omit [OrderedCoord α] [Std.TransOrd ι] in
theorem congr {all' : List (Neighbor α ι)} (h : FirstOf k all best) (hperm : all.Perm all') :
    FirstOf k all' best where
  ranked := h.ranked
  length := by rw [h.length, hperm.length_eq]
  rest := by
    obtain ⟨rest, hrest, hle⟩ := h.rest
    exact ⟨rest, hrest.trans hperm, hle⟩

theorem offer (h : FirstOf k all best) (hall : ∀ a ∈ all, a.Comparable) {a : Neighbor α ι}
    (ha : a.Comparable) : FirstOf k (a :: all) (Neighbor.offer k a best) := by
  obtain ⟨rest, hrest, hle⟩ := h.rest
  have hlength := h.length
  have hbest : ∀ b ∈ best, b.Comparable := fun b hb =>
    hall b (hrest.mem_iff.mp (List.mem_append_left rest hb))
  have hranked := insert_ranked ha hbest h.ranked
  have hsplit := List.take_append_drop k (insert a best)
  have hperm := insert_perm a best
  constructor
  · exact hranked.sublist (List.take_sublist k _)
  · rw [Neighbor.offer, List.length_take, hperm.length_eq, List.length_cons, List.length_cons]
    omega
  · refine ⟨(insert a best).drop k ++ rest, ?_, ?_⟩
    · rw [Neighbor.offer, ← List.append_assoc, hsplit]
      exact (hperm.append_right rest).trans (hrest.cons a)
    · intro x hx y hy
      rcases List.mem_append.mp hy with hy | hy
      · rw [Ranked, ← hsplit, List.pairwise_append] at hranked
        exact hranked.2.2 x hx y hy
      · -- Someone was left out before, so the list is full and whoever is in it now is no
        -- worse than someone who was in it then.
        have hpos := List.length_pos_of_mem hy
        have hcount := hrest.length_eq
        rw [List.length_append] at hcount
        have hfull : k = best.length := by omega
        rw [Neighbor.offer, hfull] at hx
        obtain ⟨b, hb, hbx⟩ := take_insert_le ha hbest x hx
        have hx' := hperm.mem_iff.mp (List.mem_of_mem_take hx)
        have hcomparable : x.Comparable := by
          rcases List.mem_cons.mp hx' with rfl | hmem
          · exact ha
          · exact hbest x hmem
        exact not_before_trans hcomparable (hbest b hb)
          (hall y (hrest.mem_iff.mp (List.mem_append_right best hy))) hbx (hle b hb y hy)

theorem exists_ranking (h : FirstOf k all best) (hall : ∀ a ∈ all, a.Comparable) :
    ∃ ranking : List (Neighbor α ι), ranking.Perm all ∧ Ranked ranking ∧ best = ranking.take k := by
  obtain ⟨rest, hrest, hle⟩ := h.rest
  have hlength := h.length
  have hcount := hrest.length_eq
  rw [List.length_append] at hcount
  obtain ⟨later, hlater, hranked⟩ := exists_ranked fun b hb =>
    hall b (hrest.mem_iff.mp (List.mem_append_right best hb))
  refine ⟨best ++ later, (hlater.append_left best).trans hrest, ?_, ?_⟩
  · rw [Ranked, List.pairwise_append]
    exact ⟨h.ranked, hranked, fun a ha b hb => hle a ha b (hlater.mem_iff.mp hb)⟩
  · by_cases hfull : k ≤ all.length
    · rw [List.take_left' (by omega)]
    · have hnone : later = [] := List.length_eq_zero_iff.mp (by rw [hlater.length_eq]; omega)
      rw [hnone, List.append_nil, List.take_of_length_le (by omega)]

end FirstOf

end Ordered

variable [MonotoneCoord α] [Std.TransOrd ι] {k : Nat} {all best : List (Neighbor α ι)}

/-- A full list keeps out whatever is farther away than its last entry. -/
theorem FirstOf.skip (h : FirstOf k all best) (hall : ∀ a ∈ all, a.Comparable)
    {more : List (Neighbor α ι)} (hmore : ∀ b ∈ more, b.Comparable) {lower : α}
    (hlower : ∀ b ∈ more, lower ≤ b.distance) (hout : Hierarchy.hopeless k lower best = true) :
    FirstOf k (more ++ all) best := by
  rw [Hierarchy.hopeless] at hout
  split at hout
  · cases hout
  · next worst hlast =>
    rw [Bool.and_eq_true, beq_iff_eq, decide_eq_true_eq] at hout
    obtain ⟨hfull, hfar⟩ := hout
    obtain ⟨front, rfl⟩ := List.getLast?_eq_some_iff.mp hlast
    obtain ⟨rest, hrest, hle⟩ := h.rest
    have hcomparable : ∀ a ∈ front ++ [worst], a.Comparable := fun a ha =>
      hall a (hrest.mem_iff.mp (List.mem_append_left rest ha))
    have hworst := hcomparable worst (by simp)
    have hnear : ∀ a ∈ front ++ [worst], a.distance ≤ worst.distance := by
      intro a ha
      rcases List.mem_append.mp ha with hmem | hmem
      · have hpairs := (List.pairwise_append.mp h.ranked).2.2 a hmem worst List.mem_cons_self
        exact ((not_before_iff (hcomparable a ha) hworst).mp hpairs).1
      · rw [List.mem_singleton.mp hmem]
        exact Coord.le_refl hworst
    constructor
    · exact h.ranked
    · have hlength := h.length
      rw [hfull] at hlength ⊢
      rw [List.length_append]
      omega
    · refine ⟨more ++ rest, ?_, fun a ha b hb => ?_⟩
      · have hmoved := hrest.append_left more
        rw [← List.append_assoc] at hmoved ⊢
        exact (List.perm_append_comm.append_right rest).trans hmoved
      · rcases List.mem_append.mp hb with hb | hb
        · have hfar' := Coord.lt_of_lt_of_le hfar (hlower b hb)
          have hlt := Coord.lt_of_le_of_lt (hnear a ha) hfar'
          have hab := Coord.le_of_lt (hcomparable a ha) (hmore b hb) hlt
          rw [not_before_iff (hcomparable a ha) (hmore b hb)]
          exact ⟨hab, fun hba => absurd hlt (Coord.not_lt_of_le hba)⟩
        · exact hle a ha b hb

end Neighbor

namespace Hierarchy

variable {α ι : Type} {d : Nat} [Coord α] [MonotoneCoord α]

def neighbor (p : Point α d) (box : Box α d) (id : ι) : List (Neighbor α ι) :=
  [⟨box.distanceSquared p, id⟩]

theorem comparable_neighbors {p : Point α d} {nodes : Array (Node α ι d)} {leaves : List Nat} :
    ∀ a ∈ leaves.flatMap (atLeaf (neighbor p) nodes), a.Comparable := by
  intro a ha
  obtain ⟨leaf, -, box, id, -, hmem⟩ := mem_flatMap_atLeaf.mp ha
  rw [List.mem_singleton.mp hmem]
  exact Box.isNaN_distanceSquared box p

/-- No leaf is nearer than the box of a node above it. -/
theorem Nested.le_neighbors {nodes : Array (Node α ι d)} (h : Nested nodes)
    (hvalid : EachBox (fun b => b.isValid = true) nodes) {i : Nat} {leaves : List Nat}
    (hs : Spans nodes i leaves) {node : Node α ι d} (hi : nodes[i]? = some node) (p : Point α d) :
    ∀ a ∈ leaves.flatMap (atLeaf (neighbor p) nodes), node.box.distanceSquared p ≤ a.distance := by
  intro a ha
  obtain ⟨leaf, hmem, box, id, hleaf, hneighbor⟩ := mem_flatMap_atLeaf.mp ha
  obtain ⟨below, hbelow, hcovers⟩ := h.covers_leaf hs hi leaf hmem
  rw [hleaf] at hbelow
  cases hbelow
  rw [List.mem_singleton.mp hneighbor]
  exact hcovers.distanceSquared_mono (hvalid _ _ hleaf) p

variable [Ord ι] [Std.TransOrd ι]

/-- A search below a node meets all leaves there: in whichever order it takes
the children, and whatever it leaves out, the best remain the first of all. -/
theorem nearestBelow_firstOf {nodes : Array (Node α ι d)} (h : Nested nodes)
    (hvalid : EachBox (fun b => b.isValid = true) nodes) (p : Point α d) (k : Nat) {i : Nat}
    {leaves : List Nat} (hs : Spans nodes i leaves) {depth : Nat} (hdepth : leaves.length ≤ depth)
    {all best : List (Neighbor α ι)} (hall : ∀ a ∈ all, a.Comparable)
    (hbest : Neighbor.FirstOf k all best) :
    Neighbor.FirstOf k (leaves.flatMap (atLeaf (neighbor p) nodes) ++ all)
      (nearestBelow nodes p k depth i best) := by
  induction hs generalizing depth all best with
  | @leaf i box id hleaf =>
    cases depth with
    | zero => simp at hdepth
    | succ depth =>
      have hlower := h.le_neighbors hvalid (.leaf hleaf) hleaf p
      simp only [nearestBelow, hleaf]
      split
      · next hfar => exact hbest.skip hall comparable_neighbors hlower hfar
      · have hoffer := hbest.offer hall (a := ⟨box.distanceSquared p, id⟩)
          (Box.isNaN_distanceSquared box p)
        simpa [atLeaf, hleaf, neighbor] using hoffer
  | @branch i left right box ls rs hbranch hl hr ihl ihr =>
    have hlpos := hl.length_pos
    have hrpos := hr.length_pos
    rw [List.length_append] at hdepth
    cases depth with
    | zero => omega
    | succ depth =>
      obtain ⟨l, r, hl', hr', -, -⟩ := h.covers i box left right hbranch
      have hldepth : ls.length ≤ depth := by omega
      have hrdepth : rs.length ≤ depth := by omega
      have hlower := h.le_neighbors hvalid (hl.branch hbranch hr) hbranch p
      have hwith : ∀ {leaves : List Nat}, ∀ a ∈ leaves.flatMap (atLeaf (neighbor p) nodes) ++ all,
          a.Comparable := by
        intro leaves a ha
        rcases List.mem_append.mp ha with ha | ha
        · exact comparable_neighbors a ha
        · exact hall a ha
      simp only [nearestBelow, hbranch, hl', hr']
      split
      · next hfar => exact hbest.skip hall comparable_neighbors hlower hfar
      · rw [List.flatMap_append]
        split
        · have hboth := ihr hrdepth hwith (ihl hldepth hall hbest)
          apply hboth.congr
          rw [← List.append_assoc]
          exact List.perm_append_comm.append_right all
        · have hboth := ihl hldepth hwith (ihr hrdepth hall hbest)
          rw [List.append_assoc]
          exact hboth

def neighbors (p : Point α d) (items : List (ι × Box α d)) : List (Neighbor α ι) :=
  items.map fun item => ⟨item.2.distanceSquared p, item.1⟩

omit [Ord ι] [Std.TransOrd ι] in
theorem comparable_of_mem_neighbors {p : Point α d} {items : List (ι × Box α d)}
    {a : Neighbor α ι} (h : a ∈ neighbors p items) : a.Comparable := by
  obtain ⟨item, -, rfl⟩ := List.mem_map.mp h
  exact Box.isNaN_distanceSquared item.2 p

theorem closest_ranking {items : List (ι × Box α d)} {tree : Hierarchy α ι d}
    (hbuild : build items = .ok tree) (hsize : items.length ≤ 2 ^ 64) (p : Point α d) (k : Nat) :
    ∃ ranking, ranking.Perm (neighbors p items) ∧ Neighbor.Ranked ranking ∧
      tree.closest p k = ranking.take k := by
  suffices hfirst : Neighbor.FirstOf k (neighbors p items) (tree.closest p k) from
    hfirst.exists_ranking fun _ => comparable_of_mem_neighbors
  by_cases hne : items = []
  · subst hne
    cases hbuild
    exact .nil k
  obtain ⟨hvalid, scene, hscene, rfl⟩ := build_ok hbuild hne
  have htree : IsRadixTree scene items (leafOrder scene items) (built scene items) :=
    built_isRadixTree hne hsize
  have hboxes := built_eachBox (P := fun b => b.isValid = true) (fun _ _ => Box.isValid_union)
    hscene hvalid
  have hsearch := nearestBelow_firstOf (built_nested hscene hvalid hsize) hboxes p k htree.spans
    (htree.length_leaves_le hne) (by simp) (.nil k)
  apply hsearch.congr
  rw [List.append_nil, neighbors, List.map_eq_flatMap]
  exact htree.flatMap_leaves (neighbor p)

omit [MonotoneCoord α] [Ord ι] [Std.TransOrd ι] in
theorem isEmpty_iff {items : List (ι × Box α d)} {tree : Hierarchy α ι d}
    (hbuild : build items = .ok tree) (hsize : items.length ≤ 2 ^ 64) :
    tree.isEmpty = true ↔ items = [] := by
  constructor
  · intro hempty
    by_contra hne
    obtain ⟨-, scene, -, rfl⟩ := build_ok hbuild hne
    have htree : IsRadixTree scene items (leafOrder scene items) (built scene items) :=
      built_isRadixTree hne hsize
    have hpos := List.length_pos_iff.mpr hne
    have hnodes := htree.size
    have hnone : (built scene items).size = 0 := Array.isEmpty_iff_size_eq_zero.mp hempty
    omega
  · rintro rfl
    cases hbuild
    rfl

/-- The nearest items are the first ones of all items, ranked by distance and
id, for every count that there is room for. Any other count makes a search of
a tree with items break off. -/
theorem nearest_matches_ranking (items : List (ι × Box α d)) (hsize : items.length ≤ 2 ^ 64)
    (hvalid : ∀ item ∈ items, item.2.isValid = true) :
    ∃ tree, build items = .ok tree ∧ ∀ (p : Point α d) (k : Nat),
      (items = [] ∨ k = 0 ∨ Neighbor.hasRoom k = true →
        ∃ ranking, ranking.Perm (neighbors p items) ∧ Neighbor.Ranked ranking ∧
          tree.nearestWithDistance p k = .ok (ranking.take k) ∧
          tree.nearest p k = .ok ((ranking.take k).map (·.id))) ∧
      (items ≠ [] → k ≠ 0 → Neighbor.hasRoom k = false →
        tree.nearestWithDistance p k = .error .capacity ∧
          tree.nearest p k = .error .capacity) := by
  obtain ⟨tree, hbuild⟩ := exists_build hvalid
  have hempty := isEmpty_iff hbuild hsize
  refine ⟨tree, hbuild, fun p k => ⟨fun hroom => ?_, fun hne hk hroom => ?_⟩⟩
  · obtain ⟨ranking, hperm, hranked, hclosest⟩ := closest_ranking hbuild hsize p k
    have hanswer : tree.nearestWithDistance p k = .ok (ranking.take k) := by
      rw [nearestWithDistance, hclosest, if_pos (by simpa [hempty, or_assoc] using hroom)]
    exact ⟨ranking, hperm, hranked, hanswer, by rw [nearest, hanswer]; rfl⟩
  · have hanswer : tree.nearestWithDistance p k = .error .capacity := by
      rw [nearestWithDistance, if_neg (by simp [hempty, hne, hk, hroom])]
    exact ⟨hanswer, by rw [nearest, hanswer]; rfl⟩

theorem nearest_ranks_ties : ∃ tree,
    build [(9, ⟨#v[(1 : Float)], #v[2]⟩), (3, ⟨#v[1], #v[1]⟩), (5, ⟨#v[-2], #v[-1]⟩)] = .ok tree ∧
      tree.nearest #v[0] 2 = .ok [3, 5] := by
  obtain ⟨tree, hbuild, hsearch⟩ := nearest_matches_ranking
    [(9, ⟨#v[(1 : Float)], #v[2]⟩), (3, ⟨#v[1], #v[1]⟩), (5, ⟨#v[-2], #v[-1]⟩)]
    (by simp) (by decide +kernel)
  obtain ⟨ranking, hperm, hranked, -, hnearest⟩ :=
    (hsearch #v[0] 2).1 (.inr (.inr (by decide)))
  have hlater : ∀ a ∈ neighbors #v[(0 : Float)] [(9, ⟨#v[1], #v[2]⟩), (3, ⟨#v[1], #v[1]⟩),
      (5, ⟨#v[-2], #v[-1]⟩)], ∀ b ∈ neighbors #v[(0 : Float)] [(9, ⟨#v[1], #v[2]⟩),
      (3, ⟨#v[1], #v[1]⟩), (5, ⟨#v[-2], #v[-1]⟩)], b.before a = false → a.id ≤ b.id := by
    decide +kernel
  have hsorted : (ranking.map (·.id)).Pairwise (· ≤ ·) := by
    rw [List.pairwise_map]
    exact hranked.imp_of_mem fun ha hb h =>
      hlater _ (hperm.mem_iff.mp ha) _ (hperm.mem_iff.mp hb) h
  have hids : ranking.map (·.id) = [3, 5, 9] :=
    List.Perm.eq_of_pairwise' hsorted (by decide) ((hperm.map (·.id)).trans (by decide))
  rw [List.map_take, hids] at hnearest
  exact ⟨tree, hbuild, hnearest⟩

/-- One item, and far more asked for: the search itself finds the item, but it
never starts, because the room set aside is for the count asked for. -/
theorem nearest_out_of_room : ∃ tree, build [(7, Box.ofPoint #v[(0.5 : Float)])] = .ok tree ∧
    (tree.closest #v[0.5] (2 ^ 60)).map (·.id) = [7] ∧
    tree.nearestWithDistance #v[0.5] (2 ^ 60) = .error .capacity ∧
    tree.nearest #v[0.5] (2 ^ 60) = .error .capacity := by
  refine ⟨_, rfl, ?_, ?_, ?_⟩
  · decide +kernel
  · exact if_neg (by decide +kernel)
  · decide +kernel

end Hierarchy

end Vicinity
