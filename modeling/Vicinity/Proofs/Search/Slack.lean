import Mathlib
import Vicinity.Proofs.Coord.Division
import Vicinity.Proofs.Search.BruteForce

/-!
# The slack of queries and of reference frames

A query is widened by the size of its range entity, a reference frame by the
size of the domain entity. A centroid that a domain entity accepts may so lie
farther outside of it than the query reaches. This happens exactly where on
some axis the tolerance, taken of the domain box, exceeds the padding and half
of the range box together, and nowhere when no side of the domain box is longer
than both one and the longest side of the range box.
-/

set_option autoImplicit false

namespace Vicinity

variable {α : Type} [Coord α]

/-- The padding of a range box and half of the box reach as far as the
tolerance does in the frame of a domain box. -/
def Session.MakesUp (tolerance : α) (domain range : Box α 3) : Prop :=
  ∀ i, tolerance * domain.extents.get i ≤
    padding tolerance range + Coord.half * range.extents.get i

noncomputable def slack (tolerance side : ℝ) : ℝ := if 0 < side then tolerance * side else tolerance

variable [ExactField α]

section Values

variable {tolerance : α} {t : ℝ} {b : Box α 3} {p : Point α 3} {d e : Entity α}

theorem tolerance_denotes {config : SearchConfig α} (h : config.validate = .ok ()) :
    ∃ t, Denotes config.tolerance t ∧ 0 ≤ t := by
  obtain ⟨hfinite, hpositive⟩ : Coord.isFinite config.tolerance = true ∧
      ¬ config.tolerance < Coord.zero := by
    unfold SearchConfig.validate at h
    split at h
    · cases h
    · next hrejected => simpa using hrejected
  refine ⟨_, .of_finite hfinite, not_lt.mp ?_⟩
  rwa [← (Denotes.of_finite hfinite).lt_iff .zero]

theorem padding_denotes (ht : Denotes tolerance t) (hb : b.Proper) :
    Denotes (Session.padding tolerance b) (max (t * b.longest) t) :=
  (ht.mul hb.largestExtent_denotes).greater ht

theorem center_denotes (he : e.bounds.Proper) (i : Fin 3) : Denotes ((LocalMap.center e).get i)
    ((e.bounds.lower.values i + e.bounds.upper.values i) / 2) := by
  unfold Entity.bounds at he ⊢
  unfold LocalMap.center
  cases hshape : e.shape with
  | point p =>
    rw [hshape] at he
    have hp : Denotes (p.get i) (p.values i) := he.lower.denotes i
    simpa [Box.ofPoint] using hp
  | box b =>
    rw [hshape] at he
    exact he.centroid_denotes i
  | cell b =>
    rw [hshape] at he
    exact he.centroid_denotes i

/-- On a flat axis a reference coordinate is the offset from the lower corner, on
any other its share of the side. -/
theorem toUnitCube_denotes (hb : b.Proper) (hp : p.Finite) (i : Fin 3) :
    Denotes ((LocalMap.toUnitCube b p).get i)
      (if 0 < b.side i then (p.values i - b.lower.values i) / b.side i
        else p.values i - b.lower.values i) := by
  have hoffset := (hp.denotes i).sub (hb.lower.denotes i)
  have hextent : Denotes (b.upper.get i - b.lower.get i) (b.side i) :=
    (hb.upper.denotes i).sub (hb.lower.denotes i)
  have hreference : (LocalMap.toUnitCube b p).get i =
      if Coord.zero < b.upper.get i - b.lower.get i then
        (p.get i - b.lower.get i) / (b.upper.get i - b.lower.get i)
      else p.get i - b.lower.get i := by
    simp [LocalMap.toUnitCube, Vector.get_eq_getElem]
  simp only [hreference, Denotes.zero.lt_iff hextent]
  split
  · next hpositive => exact hoffset.div hextent hpositive.ne'
  · exact hoffset

/-- On one axis the reference coordinate is within its bounds when the point is
within the slack. -/
theorem inUnit_iff (hb : b.Proper) (hp : p.Finite) (ht : Denotes tolerance t) (i : Fin 3) :
    -tolerance ≤ (LocalMap.toUnitCube b p).get i ∧ (LocalMap.toUnitCube b p).get i ≤
        (if b.lower.get i < b.upper.get i then Coord.one else Coord.zero) + tolerance ↔
      b.lower.values i - slack t (b.side i) ≤ p.values i ∧
        p.values i ≤ b.upper.values i + slack t (b.side i) := by
  have hreference := toUnitCube_denotes hb hp i
  have hside : b.side i = b.upper.values i - b.lower.values i := rfl
  rw [ht.neg.le_iff hreference]
  simp only [(hb.lower.denotes i).lt_iff (hb.upper.denotes i), ← sub_pos (b := b.lower.values i),
    ← hside]
  by_cases hpositive : 0 < b.side i
  · simp only [if_pos hpositive] at hreference ⊢
    rw [hreference.le_iff (Denotes.one.add ht), slack, if_pos hpositive, le_div_iff₀ hpositive,
      div_le_iff₀ hpositive]
    constructor <;> rintro ⟨hlower, hupper⟩ <;> constructor <;> linarith
  · have hflat : b.side i = 0 := le_antisymm (not_lt.mp hpositive) (hb.side_nonneg i)
    simp only [if_neg hpositive] at hreference ⊢
    rw [hreference.le_iff (Denotes.zero.add ht), slack, if_neg hpositive]
    constructor <;> rintro ⟨hlower, hupper⟩ <;> constructor <;> linarith

/-- A box accepts a point when it is within the slack on every axis. -/
theorem isInUnitCube_iff (hb : b.Proper) (hp : p.Finite) (ht : Denotes tolerance t) :
    LocalMap.isInUnitCube b (LocalMap.toUnitCube b p) tolerance = true ↔
      ∀ i, b.lower.values i - slack t (b.side i) ≤ p.values i ∧
        p.values i ≤ b.upper.values i + slack t (b.side i) := by
  simp only [LocalMap.isInUnitCube, List.all_eq_true, Bool.and_eq_true, decide_eq_true_eq,
    List.mem_finRange, true_imp_iff]
  exact forall_congr' (inUnit_iff hb hp ht)

omit [ExactField α] in
theorem locate_box (h : d.shape = .box b) : LocalMap.basic.locate d p tolerance =
    .ok (if LocalMap.isInUnitCube b (LocalMap.toUnitCube b p) tolerance then
      some (LocalMap.toUnitCube b p) else none) := by
  simp only [LocalMap.basic, h]
  rfl

omit [ExactField α] in
theorem locate_inside (h : d.shape = .box b)
    (hinside : LocalMap.isInUnitCube b (LocalMap.toUnitCube b p) tolerance = true) :
    LocalMap.basic.locate d p tolerance = .ok (some (LocalMap.toUnitCube b p)) := by
  rw [locate_box h, if_pos hinside]

omit [ExactField α] in
theorem locate_point {q : Point α 3} (h : d.shape = .point q) :
    LocalMap.basic.locate d p tolerance =
      .ok (if ∀ i, Coord.abs (p.get i - q.get i) ≤ tolerance then
        some (Vector.ofFn fun i => p.get i - q.get i) else none) := by
  simp [LocalMap.basic, h, Except.map, Vector.get_eq_getElem]

omit [ExactField α] in
theorem near_of_locate {q x : Point α 3} (hshape : d.shape = .point q)
    (h : LocalMap.basic.locate d p tolerance = .ok (some x)) (i : Fin 3) :
    Coord.abs (p.get i - q.get i) ≤ tolerance := by
  rw [locate_point hshape, Except.ok.injEq, Option.ite_none_right_eq_some] at h
  exact h.1 i

/-- Only within the slack of its bounds a point or a box accepts a point. -/
theorem slack_of_locate (hd : d.bounds.Proper) (hp : p.Finite) (ht : Denotes tolerance t)
    {x : Point α 3} (h : LocalMap.basic.locate d p tolerance = .ok (some x)) (i : Fin 3) :
    d.bounds.lower.values i - slack t (d.bounds.side i) ≤ p.values i ∧
      p.values i ≤ d.bounds.upper.values i + slack t (d.bounds.side i) := by
  cases hshape : d.shape with
  | point q =>
    have hbounds : d.bounds = Box.ofPoint q := by rw [Entity.bounds, hshape]
    rw [hbounds] at hd ⊢
    have hq : Denotes (q.get i) (q.values i) := hd.lower.denotes i
    have hflat : ¬ 0 < (Box.ofPoint q).side i := by simp [Box.side, Box.ofPoint]
    have hnear : |p.values i - q.values i| ≤ t := by
      rw [← ((hp.denotes i).sub hq).abs.le_iff ht]
      exact near_of_locate hshape h i
    rw [slack, if_neg hflat]
    have hle := abs_le.mp hnear
    constructor
    · change q.values i - t ≤ p.values i
      linarith
    · change p.values i ≤ q.values i + t
      linarith
  | box b =>
    have hbounds : d.bounds = b := by rw [Entity.bounds, hshape]
    rw [hbounds] at hd ⊢
    rw [locate_box hshape] at h
    have hinside : LocalMap.isInUnitCube b (LocalMap.toUnitCube b p) tolerance = true := by
      by_contra houtside
      simp [houtside] at h
    exact (isInUnitCube_iff hd hp ht).mp hinside i
  | cell b => simp [LocalMap.basic, hshape, Except.map] at h

theorem meets_expanded_iff {c : Box α 3} {amount : α} {x : ℝ} (hb : b.Proper) (hc : c.Proper)
    (hamount : Denotes amount x) : b.meets (c.expanded amount) = true ↔
      ∀ i, b.lower.values i ≤ c.upper.values i + x ∧ c.lower.values i - x ≤ b.upper.values i := by
  simp only [Box.meets, List.all_eq_true, Bool.and_eq_true, decide_eq_true_eq, List.mem_finRange,
    true_imp_iff]
  apply forall_congr'
  intro i
  have hupper := (hc.upper.denotes i).add hamount
  have hlower := (hc.lower.denotes i).sub hamount
  rw [← (hb.lower.denotes i).le_iff hupper, ← hlower.le_iff (hb.upper.denotes i)]
  simp [Box.expanded, Vector.get_eq_getElem]

end Values

section Compare

variable {tolerance : α} {t : ℝ} {b c : Box α 3}

theorem makesUp_iff (hb : b.Proper) (hc : c.Proper) (ht : Denotes tolerance t) :
    Session.MakesUp tolerance b c ↔
      ∀ i, t * b.side i ≤ max (t * c.longest) t + c.side i / 2 := by
  apply forall_congr'
  intro i
  rw [(ht.mul (hb.extents_denotes i)).le_iff
    ((padding_denotes ht hc).add (Denotes.half.mul (hc.extents_denotes i))), one_div_mul_eq_div]

/-- A domain box of which no side is longer than one or than the longest side
of the range box is small enough. -/
theorem makesUp_of_small (hb : b.Proper) (hc : c.Proper) (ht : Denotes tolerance t)
    (hpositive : 0 ≤ t) (h : ∀ i, b.extents.get i ≤ Coord.one ∨
      b.extents.get i ≤ c.largestExtent) : Session.MakesUp tolerance b c := by
  rw [makesUp_iff hb hc ht]
  intro i
  have hhalf := hc.side_nonneg i
  rcases h i with hone | hlongest
  · rw [(hb.extents_denotes i).le_iff .one] at hone
    have hproduct := mul_le_of_le_one_right hpositive hone
    linarith [le_max_right (t * c.longest) t]
  · rw [(hb.extents_denotes i).le_iff hc.largestExtent_denotes] at hlongest
    have hproduct := mul_le_mul_of_nonneg_left hlongest hpositive
    linarith [le_max_left (t * c.longest) t]

theorem slack_le (hc : c.Proper) {i : Fin 3}
    (h : t * b.side i ≤ max (t * c.longest) t + c.side i / 2) :
    slack t (b.side i) ≤ max (t * c.longest) t + c.side i / 2 := by
  unfold slack
  split
  · exact h
  · linarith [le_max_right (t * c.longest) t, hc.side_nonneg i]

/-- Where the padding makes up for the slack, an accepted centroid is met. -/
theorem meets_of_locate {d e : Entity α} (hd : d.bounds.Proper) (he : e.bounds.Proper)
    (ht : Denotes tolerance t) (hslack : Session.MakesUp tolerance d.bounds e.bounds)
    {x : Point α 3} (h : LocalMap.basic.locate d (LocalMap.center e) tolerance = .ok (some x)) :
    d.bounds.meets (e.bounds.expanded (Session.padding tolerance e.bounds)) = true := by
  rw [meets_expanded_iff hd he (padding_denotes ht he)]
  intro i
  have hcenter : (LocalMap.center e).values i =
      (e.bounds.lower.values i + e.bounds.upper.values i) / 2 := (center_denotes he i).2
  have hinside := slack_of_locate hd (fun i => (center_denotes he i).1) ht h i
  have hreach := slack_le he ((makesUp_iff hd he ht).mp hslack i)
  have hside : e.bounds.side i = e.bounds.upper.values i - e.bounds.lower.values i := rfl
  rw [hcenter] at hinside
  constructor <;> linarith

def Box.around (b : Box α 3) (p : Point α 3) : Box α 3 :=
  ⟨Vector.ofFn fun i => p.get i - Coord.half * b.extents.get i,
    Vector.ofFn fun i => p.get i + Coord.half * b.extents.get i⟩

/-- As far outside of a box as its frame accepts on one axis, and at its lower
corner on the others. -/
def Box.outpost (b : Box α 3) (tolerance : α) (axis : Fin 3) : Point α 3 :=
  Vector.ofFn fun i =>
    if i = axis then b.lower.get i - tolerance * b.extents.get i else b.lower.get i

section Around

variable {p : Point α 3} (hp : p.Finite) (hc : c.Proper)

include hp hc

theorem around_denotes (i : Fin 3) :
    Denotes ((c.around p).lower.get i) (p.values i - c.side i / 2) ∧
      Denotes ((c.around p).upper.get i) (p.values i + c.side i / 2) := by
  have hx := hp.denotes i
  have hhalf := Denotes.half.mul (hc.extents_denotes i)
  rw [one_div_mul_eq_div] at hhalf
  constructor
  · simpa [Box.around, Vector.get_eq_getElem] using hx.sub hhalf
  · simpa [Box.around, Vector.get_eq_getElem] using hx.add hhalf

theorem around_lower (i : Fin 3) : (c.around p).lower.values i = p.values i - c.side i / 2 :=
  (around_denotes hp hc i).1.2

theorem around_upper (i : Fin 3) : (c.around p).upper.values i = p.values i + c.side i / 2 :=
  (around_denotes hp hc i).2.2

theorem around_side (i : Fin 3) : (c.around p).side i = c.side i := by
  rw [Box.side, around_lower hp hc, around_upper hp hc]
  ring

theorem around_proper : (c.around p).Proper := by
  refine ⟨fun i => (around_denotes hp hc i).1.1, fun i => (around_denotes hp hc i).2.1, fun i => ?_⟩
  rw [around_lower hp hc, around_upper hp hc]
  linarith [hc.side_nonneg i]

theorem around_centroid (i : Fin 3) : (c.around p).centroid.values i = p.values i := by
  have hcentroid : (c.around p).centroid.values i =
      ((c.around p).lower.values i + (c.around p).upper.values i) / 2 :=
    ((around_proper hp hc).centroid_denotes i).2
  rw [hcentroid, around_lower hp hc, around_upper hp hc]
  ring

end Around

theorem outpost_denotes (hb : b.Proper) (ht : Denotes tolerance t) (axis i : Fin 3) :
    Denotes ((b.outpost tolerance axis).get i)
      (if i = axis then b.lower.values i - t * b.side i else b.lower.values i) := by
  have hl := hb.lower.denotes i
  by_cases hi : i = axis
  · subst hi
    simpa [Box.outpost, Vector.get_eq_getElem] using hl.sub (ht.mul (hb.extents_denotes i))
  · simpa [Box.outpost, Vector.get_eq_getElem, hi] using hl

theorem outpost_values (hb : b.Proper) (ht : Denotes tolerance t) (axis i : Fin 3) :
    (b.outpost tolerance axis).values i =
      if i = axis then b.lower.values i - t * b.side i else b.lower.values i :=
  (outpost_denotes hb ht axis i).2

theorem slack_nonneg (hpositive : 0 ≤ t) {side : ℝ} (hside : 0 ≤ side) : 0 ≤ slack t side := by
  unfold slack
  split
  · exact mul_nonneg hpositive hside
  · exact hpositive

theorem outpost_within (hb : b.Proper) (ht : Denotes tolerance t) (hpositive : 0 ≤ t)
    {axis : Fin 3} (hlong : 0 < b.side axis) (i : Fin 3) :
    b.lower.values i - slack t (b.side i) ≤ (b.outpost tolerance axis).values i ∧
      (b.outpost tolerance axis).values i ≤ b.upper.values i + slack t (b.side i) := by
  have hslack := slack_nonneg hpositive (hb.side_nonneg i)
  have hordered := hb.ordered i
  rw [outpost_values hb ht]
  by_cases hi : i = axis
  · subst hi
    have hproduct := mul_nonneg hpositive hlong.le
    rw [if_pos rfl, slack, if_pos hlong]
    constructor <;> linarith
  · rw [if_neg hi]
    constructor <;> linarith

/-- Where the padding does not make up for the slack, some range box with the
same sides is accepted but not met. -/
theorem exists_missed {d : Entity α} (hshape : d.shape = .box b) (hb : b.Proper) (hc : c.Proper)
    (ht : Denotes tolerance t) (hpositive : 0 ≤ t) (h : ¬ Session.MakesUp tolerance b c) :
    ∃ c' : Box α 3, c'.Proper ∧ (∀ i, c'.side i = c.side i) ∧
      (∃ x, LocalMap.basic.locate d c'.centroid tolerance = .ok (some x)) ∧
      b.meets (c'.expanded (Session.padding tolerance c')) = false := by
  rw [makesUp_iff hb hc ht] at h
  push Not at h
  obtain ⟨axis, haxis⟩ := h
  have hlong : 0 < b.side axis := by
    apply lt_of_le_of_ne (hb.side_nonneg axis)
    intro hflat
    rw [← hflat, mul_zero] at haxis
    linarith [le_max_right (t * c.longest) t, hc.side_nonneg axis]
  have hp : (b.outpost tolerance axis).Finite := fun i => (outpost_denotes hb ht axis i).1
  have hproper := around_proper hp hc
  have hsides := around_side hp hc
  refine ⟨c.around (b.outpost tolerance axis), hproper, hsides, ⟨_, locate_inside hshape ?_⟩, ?_⟩
  · apply (isInUnitCube_iff hb (fun i => (hproper.centroid_denotes i).1) ht).mpr
    intro i
    rw [around_centroid hp hc]
    exact outpost_within hb ht hpositive hlong i
  · have hlongest : (c.around (b.outpost tolerance axis)).longest = c.longest := by
      simp only [Box.longest, hsides]
    rw [← Bool.not_eq_true, meets_expanded_iff hb hproper (padding_denotes ht hproper)]
    intro hmeets
    have hreach := (hmeets axis).1
    rw [around_upper hp hc, outpost_values hb ht, if_pos rfl, hlongest] at hreach
    linarith

end Compare

section Reports

variable {n : Nat} {shares : Fin n → Share α} {requests : Fin n → Request α}

omit [ExactField α]

theorem mem_records {p s : Share α} {request : Request α} {d e : Entity α} {x : Point α 3}
    (hp : p.map = .basic) (hs : request.2 = .basic) (hd : d ∈ p.domain) (he : e ∈ s.range request)
    (hmeets : d.bounds.meets (s.widened e) = true)
    (hlocate : LocalMap.basic.locate d (LocalMap.center e) p.config.tolerance = .ok (some x)) :
    ⟨d.id, e.id, e.owner, x⟩ ∈ p.records s request := by
  refine List.mem_flatMap.mpr ⟨e, he, List.mem_filterMap.mpr ⟨d, hd, ?_⟩⟩
  have hcentroid : request.2.centroid e = .ok (LocalMap.center e) := by
    rw [hs]
    rfl
  simp only [Share.record?, if_pos hmeets, hcentroid, hp, hlocate]

structure Searchable (config : SearchConfig α) (shares : Fin n → Share α)
    (requests : Fin n → Request α) : Prop where
  config : ∀ r, (shares r).config = config
  valid : ∀ r, ∀ d ∈ (shares r).domain, d.bounds.isValid = true
  few : ∀ r, (shares r).domain.length < UInt64.size
  answerable : Answerable shares requests

theorem Searchable.finishes [OrderedCoord α] [Codec α] (hcodec : ∀ x : α, Codec.RoundTrips x)
    {config : SearchConfig α} (hconfig : config.validate = .ok ())
    (h : Searchable config shares requests) : ∃ sessions : Fin n → Session α n,
      Routine.Finishes (fun r => Share.searches r (shares r) [requests r])
        (fun r => [(.ok (), sessions r)]) ∧
      ∀ r, (sessions r).correspondence = bruteForce shares requests r := by
  choose trees hbuild using fun r => Hierarchy.exists_build (Share.items_valid (h.valid r))
  have hconfigs : ∀ r, (shares r).config.validate = .ok () := fun r => by rw [h.config, hconfig]
  have hstart := Session.start_finishes hcodec hconfigs hbuild
  have hrounds : ∀ q ∈ [requests], Answerable shares q := by simpa using h.answerable
  have hsearch := Session.searchAll_completes hcodec hbuild h.few hrounds
    (fun _ => .empty) fun _ => []
  have hall := hstart.bind (f := fun r session => ExceptT.lift (session.searchAll [requests r]))
    (Routine.Finishes.lift hsearch)
  exact ⟨fun r => Session.holding shares trees r (bruteForce shares requests r)
    (unmatchedBy shares requests r), hall, fun _ => rfl⟩

end Reports

/-- With exact arithmetic and one accepted tolerance, a query reaches every
domain entity that accepts the centroid of its range entity, provided that the
padding makes up for the slack of the domain box, as it does where no side of
that is longer than both one and the longest side of the range box. However the
steps of the ranks interleave, the rank that asked and the rank with the domain
entity then both report the pair. Otherwise a box with the same sides as the
range entity's is accepted somewhere but not reached. -/
theorem accepted_pairs_are_reported [Codec α] (hcodec : ∀ x : α, Codec.RoundTrips x)
    (config : SearchConfig α) (hconfig : config.validate = .ok ()) (d e : Entity α)
    (hshape : ∀ c, d.shape ≠ .cell c) (hd : d.bounds.Proper) (he : e.bounds.Proper) :
    ((∀ i, d.bounds.extents.get i ≤ Coord.one ∨
        d.bounds.extents.get i ≤ e.bounds.largestExtent) →
      Session.MakesUp config.tolerance d.bounds e.bounds) ∧
    (Session.MakesUp config.tolerance d.bounds e.bounds → ∀ x,
      (LocalMap.basic.centroid e >>= fun p => LocalMap.basic.locate d p config.tolerance) =
        .ok (some x) →
      d.bounds.meets (e.bounds.expanded (Session.padding config.tolerance e.bounds)) = true ∧
      ∀ (n : Nat) (shares : Fin n → Share α) (requests : Fin n → Request α) (p s : Fin n),
        Searchable config shares requests → (shares p).map = .basic → (requests s).2 = .basic →
        d ∈ (shares p).domain → e ∈ (shares s).range (requests s) →
        ∃ letters final, ∃ sessions : Fin n → Session α n,
          (Network.start fun r => (Share.searches r (shares r) [requests r]).run).Settles
            letters final ∧
          (∀ r, final.programs.get r = .done (.ok [(.ok (), sessions r)])) ∧
          ∀ r, r = p ∨ r = s →
            e.id ∈ (sessions r).correspondence.rangeEntities d.id ∧
            d.id ∈ (sessions r).correspondence.domainEntities e.id) ∧
    (¬ Session.MakesUp config.tolerance d.bounds e.bounds → ∃ c : Box α 3,
      c.Proper ∧ (∀ i, c.side i = e.bounds.side i) ∧
      (∃ x, (LocalMap.basic.centroid { e with shape := .box c } >>= fun p =>
        LocalMap.basic.locate d p config.tolerance) = .ok (some x)) ∧
      d.bounds.meets (c.expanded (Session.padding config.tolerance c)) = false) := by
  obtain ⟨t, ht, hpositive⟩ := tolerance_denotes hconfig
  have hsmall := makesUp_of_small hd he ht hpositive
  refine ⟨hsmall, fun hslack x hlocate => ?_, fun hshort => ?_⟩
  · have hmeets := meets_of_locate hd he ht hslack hlocate
    refine ⟨hmeets, fun n shares requests p s hsearch hp hs hdomain hrange => ?_⟩
    have hrecord : ⟨d.id, e.id, e.owner, x⟩ ∈ (shares p).records (shares s) (requests s) := by
      apply mem_records hp hs hdomain hrange
      · rwa [Share.widened, hsearch.config]
      · rwa [hsearch.config]
    obtain ⟨sessions, ⟨letters, hall⟩, hfound⟩ := hsearch.finishes hcodec hconfig
    obtain ⟨final, hsettles, -, hdone⟩ := hall.settles
    refine ⟨letters, final, sessions, hsettles, hdone, fun r hr => ?_⟩
    rw [hfound]
    exact bruteForce_reports hrecord hr
  · cases hd' : d.shape with
    | point q =>
      have hbounds : d.bounds = Box.ofPoint q := by rw [Entity.bounds, hd']
      refine (hshort (hsmall fun i => .inl ?_)).elim
      rw [(hd.extents_denotes i).le_iff .one, hbounds]
      simp [Box.side, Box.ofPoint]
    | box b =>
      have hbounds : d.bounds = b := by rw [Entity.bounds, hd']
      rw [hbounds] at hd hshort ⊢
      exact exists_missed hd' hd he ht hpositive hshort
    | cell c => exact (hshape c hd').elim

def halfTolerance : SearchConfig ℚ := ⟨1 / 2, none, none, false⟩

theorem halfTolerance_accepted : halfTolerance.validate = .ok () := if_neg (by decide +kernel)

def place (x y z : ℚ) : Point ℚ 3 := #v[x, y, z]

def longBox : Entity ℚ := .ofBox 1 0 ⟨place 0 0 0, place 8 1 1⟩

def longShare : Share ℚ := ⟨[longBox], .basic, halfTolerance⟩

def outlyingPoint : Entity ℚ := .ofPoint 7 0 (place (-3) (1 / 2) (1 / 2)) false

/-- A long box accepts a point that lies farther in front of it than the query
for the point reaches, and the pair is not found. -/
theorem outlying_point_missed : halfTolerance.validate = .ok () ∧
    longBox.bounds.Proper ∧ outlyingPoint.bounds.Proper ∧
    (LocalMap.basic.centroid outlyingPoint >>= fun p =>
      LocalMap.basic.locate longBox p halfTolerance.tolerance) =
        .ok (some (place (-3 / 8) (1 / 2) (1 / 2))) ∧
    longBox.bounds.meets (outlyingPoint.bounds.expanded
      (Session.padding halfTolerance.tolerance outlyingPoint.bounds)) = false ∧
    longShare.records longShare ([outlyingPoint], .basic) = [] := by
  have hlocate : LocalMap.basic.locate longBox (LocalMap.center outlyingPoint)
      halfTolerance.tolerance = .ok (some (place (-3 / 8) (1 / 2) (1 / 2))) := by
    rw [locate_inside rfl (by decide +kernel)]
    apply congrArg (Except.ok ∘ some)
    decide +kernel
  have hmiss : longBox.bounds.meets (outlyingPoint.bounds.expanded
      (Session.padding halfTolerance.tolerance outlyingPoint.bounds)) = false := by decide +kernel
  refine ⟨halfTolerance_accepted, .ofRational (by decide +kernel), .ofRational (by decide +kernel),
    hlocate, hmiss, ?_⟩
  have hdomain : longShare.domain = [longBox] := rfl
  have hrange : longShare.range ([outlyingPoint], .basic) = [outlyingPoint] := rfl
  have hnone : longShare.record? longShare .basic outlyingPoint longBox = none :=
    Share.record?_of_not_meets (ne_true_of_eq_false hmiss)
  simp [Share.records, hdomain, hrange, hnone]

def shortBox : Entity ℚ := .ofBox 1 0 ⟨place 0 0 0, place 2 1 1⟩

def besideBox : Entity ℚ := .ofBox 7 1 ⟨place (-3 / 2) 0 0, place (-1 / 2) 1 1⟩

def besideShares (r : Fin 2) : Share ℚ where
  entities := if r.val = 0 then [shortBox] else []
  map := .basic
  config := halfTolerance

def besideRequests (r : Fin 2) : Request ℚ := (if r.val = 0 then [] else [besideBox], .basic)

theorem besideShares_searchable : Searchable halfTolerance besideShares besideRequests := by
  refine ⟨fun _ => rfl, by decide +kernel, by decide +kernel, ?_⟩
  constructor
  · decide +kernel
  · intro s e _
    exact ⟨_, rfl⟩
  · intro p s e _ d hd _ point _
    have hbox : d ∈ if p.val = 0 then [shortBox] else [] := List.mem_of_mem_filter hd
    split at hbox
    · rw [List.mem_singleton] at hbox
      subst hbox
      exact ⟨_, rfl⟩
    · cases hbox
  · decide +kernel
  · decide +kernel

/-- The centroid of a box of one rank lies half of a side in front of a box
that another rank holds, and their distance is that of the tolerance. -/
theorem accepted_pairs_beside : ∃ letters final, ∃ sessions : Fin 2 → Session ℚ 2,
    (Network.start fun r => (Share.searches r (besideShares r) [besideRequests r]).run).Settles
      letters final ∧
    (∀ r, final.programs.get r = .done (.ok [(.ok (), sessions r)])) ∧
    ∀ r, 7 ∈ (sessions r).correspondence.rangeEntities 1 ∧
      1 ∈ (sessions r).correspondence.domainEntities 7 := by
  have hslack : Session.MakesUp halfTolerance.tolerance shortBox.bounds besideBox.bounds := by
    unfold Session.MakesUp
    decide +kernel
  obtain ⟨-, hreported, -⟩ := accepted_pairs_are_reported Codec.roundTrips_rational halfTolerance
    halfTolerance_accepted shortBox besideBox (fun _ hcell => by cases hcell)
    (.ofRational (by decide +kernel)) (.ofRational (by decide +kernel))
  have hlocate : LocalMap.basic.locate shortBox (LocalMap.center besideBox)
      halfTolerance.tolerance = .ok (some _) := locate_inside rfl (by decide +kernel)
  obtain ⟨-, hsearch⟩ := hreported hslack _ hlocate
  obtain ⟨letters, final, sessions, hsettles, hdone, hboth⟩ := hsearch 2 besideShares besideRequests
    0 1 besideShares_searchable rfl rfl
    (List.mem_filter.mpr ⟨List.mem_singleton_self _, rfl⟩)
    (List.mem_filter.mpr ⟨List.mem_singleton_self _, rfl⟩)
  exact ⟨letters, final, sessions, hsettles, hdone, fun r => hboth r (by omega)⟩

end Vicinity
