import Mathlib
import Vicinity.Group.Routing
import Vicinity.Proofs.Coord.Float
import Vicinity.Proofs.Coord.Monotone
import Vicinity.Proofs.Group.Collective
import Vicinity.Proofs.Group.Departure

/-!
# The box around all ranks

A fold of unions is the least box around what it folds, so it is known, up to
the signs of zeros, as soon as one knows which boxes lie around all of these.
That neither depends on who holds which box nor on whether some were united
before, and a gathering shows the same boxes to every rank.
-/

set_option autoImplicit false

namespace Vicinity

namespace Box

variable {α : Type} {d : Nat} [Coord α]

/-- The least box around all boxes with a property, and none where there is no
such box. -/
structure LeastAround (value : Option (Box α d)) (given : Box α d → Prop) : Prop where
  none_iff : value = none ↔ ∀ b, ¬ given b
  valid : ∀ box, value = some box → box.isValid = true
  covers : ∀ box, value = some box → ∀ b, given b → box.Covers b
  least : ∀ box, value = some box → ∀ c : Box α d, (∀ b, given b → c.Covers b) → c.Covers box

def SameOption (value value' : Option (Box α d)) : Prop :=
  Option.Rel (fun a b => a.same b = true) value value'

variable [OrderedCoord α] {value value' : Option (Box α d)} {given given' : Box α d → Prop}

theorem unionAll_leastAround {bs : List (Box α d)} (hbs : ∀ b ∈ bs, b.isValid = true) :
    LeastAround (unionAll bs) (· ∈ bs) where
  none_iff := by
    rw [← List.eq_nil_iff_forall_not_mem]
    cases bs <;> simp [unionAll]
  valid _ hbox := unionAll_of (P := fun b => b.isValid = true) (fun _ _ => isValid_union) hbox hbs
  covers _ hbox := (unionAll_covers hbox fun b hb => numbers_of_isValid (hbs b hb)).2
  least _ hbox _ hc := unionAll_of (fun _ _ => .union) hbox hc

omit [OrderedCoord α] in
theorem LeastAround.exists_iff (h : LeastAround value given) :
    (∃ box, value = some box) ↔ ∃ b, given b := by
  rw [← not_iff_not, not_exists, not_exists, ← h.none_iff]
  exact Option.eq_none_iff_forall_ne_some.symm

/-- A box lies around all that is given where it lies around the least box. -/
theorem LeastAround.covers_iff (h : LeastAround value given) {c : Box α d} :
    (∀ box, value = some box → c.Covers box) ↔ ∀ b, given b → c.Covers b := by
  constructor
  · intro hc b hb
    obtain ⟨box, hbox⟩ := h.exists_iff.mpr ⟨b, hb⟩
    exact (hc box hbox).trans (h.covers box hbox b hb)
  · exact fun hc box hbox => h.least box hbox c hc

omit [OrderedCoord α] in
/-- The boxes around all that is given determine the least one. -/
theorem LeastAround.same (h : LeastAround value given) (h' : LeastAround value' given')
    (hsome : (∃ b, given b) ↔ ∃ b, given' b)
    (hcovers : ∀ c : Box α d, (∀ b, given b → c.Covers b) ↔ ∀ b, given' b → c.Covers b) :
    SameOption value value' := by
  have hnone : value = none ↔ value' = none := by
    rw [h.none_iff, h'.none_iff, ← not_exists, ← not_exists, hsome]
  cases value with
  | none =>
    rw [hnone.mp rfl]
    exact .none
  | some box =>
    cases value' with
    | none => exact absurd (hnone.mpr rfl) (by simp)
    | some box' =>
      have hbox := (hcovers box).mp (h.covers box rfl)
      have hbox' := (hcovers box').mpr (h'.covers box' rfl)
      exact .some (same_iff.mpr ⟨h'.least box' rfl box hbox, h.least box rfl box' hbox'⟩)

end Box

namespace Routing

variable {n : Nat} {α : Type} [Coord α] {boxes : Fin n → Option (Box α 3)}

def Contributed (boxes : Fin n → Option (Box α 3)) (box : Box α 3) : Prop :=
  ∃ r, boxes r = some box

/-- What some ranks contribute goes to one of them, or to a rank that has
nothing of its own, as one box. -/
def pooled (boxes : Fin n → Option (Box α 3)) (ranks : List (Fin n)) (holder r : Fin n) :
    Option (Box α 3) :=
  if r = holder then Box.unionAll (ranks.filterMap boxes)
  else if r ∈ ranks then none
  else boxes r

section

variable [Codec α]

/-- However their steps interleave, all ranks end with this global box, whether
a rank stays at its end or leaves. -/
def SharesGlobalBox (boxes : Fin n → Option (Box α 3)) (value : Option (Box α 3)) : Prop :=
  ∀ leaves : Fin n → Bool, ∃ letters final,
    (Network.start fun r => (globalBox r (boxes r)).run.bind (Proc.ending (leaves r))).Settles
      letters final ∧
    (∀ r, final.left.get r = leaves r) ∧
    (∀ s d, final.channel s d = []) ∧
    ∀ r, final.programs.get r = .done (.ok value)

theorem globalBox_shared (hcodec : ∀ x : α, Codec.RoundTrips x)
    (boxes : Fin n → Option (Box α 3)) :
    SharesGlobalBox boxes (Box.unionAll ((List.finRange n).filterMap boxes)) := by
  intro leaves
  have hgather := Routine.allGather_completes fun r =>
    Codec.roundTrips_anyOption (Codec.roundTrips_anyBox hcodec) (boxes r)
  have hglobal := hgather.map fun _ gathered => Box.unionAll (gathered.filterMap id)
  obtain ⟨final, hsettles, hleft, hempty, hdone⟩ := hglobal.settles_ending leaves
  refine ⟨_, final, hsettles, hleft, hempty, fun r => ?_⟩
  rw [hdone, List.filterMap_map, Function.id_comp]

end

variable [OrderedCoord α]

theorem pool_leastAround (hvalid : ∀ r box, boxes r = some box → box.isValid = true)
    (ranks : List (Fin n)) :
    Box.LeastAround (Box.unionAll (ranks.filterMap boxes)) (· ∈ ranks.filterMap boxes) := by
  apply Box.unionAll_leastAround
  intro b hb
  obtain ⟨r, -, hr⟩ := List.mem_filterMap.mp hb
  exact hvalid r b hr

theorem leastAround_contributed
    (hvalid : ∀ r box, boxes r = some box → box.isValid = true) :
    Box.LeastAround (Box.unionAll ((List.finRange n).filterMap boxes)) (Contributed boxes) := by
  have hmem : (· ∈ (List.finRange n).filterMap boxes) = Contributed boxes := by
    funext box
    simp [Contributed]
  rw [← hmem]
  exact pool_leastAround hvalid (List.finRange n)

omit [Coord α] [OrderedCoord α] in
theorem contributed_perm (σ : Equiv.Perm (Fin n)) (box : Box α 3) :
    Contributed (boxes ∘ σ) box ↔ Contributed boxes box :=
  σ.exists_congr_left.trans (by simp [Contributed])

section Pooled

variable {ranks : List (Fin n)} {holder : Fin n} {box : Box α 3}

omit [OrderedCoord α] in
/-- What is contributed after pooling: the union of the pool, and what the ranks
outside of it have. -/
theorem contributed_pooled (hholder : holder ∈ ranks ∨ boxes holder = none) :
    Contributed (pooled boxes ranks holder) box ↔
      Box.unionAll (ranks.filterMap boxes) = some box ∨ ∃ r, r ∉ ranks ∧ boxes r = some box := by
  constructor
  · rintro ⟨r, hr⟩
    unfold pooled at hr
    split_ifs at hr with hrholder hranks
    · exact .inl hr
    · exact .inr ⟨r, hranks, hr⟩
  · rintro (hpool | ⟨r, hranks, hr⟩)
    · exact ⟨holder, by rw [pooled, if_pos rfl, hpool]⟩
    · have hrholder : r ≠ holder := by
        rintro rfl
        rcases hholder with hmem | hnone
        · exact hranks hmem
        · rw [hnone] at hr
          cases hr
      exact ⟨r, by rw [pooled, if_neg hrholder, if_neg hranks, hr]⟩

omit [Coord α] [OrderedCoord α] in
theorem contributed_split (ranks : List (Fin n)) : Contributed boxes box ↔
    box ∈ ranks.filterMap boxes ∨ ∃ r, r ∉ ranks ∧ boxes r = some box := by
  rw [List.mem_filterMap]
  constructor
  · rintro ⟨r, hr⟩
    by_cases hranks : r ∈ ranks
    · exact .inl ⟨r, hranks, hr⟩
    · exact .inr ⟨r, hranks, hr⟩
  · rintro (⟨r, -, hr⟩ | ⟨r, -, hr⟩) <;> exact ⟨r, hr⟩

variable (hvalid : ∀ r box, boxes r = some box → box.isValid = true)
include hvalid

theorem isValid_pooled (hholder : holder ∈ ranks ∨ boxes holder = none) (r : Fin n)
    (h : pooled boxes ranks holder r = some box) : box.isValid = true := by
  rcases (contributed_pooled hholder).mp ⟨r, h⟩ with hpool | ⟨s, -, hs⟩
  · exact (pool_leastAround hvalid ranks).valid box hpool
  · exact hvalid s box hs

theorem exists_contributed_pooled (hholder : holder ∈ ranks ∨ boxes holder = none) :
    (∃ b, Contributed (pooled boxes ranks holder) b) ↔ ∃ b, Contributed boxes b := by
  simp only [contributed_pooled hholder, contributed_split ranks, exists_or,
    (pool_leastAround hvalid ranks).exists_iff]

/-- Pooling leaves the boxes around all contributions as they are. -/
theorem covers_contributed_pooled (hholder : holder ∈ ranks ∨ boxes holder = none)
    (c : Box α 3) : (∀ b, Contributed (pooled boxes ranks holder) b → c.Covers b) ↔
      ∀ b, Contributed boxes b → c.Covers b := by
  simp only [contributed_pooled hholder, contributed_split ranks, or_imp, forall_and,
    (pool_leastAround hvalid ranks).covers_iff]

end Pooled

/-- All ranks end with one global box, however their steps interleave. There is
none where no rank contributes, and otherwise it is valid and the least box
around all contributions. It stays the same, apart from the signs of zeros,
where the ranks exchange their contributions and where some contributions are
united on one rank. -/
theorem global_box_is_least {n : Nat} (boxes : Fin n → Option (Box Float 3))
    (hvalid : ∀ r box, boxes r = some box → box.isValid = true) :
    ∃ value, SharesGlobalBox boxes value ∧ Box.LeastAround value (Contributed boxes) ∧
      (∀ σ : Equiv.Perm (Fin n), ∃ value',
        SharesGlobalBox (boxes ∘ σ) value' ∧ Box.SameOption value value') ∧
      ∀ (ranks : List (Fin n)) (holder : Fin n), holder ∈ ranks ∨ boxes holder = none →
        ∃ value', SharesGlobalBox (pooled boxes ranks holder) value' ∧
          Box.SameOption value value' := by
  have hshared := fun boxes : Fin n → Option (Box Float 3) =>
    globalBox_shared Binary64.roundTrips boxes
  have hleast := leastAround_contributed hvalid
  refine ⟨_, hshared boxes, hleast, fun σ => ⟨_, hshared _, ?_⟩,
    fun ranks holder hholder => ⟨_, hshared _, ?_⟩⟩
  · have hmoved : ∀ r box, (boxes ∘ σ) r = some box → box.isValid = true :=
      fun r box => hvalid (σ r) box
    apply hleast.same (leastAround_contributed hmoved)
    · simp only [contributed_perm]
    · simp only [contributed_perm, implies_true]
  · apply hleast.same (leastAround_contributed fun r box => isValid_pooled hvalid hholder r)
    · exact (exists_contributed_pooled hvalid hholder).symm
    · exact fun c => (covers_contributed_pooled hvalid hholder c).symm

def twoOfThree (r : Fin 3) : Option (Box Float 3) :=
  if r.val = 0 then some ⟨Vector.replicate 3 0, Vector.replicate 3 1⟩
  else if r.val = 1 then none
  else some ⟨#v[0.5, 0, 0], #v[3, 2, 1]⟩

def aroundTwo : Box Float 3 := ⟨Vector.replicate 3 0, #v[3, 2, 1]⟩

/-- The rank that contributes nothing may as well hold one box for both others. -/
theorem global_box_twoOfThree :
    (∀ r box, twoOfThree r = some box → box.isValid = true) ∧
    ∃ box, SharesGlobalBox twoOfThree (some box) ∧ box.same aroundTwo = true ∧
      ∃ value, SharesGlobalBox (pooled twoOfThree [0, 2] 1) value ∧
        Box.SameOption (some box) value := by
  have hcases : ∀ r box, twoOfThree r = some box →
      box = ⟨Vector.replicate 3 0, Vector.replicate 3 1⟩ ∨
        box = ⟨#v[0.5, 0, 0], #v[3, 2, 1]⟩ := by
    intro r box hr
    unfold twoOfThree at hr
    split_ifs at hr
    · exact .inl (Option.some.inj hr).symm
    · exact .inr (Option.some.inj hr).symm
  have hvalid : ∀ r box, twoOfThree r = some box → box.isValid = true := by
    intro r box hr
    rcases hcases r box hr with rfl | rfl <;> decide +kernel
  obtain ⟨value, hshared, hleast, -, hpooled⟩ := global_box_is_least twoOfThree hvalid
  obtain ⟨box, rfl⟩ := hleast.exists_iff.mpr ⟨_, 0, rfl⟩
  obtain ⟨value', hshared', hsame⟩ := hpooled [0, 2] 1 (.inr rfl)
  have hcovers := hleast.covers box rfl
  refine ⟨hvalid, box, hshared, Box.same_iff.mpr ⟨?_, ?_⟩, value', hshared', hsame⟩
  · exact fun i => ⟨(hcovers _ ⟨0, rfl⟩ i).1, (hcovers _ ⟨2, rfl⟩ i).2⟩
  · apply hleast.least box rfl
    rintro b ⟨r, hr⟩
    unfold Box.Covers
    rcases hcases r b hr with rfl | rfl <;> decide +kernel

end Routing

end Vicinity
