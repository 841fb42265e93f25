import Mathlib
import Vicinity.Proofs.Group.Round
import Vicinity.Proofs.Wire.RoundTrip

/-!
# What collectives give

Called by all ranks, the collectives complete, provided that the values survive
the wire and that every rank counts for every other.
-/

set_option autoImplicit false

namespace Vicinity.Routine

variable {n : Nat} {ε ε' τ σ : Type}

namespace Completes

theorem ofExcept {results : Fin n → Except ε τ} {values : Fin n → τ}
    (h : ∀ r, results r = .ok (values r)) :
    Completes (fun r => Routine.ofExcept (results r)) (fun _ _ => []) values :=
  (pure values).congr (fun r => by rw [h r]; rfl) (fun _ _ => rfl) fun _ => rfl

theorem mapError {routines : Fin n → Routine n ε τ} {letters : Fin n → Fin n → List Envelope}
    {values : Fin n → τ} (h : Completes routines letters values) (f : ε → ε') :
    Completes (fun r => (routines r).mapError f) letters values := by
  have hbind := Proc.Completes.bind h (f := fun _ result => .done (result.mapError f))
    (Proc.Completes.done fun r => (Except.ok (values r) : Except ε' τ))
  apply hbind.congr
  · intro r
    apply congrArg (routines r).run.bind
    funext result
    cases result with
    | ok value => rfl
    | error e => rfl
  · intro s d
    exact List.append_nil _
  · intro r
    rfl

theorem mapM {ι : Type} (items : List ι) {routine : ι → Fin n → Routine n ε τ}
    {letters : ι → Fin n → Fin n → List Envelope} {values : ι → Fin n → τ}
    (h : ∀ item ∈ items, Completes (routine item) (letters item) (values item)) :
    Completes (fun r => items.mapM fun item => routine item r)
      (fun s d => items.flatMap fun item => letters item s d)
      fun r => items.map fun item => values item r := by
  induction items with
  | nil => exact (pure fun _ => []).congr (fun _ => rfl) (fun _ _ => rfl) fun _ => rfl
  | cons item items ih =>
    have hrest := ih fun item hitem => h item (by simp [hitem])
    have hall := (h item (by simp)).bind (hrest.map fun r ys => values item r :: ys)
      (f := fun r x => (fun ys => x :: ys) <$> items.mapM fun item => routine item r)
    apply hall.congr
    · intro r
      simp only [List.mapM_cons, bind_pure_comp]
    · intro s d
      simp
    · intro r
      simp

end Completes

/-- The ranks can perform these routines together, whatever letters that takes. -/
def Finishes (routines : Fin n → Routine n ε τ) (values : Fin n → τ) : Prop :=
  ∃ letters, Completes routines letters values

namespace Finishes

variable {routines : Fin n → Routine n ε τ} {values : Fin n → τ}

theorem pure (values : Fin n → τ) :
    Finishes (fun r => (Pure.pure (values r) : Routine n ε τ)) values := ⟨_, .pure values⟩

theorem bind {f : Fin n → τ → Routine n ε σ} {values' : Fin n → σ}
    (h : Finishes routines values) (h' : Finishes (fun r => f r (values r)) values') :
    Finishes (fun r => routines r >>= f r) values' := by
  obtain ⟨letters, h⟩ := h
  obtain ⟨letters', h'⟩ := h'
  exact ⟨_, h.bind h'⟩

theorem ofExcept {results : Fin n → Except ε τ} (h : ∀ r, results r = .ok (values r)) :
    Finishes (fun r => Routine.ofExcept (results r)) values := ⟨_, Completes.ofExcept h⟩

theorem mapError (h : Finishes routines values) (f : ε → ε') :
    Finishes (fun r => (routines r).mapError f) values := by
  obtain ⟨letters, h⟩ := h
  exact ⟨_, h.mapError f⟩

theorem mapM {ι : Type} (items : List ι) {routine : ι → Fin n → Routine n ε τ}
    {values : ι → Fin n → τ} (h : ∀ item ∈ items, Finishes (routine item) (values item)) :
    Finishes (fun r => items.mapM fun item => routine item r)
      fun r => items.map fun item => values item r := by
  choose! letters hletters using h
  exact ⟨_, Completes.mapM items hletters⟩

theorem map (h : Finishes routines values) (f : Fin n → τ → σ) :
    Finishes (fun r => f r <$> routines r) fun r => f r (values r) := by
  obtain ⟨letters, h⟩ := h
  exact ⟨letters, h.map f⟩

theorem lift {processes : Fin n → Proc n τ}
    (h : ∃ letters, Proc.Completes processes letters values) :
    Finishes (fun r => (ExceptT.lift (processes r) : Routine n ε τ)) values := by
  obtain ⟨letters, h⟩ := h
  exact ⟨_, h.bind (Proc.Completes.done fun r => (Except.ok (values r) : Except ε τ))⟩

end Finishes

def valueLetter [Codec τ] (tag : Tag) (value : τ) : Envelope := ⟨tag, Codec.encode value⟩

theorem arrived_value [Codec τ] {tag : Tag} {s r : Fin n} {own value : τ}
    (hown : s = r → own = value) (h : Codec.RoundTrips value) :
    Arrived tag (if s = r then .ready (.ok own) else .awaited readValue) value
      (if s = r then [] else [valueLetter tag value]) := by
  by_cases hs : s = r
  · simp [Arrived, hs, hown]
  · exact .inr ⟨readValue, _, if_neg hs, readValue_encode h, if_neg hs⟩

theorem allGather_completes [Codec τ] {values : Fin n → τ}
    (h : ∀ r, Codec.RoundTrips (values r)) :
    Completes (fun r => allGather r (values r))
      (fun s d => if s = d then [] else [valueLetter Tag.gather (values s)])
      fun _ => (List.finRange n).map values := by
  apply round_completes
  intro s r
  exact arrived_value (fun hs => by rw [hs]) (h s)

theorem exchangeCounts_completes (counts : Fin n → List Nat) (hlength : ∀ r, (counts r).length = n)
    (hsmall : ∀ s r : Fin n, (counts s).getD r 0 < UInt64.size) :
    Completes (fun r => exchangeCounts r (counts r))
      (fun s d => if s = d then [] else [valueLetter Tag.counts ((counts s).getD d 0)])
      fun r => (List.finRange n).map fun s => (counts s).getD r 0 := by
  have hround := round_completes Tag.counts
    (fun r dest => some (Codec.encode ((counts r).getD dest 0)))
    (fun r source => if source = r then .ready (.ok ((counts r).getD r 0)) else .awaited readValue)
    (fun r s => (counts s).getD r 0)
    fun s r => arrived_value (fun hs => by rw [hs]) (Codec.roundTrips_nat (hsmall s r))
  apply hround.congr
  · intro r
    unfold exchangeCounts
    rw [if_neg (not_not.mpr (hlength r))]
  · intro s d
    rfl
  · intro r
    rfl

end Vicinity.Routine
