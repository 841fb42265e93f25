import Mathlib
import Vicinity.Search.Session

/-!
# Values that survive the wire

Decoding gives back an encoded value and leaves what follows it. This holds
for words and counts below 2^64, and for compounds of values for which it
holds.
-/

set_option autoImplicit false

namespace Vicinity.Codec

theorem run_bind {τ σ : Type} {d : Decoder τ} {bytes rest : Payload} {x : τ}
    (h : d.run bytes = .ok (x, rest)) (f : τ → Decoder σ) :
    (d >>= f).run bytes = (f x).run rest := by
  rw [StateT.run_bind, h]
  rfl

section

variable {τ : Type} [Codec τ]

def RoundTrips (x : τ) : Prop := ∀ rest, (decode : Decoder τ).run (encode x ++ rest) = .ok (x, rest)

/-- Decoding goes on where a value that survives the wire ends. -/
theorem RoundTrips.bind {σ : Type} {x : τ} (h : RoundTrips x) (f : τ → Decoder σ)
    (rest : Payload) : (decode >>= f).run (encode x ++ rest) = (f x).run rest :=
  run_bind (h rest) f

theorem RoundTrips.read {x : τ} (h : RoundTrips x) : read (encode x) = .ok x := by
  have hrun := h []
  rw [List.append_nil] at hrun
  rw [Codec.read, hrun]
  rfl

end

theorem decodeLittleEndian_littleEndian (width n : Nat) (hn : n < 256 ^ width) (rest : Payload) :
    (decodeLittleEndian width).run (littleEndian width n ++ rest) = .ok (n, rest) := by
  induction width generalizing n with
  | zero =>
    obtain rfl : n = 0 := by simpa using hn
    rfl
  | succ width ih =>
    have hhigh := ih (n / 256) (Nat.div_lt_of_lt_mul (by rwa [pow_succ'] at hn))
    have hlow : (UInt8.ofNat n).toNat + 256 * (n / 256) = n := by
      rw [UInt8.toNat_ofNat']
      exact Nat.mod_add_div n 256
    have hfirst : decodeByte.run (littleEndian (width + 1) n ++ rest) =
        .ok (UInt8.ofNat n, littleEndian width (n / 256) ++ rest) := rfl
    rw [decodeLittleEndian, run_bind hfirst, run_bind hhigh, hlow]
    rfl

theorem roundTrips_nat {n : Nat} (h : n < UInt64.size) : RoundTrips n :=
  decodeLittleEndian_littleEndian 8 n h

theorem roundTrips_word (w : UInt64) : RoundTrips w := by
  intro rest
  have h := decodeLittleEndian_littleEndian 8 w.toNat (UInt64.toNat_lt_size w) rest
  change ((decodeLittleEndian 8 >>= fun n => pure (UInt64.ofNat n) : Decoder UInt64).run
    (littleEndian 8 w.toNat ++ rest)) = _
  rw [run_bind h, UInt64.ofNat_toNat]
  rfl

section

variable {τ : Type} [Codec τ]

theorem decodeMany_flatMap {xs : List τ} (h : ∀ x ∈ xs, RoundTrips x) (rest : Payload) :
    (decodeMany xs.length).run (xs.flatMap encode ++ rest) = .ok (xs, rest) := by
  induction xs with
  | nil => rfl
  | cons x xs ih =>
    rw [List.length_cons, decodeMany, List.flatMap_cons, List.append_assoc,
      (h x (by simp)).bind, run_bind (ih fun y hy => h y (by simp [hy]))]
    rfl

theorem roundTrips_list {xs : List τ} (h : ∀ x ∈ xs, RoundTrips x)
    (hlength : xs.length < UInt64.size) : RoundTrips xs := by
  intro rest
  change ((decode >>= decodeMany : Decoder (List τ)).run
    (encode xs.length ++ xs.flatMap encode ++ rest)) = _
  rw [List.append_assoc, (roundTrips_nat hlength).bind, decodeMany_flatMap h]

theorem roundTrips_none : RoundTrips (none : Option τ) := fun _ => rfl

theorem roundTrips_some {x : τ} (h : RoundTrips x) : RoundTrips (some x) := by
  intro rest
  change ((some <$> decode : Decoder (Option τ)).run (encode x ++ rest)) = _
  rw [StateT.run_map, h rest]
  rfl

theorem decodeVector_flatMap {n : Nat} {xs : Vector τ n} (h : ∀ x ∈ xs, RoundTrips x)
    (rest : Payload) : (decodeVector n).run (xs.toList.flatMap encode ++ rest) = .ok (xs, rest) := by
  induction n generalizing rest with
  | zero =>
    obtain rfl : xs = #v[] := Vector.eq_empty
    rfl
  | succ n ih =>
    obtain ⟨init, last, rfl⟩ : ∃ (init : Vector τ n) (last : τ), xs = init.push last :=
      Vector.exists_push
    rw [Vector.toList_push, List.flatMap_append, List.flatMap_singleton, List.append_assoc,
      decodeVector, run_bind (ih (fun x hx => h x (Vector.mem_push_of_mem last hx)) _),
      (h last Vector.mem_push_self).bind]
    rfl

theorem roundTrips_vector {n : Nat} {xs : Vector τ n} (h : ∀ x ∈ xs, RoundTrips x) :
    RoundTrips xs := decodeVector_flatMap h

theorem roundTrips_box {d : Nat} {b : Box τ d} (hl : RoundTrips b.lower)
    (hu : RoundTrips b.upper) : RoundTrips b := by
  intro rest
  change ((decode >>= fun lower => decode >>= fun upper => pure ⟨lower, upper⟩ :
    Decoder (Box τ d)).run (encode b.lower ++ encode b.upper ++ rest)) = _
  rw [List.append_assoc, hl.bind, hu.bind]
  rfl

/-! Where every value survives the wire, so do the compounds of any values. -/

theorem roundTrips_anyVector (h : ∀ x : τ, RoundTrips x) {n : Nat} (xs : Vector τ n) :
    RoundTrips xs := roundTrips_vector fun x _ => h x

theorem roundTrips_anyBox (h : ∀ x : τ, RoundTrips x) {d : Nat} (b : Box τ d) : RoundTrips b :=
  roundTrips_box (roundTrips_anyVector h b.lower) (roundTrips_anyVector h b.upper)

theorem roundTrips_anyOption (h : ∀ x : τ, RoundTrips x) (x : Option τ) : RoundTrips x := by
  cases x with
  | none => exact roundTrips_none
  | some x => exact roundTrips_some (h x)

theorem roundTrips_rangeQuery {q : RangeQuery τ} (hpoint : RoundTrips q.point)
    (hbox : RoundTrips q.box) : RoundTrips q := by
  intro rest
  change ((decode >>= fun id => decode >>= fun owner => decode >>= fun point => decode >>= fun box =>
    pure ⟨id, owner, point, box⟩ : Decoder (RangeQuery τ)).run
      (encode q.id ++ encode q.owner ++ encode q.point ++ encode q.box ++ rest)) = _
  rw [List.append_assoc, List.append_assoc, List.append_assoc, (roundTrips_word q.id).bind,
    (roundTrips_word q.owner).bind, hpoint.bind, hbox.bind]
  rfl

theorem roundTrips_record {r : Record τ} (h : RoundTrips r.coordinates) : RoundTrips r := by
  intro rest
  change ((decode >>= fun domain => decode >>= fun range => decode >>= fun owner => decode >>=
    fun coordinates => pure ⟨domain, range, owner, coordinates⟩ : Decoder (Record τ)).run
      (encode r.domain ++ encode r.range ++ encode r.rangeOwner ++ encode r.coordinates ++ rest)) = _
  rw [List.append_assoc, List.append_assoc, List.append_assoc, (roundTrips_word r.domain).bind,
    (roundTrips_word r.range).bind, (roundTrips_word r.rangeOwner).bind, h.bind]
  rfl

end

end Vicinity.Codec

namespace Vicinity.Routine

theorem readValue_encode {τ : Type} [Codec τ] {x : τ} (h : Codec.RoundTrips x) :
    readValue (Codec.encode x) = .ok x := by
  rw [readValue, h.read]
  rfl

end Vicinity.Routine
