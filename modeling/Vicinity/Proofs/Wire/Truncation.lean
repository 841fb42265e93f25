import Mathlib
import Vicinity.Proofs.Coord.Float
import Vicinity.Proofs.Wire.RoundTrip

/-!
# Payloads whole and cut short

What a rank reads off a payload. All of an encoding gives the value back,
whatever follows it, and any less than all of it ends the reading with the end
of the input. This holds for what the ranks of a search or a pairing send each
other: counts, optional boxes, and batches of ids, points, queries and records.
A batch travels as the values at some places of what its sender stores.
-/

set_option autoImplicit false

namespace Vicinity.Codec

def CutShort {τ : Type} (d : Decoder τ) (bytes : Payload) : Prop :=
  ∀ k < bytes.length, d.run (bytes.take k) = .error .endOfInput

namespace CutShort

variable {τ σ : Type} {d : Decoder τ} {bytes bytes' : Payload} {x : τ} {f : τ → Decoder σ}

theorem nil : CutShort d [] := fun _ hk => absurd hk (Nat.not_lt_zero _)

theorem of_error (h : d.run bytes = .error .endOfInput) (f : τ → Decoder σ) :
    (d >>= f).run bytes = .error .endOfInput := by
  rw [StateT.run_bind, h]
  rfl

/-- One value after the other: the cut is in the first of them, or the first is
there and the cut is in the second. -/
theorem bind (hcut : CutShort d bytes) (hwhole : ∀ rest, d.run (bytes ++ rest) = .ok (x, rest))
    (hnext : CutShort (f x) bytes') : CutShort (d >>= f) (bytes ++ bytes') := by
  intro k hk
  by_cases hfirst : k < bytes.length
  · rw [List.take_append_of_le_length hfirst.le]
    exact of_error (hcut k hfirst) f
  · have hsecond : k - bytes.length < bytes'.length := by
      rw [List.length_append] at hk
      omega
    rw [List.take_append, List.take_of_length_le (not_lt.mp hfirst), run_bind (hwhole _)]
    exact hnext _ hsecond

theorem last (hcut : CutShort d bytes) (f : τ → Decoder σ) : CutShort (d >>= f) bytes :=
  fun k hk => of_error (hcut k hk) f

theorem map (hcut : CutShort d bytes) (f : τ → σ) : CutShort (f <$> d) bytes := by
  intro k hk
  rw [StateT.run_map, hcut k hk]
  rfl

end CutShort

theorem cutShort_byte (b : UInt8) : CutShort decodeByte [b] := by
  intro k hk
  obtain rfl : k = 0 := by simpa using hk
  rfl

theorem CutShort.afterByte {σ : Type} {b : UInt8} {f : UInt8 → Decoder σ} {bytes : Payload}
    (h : CutShort (f b) bytes) : CutShort (decodeByte >>= f) (b :: bytes) :=
  (cutShort_byte b).bind (fun _ => rfl) h

theorem cutShort_littleEndian (width n : Nat) :
    CutShort (decodeLittleEndian width) (littleEndian width n) := by
  induction width generalizing n with
  | zero => exact CutShort.nil
  | succ width ih =>
    rw [decodeLittleEndian, littleEndian]
    exact CutShort.afterByte ((ih (n / 256)).last _)

section

variable {τ : Type} [Codec τ]

structure Sturdy (x : τ) : Prop where
  whole : RoundTrips x
  cut : CutShort (decode : Decoder τ) (encode x)

theorem Sturdy.bind {σ : Type} {x : τ} (h : Sturdy x) {f : τ → Decoder σ} {bytes : Payload}
    (hnext : CutShort (f x) bytes) : CutShort (decode >>= f) (encode x ++ bytes) :=
  h.cut.bind h.whole hnext

theorem sturdy_nat {n : Nat} (h : n < UInt64.size) : Sturdy n :=
  ⟨roundTrips_nat h, cutShort_littleEndian 8 n⟩

theorem sturdy_word (w : UInt64) : Sturdy w :=
  ⟨roundTrips_word w, (cutShort_littleEndian 8 w.toNat).last _⟩

theorem cutShort_many {xs : List τ} (h : ∀ x ∈ xs, Sturdy x) :
    CutShort (decodeMany xs.length : Decoder (List τ)) (xs.flatMap encode) := by
  induction xs with
  | nil => exact CutShort.nil
  | cons x xs ih =>
    rw [List.length_cons, decodeMany, List.flatMap_cons]
    exact (h x List.mem_cons_self).bind ((ih fun y hy => h y (List.mem_cons_of_mem x hy)).last _)

theorem sturdy_list {xs : List τ} (h : ∀ x ∈ xs, Sturdy x) (hlength : xs.length < UInt64.size) :
    Sturdy xs :=
  ⟨roundTrips_list (fun x hx => (h x hx).whole) hlength,
    (sturdy_nat hlength).bind (cutShort_many h)⟩

theorem sturdy_none : Sturdy (none : Option τ) := ⟨roundTrips_none, (cutShort_byte 0).last _⟩

theorem sturdy_some {x : τ} (h : Sturdy x) : Sturdy (some x) :=
  ⟨roundTrips_some h.whole, CutShort.afterByte (h.cut.map some)⟩

theorem cutShort_vector {n : Nat} {xs : Vector τ n} (h : ∀ x ∈ xs, Sturdy x) :
    CutShort (decodeVector n : Decoder (Vector τ n)) (xs.toList.flatMap encode) := by
  induction n with
  | zero =>
    obtain rfl : xs = #v[] := Vector.eq_empty
    exact CutShort.nil
  | succ n ih =>
    obtain ⟨init, last, rfl⟩ : ∃ (init : Vector τ n) (last : τ), xs = init.push last :=
      Vector.exists_push
    have hinit : ∀ x ∈ init, Sturdy x := fun x hx => h x (Vector.mem_push_of_mem last hx)
    rw [Vector.toList_push, List.flatMap_append, List.flatMap_singleton, decodeVector]
    exact (ih hinit).bind (decodeVector_flatMap fun x hx => (hinit x hx).whole)
      ((h last Vector.mem_push_self).cut.last _)

theorem sturdy_vector {n : Nat} {xs : Vector τ n} (h : ∀ x ∈ xs, Sturdy x) : Sturdy xs :=
  ⟨roundTrips_vector fun x hx => (h x hx).whole, cutShort_vector h⟩

theorem sturdy_box {d : Nat} {b : Box τ d} (hl : Sturdy b.lower) (hu : Sturdy b.upper) :
    Sturdy b :=
  ⟨roundTrips_box hl.whole hu.whole, hl.bind (hu.cut.last _)⟩

theorem sturdy_rangeQuery {q : RangeQuery τ} (hpoint : Sturdy q.point) (hbox : Sturdy q.box) :
    Sturdy q := by
  have hfields : CutShort (decode : Decoder (RangeQuery τ))
      (encode q.id ++ (encode q.owner ++ (encode q.point ++ encode q.box))) :=
    (sturdy_word q.id).bind ((sturdy_word q.owner).bind (hpoint.bind (hbox.cut.last _)))
  refine ⟨roundTrips_rangeQuery hpoint.whole hbox.whole, ?_⟩
  change CutShort _ (encode q.id ++ encode q.owner ++ encode q.point ++ encode q.box)
  rwa [List.append_assoc, List.append_assoc]

theorem sturdy_record {r : Record τ} (h : Sturdy r.coordinates) : Sturdy r := by
  have hfields : CutShort (decode : Decoder (Record τ))
      (encode r.domain ++ (encode r.range ++ (encode r.rangeOwner ++ encode r.coordinates))) :=
    (sturdy_word r.domain).bind
      ((sturdy_word r.range).bind ((sturdy_word r.rangeOwner).bind (h.cut.last _)))
  refine ⟨roundTrips_record h.whole, ?_⟩
  change CutShort _ (encode r.domain ++ encode r.range ++ encode r.rangeOwner ++
    encode r.coordinates)
  rwa [List.append_assoc, List.append_assoc]

/-! Where every value is sturdy, so are the compounds of any values. -/

theorem sturdy_anyVector (h : ∀ x : τ, Sturdy x) {n : Nat} (xs : Vector τ n) : Sturdy xs :=
  sturdy_vector fun x _ => h x

theorem sturdy_anyBox (h : ∀ x : τ, Sturdy x) {d : Nat} (b : Box τ d) : Sturdy b :=
  sturdy_box (sturdy_anyVector h b.lower) (sturdy_anyVector h b.upper)

theorem sturdy_anyOption (h : ∀ x : τ, Sturdy x) (x : Option τ) : Sturdy x := by
  cases x with
  | none => exact sturdy_none
  | some x => exact sturdy_some (h x)

end

section

variable {τ α : Type} [Codec τ] [Codec α]

/-- Who asks for a `τ` reads `x` off these bytes, whatever follows them, and no
value at all where they are cut short. -/
structure Conveys (bytes : Payload) (x : τ) : Prop where
  read : ∀ rest, Routine.readValue (bytes ++ rest) = .ok x
  refused : ∀ part, part <+: bytes → part ≠ bytes →
    (Routine.readValue part : Except CommError τ) = .error (.codec .endOfInput)

theorem Sturdy.conveys {x : τ} (h : Sturdy x) : Conveys (encode x) x := by
  constructor
  · intro rest
    rw [Routine.readValue, Codec.read, h.whole rest]
    rfl
  · intro part hpart hne
    have hlength : part.length < (encode x).length := by
      apply lt_of_le_of_ne hpart.length_le
      exact fun h => hne (hpart.eq_of_length h)
    rw [List.prefix_iff_eq_take.mp hpart, Routine.readValue, Codec.read, h.cut _ hlength]
    rfl

def encodePlaces (stored : List τ) (places : List (Fin stored.length)) : Payload :=
  encode places.length ++ places.flatMap fun i => encode (stored.get i)

theorem encodePlaces_eq (stored : List τ) (places : List (Fin stored.length)) :
    encodePlaces stored places = encode (places.map stored.get) := by
  change _ = encode (places.map stored.get).length ++ (places.map stored.get).flatMap encode
  rw [List.length_map, List.flatMap_map]
  rfl

structure AsWords (α : Type) [Codec α] where
  toWord : α → UInt64
  ofWord : UInt64 → α
  ofWord_toWord : ∀ x, ofWord (toWord x) = x
  encode_eq : ∀ x : α, encode x = encode (toWord x)
  decode_eq : (decode : Decoder α) = ofWord <$> decode

theorem AsWords.sturdy (words : AsWords α) (x : α) : Sturdy x := by
  constructor
  · intro rest
    rw [words.decode_eq, words.encode_eq, StateT.run_map, roundTrips_word _ rest]
    exact congrArg (fun y => Except.ok (y, rest)) (words.ofWord_toWord x)
  · rw [words.decode_eq, words.encode_eq]
    exact (sturdy_word _).cut.map words.ofWord

/-- Machine numbers, of which all that are not numbers are one. -/
def floatWords : AsWords Float where
  toWord := Float.toBits
  ofWord := Float.ofBits
  ofWord_toWord := Binary64.ofBits_toBits
  encode_eq _ := rfl
  decode_eq := rfl

def bitWords : AsWords UInt64 where
  toWord := id
  ofWord := id
  ofWord_toWord _ := rfl
  encode_eq _ := rfl
  decode_eq := (id_map decode).symm

end

end Vicinity.Codec

namespace Vicinity.Plan

variable {n : Nat} {τ : Type}

def places (p : Plan n) (size : Nat) (dest : Fin n) : List (Fin size) :=
  ((p.order.drop (p.offset dest)).take (p.exportCount dest)).filterMap fun i =>
    if h : i < size then some ⟨i, h⟩ else none

theorem batch_eq (p : Plan n) (values : List τ) (dest : Fin n) :
    p.batch values dest = (p.places values.length dest).map values.get := by
  rw [batch, places, List.map_filterMap]
  apply List.filterMap_congr
  intro i _
  rw [List.getElem?_toArray]
  split
  · next h => exact List.getElem?_eq_getElem h
  · next h => exact List.getElem?_eq_none (not_lt.mp h)

end Vicinity.Plan

namespace Vicinity.Codec

/-- Batches arrive in order, as lists of values and as places of what is stored,
which is how a plan writes them. -/
structure ShipsBatches (τ : Type) [Codec τ] : Prop where
  values : ∀ xs : List τ, xs.length < UInt64.size → Conveys (encode xs) xs
  places : ∀ (stored : List τ) (places : List (Fin stored.length)),
    places.length < UInt64.size → Conveys (encodePlaces stored places) (places.map stored.get)
  plan : ∀ {n : Nat} (p : Plan n) (stored : List τ) (dest : Fin n),
    encode (p.batch stored dest) = encodePlaces stored (p.places stored.length dest)

theorem shipsBatches {τ : Type} [Codec τ] (h : ∀ x : τ, Sturdy x) : ShipsBatches τ := by
  have hlists : ∀ xs : List τ, xs.length < UInt64.size → Conveys (encode xs) xs :=
    fun xs hlength => (sturdy_list (fun x _ => h x) hlength).conveys
  constructor
  · exact hlists
  · intro stored places hlength
    rw [encodePlaces_eq]
    exact hlists _ (by rwa [List.length_map])
  · intro n p stored dest
    rw [encodePlaces_eq, Plan.batch_eq]

/-- What the ranks send each other is read as it was written, bit for bit,
whatever follows it, and is refused wherever it is cut short. -/
theorem payloads_survive {α : Type} [Codec α] (words : AsWords α) :
    (∀ count < UInt64.size, Conveys (encode count) count) ∧
    (∀ box : Option (Box α 3), Conveys (encode box) box) ∧
    ShipsBatches EntityId ∧ ShipsBatches (Point α 3) ∧ ShipsBatches (RangeQuery α) ∧
      ShipsBatches (Record α) := by
  have hpoint : ∀ p : Point α 3, Sturdy p := sturdy_anyVector words.sturdy
  have hbox : ∀ b : Box α 3, Sturdy b := sturdy_anyBox words.sturdy
  refine ⟨fun count hcount => (sturdy_nat hcount).conveys,
    fun box => (sturdy_anyOption hbox box).conveys, shipsBatches sturdy_word, shipsBatches hpoint,
    shipsBatches fun q => ?_, shipsBatches fun r => ?_⟩
  · exact sturdy_rangeQuery (hpoint q.point) (hbox q.box)
  · exact sturdy_record (hpoint r.coordinates)

/-- A record at a negative zero and at two patterns of bits that are no numbers. -/
def oddRecord (id : UInt64) : Record UInt64 :=
  ⟨id, 7, 0, Vector.ofFn fun i =>
    if i.val = 0 then 0x8000000000000000 else 0x7ff8000000000000 + UInt64.ofNat i.val⟩

theorem payloads_odd_bits : [(1 : Fin 2), 0, 1].length < UInt64.size ∧
    Routine.readValue (encodePlaces [oddRecord 4, oddRecord 5] [1, 0, 1] ++ [255]) =
      .ok [oddRecord 5, oddRecord 4, oddRecord 5] ∧
    (Routine.readValue ((encodePlaces [oddRecord 4, oddRecord 5] [1, 0, 1]).take 151) :
      Except CommError (List (Record UInt64))) = .error (.codec .endOfInput) ∧
    Routine.readValue (encode (some (Box.ofPoint (Vector.replicate 3 Float.nan)))) =
      .ok (some (Box.ofPoint (Vector.replicate 3 Float.nan))) := by
  have hlength : [(1 : Fin 2), 0, 1].length < UInt64.size := by decide
  obtain ⟨-, -, -, -, -, hrecords⟩ := payloads_survive bitWords
  obtain ⟨-, hboxes, -⟩ := payloads_survive floatWords
  have hbatch := hrecords.places [oddRecord 4, oddRecord 5] [1, 0, 1] hlength
  refine ⟨hlength, hbatch.read [255], hbatch.refused _ (List.take_prefix _ _) ?_, ?_⟩
  · intro h
    have hcut := congrArg List.length h
    revert hcut
    decide +kernel
  · have hbox := (hboxes (some (Box.ofPoint (Vector.replicate 3 Float.nan)))).read []
    rwa [List.append_nil] at hbox

end Vicinity.Codec
