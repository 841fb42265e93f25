import Vicinity.Search.Error
import Vicinity.Text.Json
import Vicinity.Text.Quoted

/-!
# Configuration

Settings of searches and of pairings: their defaults, which of them are
accepted, and their form as JSON texts. Fields that a text leaves out have
their defaults.
-/

set_option autoImplicit false

namespace Vicinity

variable {α : Type}

structure SearchConfig (α : Type) where
  /-- Widens a query box relative to its size, and at least by this much, and
  widens the reference domain of each candidate. -/
  tolerance : α
  domainDimension : Option Dimension
  rangeDimension : Option Dimension
  trackMissed : Bool

namespace SearchConfig

def initial : SearchConfig Float := ⟨1e-6, none, none, false⟩

def isInitial (c : SearchConfig Float) : Bool :=
  c.tolerance == initial.tolerance && c.domainDimension.isNone && c.rangeDimension.isNone &&
    !c.trackMissed

def validate [Coord α] (c : SearchConfig α) : Except (ConfigFault α) Unit :=
  if !Coord.isFinite c.tolerance || decide (c.tolerance < Coord.zero) then
    .error (.tolerance c.tolerance)
  else .ok ()

end SearchConfig

inductive SearchType where
  | radius | nearest
  deriving DecidableEq, Repr

namespace SearchType

def name : SearchType → String
  | radius => "Radius"
  | nearest => "Nearest Neighbor"

def initial : SearchType := radius

def ofName? (s : String) : Option SearchType := [radius, nearest].find? fun t => t.name = s

def ofName (s : String) : Except (ConfigFault α) SearchType :=
  match ofName? s with
  | some t => .ok t
  | none => .error (.unknownSearchType s)

end SearchType

structure PairingConfig (α : Type) where
  searchType : SearchType
  radius : Option α
  numNeighbors : Option UInt64
  domainDimension : Option Dimension
  rangeDimension : Option Dimension

inductive PairingRule (α : Type) where
  | within (radius : α)
  | nearest (count : Nat)

namespace PairingConfig

def initial : PairingConfig α := ⟨.initial, none, none, none, none⟩

def ofRadius (radius : α) : PairingConfig α := { (initial : PairingConfig α) with radius := some radius }

def ofNearest (count : UInt64) : PairingConfig α :=
  { (initial : PairingConfig α) with searchType := .nearest, numNeighbors := some count }

def isInitial (c : PairingConfig α) : Bool :=
  decide (c.searchType = .initial) && c.radius.isNone && c.numNeighbors.isNone &&
    c.domainDimension.isNone && c.rangeDimension.isNone

def validate [Coord α] (c : PairingConfig α) : Except (ConfigFault α) (PairingRule α) :=
  match c.searchType with
  | .radius =>
    match c.radius with
    | none => .error .missingRadius
    | some r =>
      if Coord.isFinite r && decide (Coord.zero ≤ r) then .ok (.within r) else .error (.radius r)
  | .nearest =>
    match c.numNeighbors with
    | none => .error .missingNeighbors
    | some k => if k = 0 then .error .noNeighbors else .ok (.nearest k.toNat)

end PairingConfig

namespace ConfigFault

def message : ConfigFault Float → String
  | tolerance value =>
    "tolerance must be finite and non-negative, got " ++ Decimal.plain value
  | radius value => "radius must be finite and non-negative, got " ++ Decimal.plain value
  | missingRadius => "radius search requires `radius`"
  | noNeighbors => "`num_neighbors` must be positive"
  | missingNeighbors => "nearest neighbor search requires `num_neighbors`"
  | unknownSearchType name => "unknown search type " ++ Quoted.encode name

end ConfigFault

def SearchError.message : SearchError Float → String
  | index fault => fault.message
  | comm fault => fault.message
  | lookup domain range =>
    "no correspondence between domain entity " ++ toString domain.toNat ++
      " and range entity " ++ toString range.toNat
  | unknownRange range => "range entity " ++ toString range.toNat ++ " is unknown on this rank"
  | unsupportedShape entity =>
    "entity " ++ toString entity.toNat ++ " has a shape the local map cannot evaluate"
  | unsupportedConfig fault => "unsupported configuration: " ++ fault.message

def Dimension.ofJson? (j : Json) : Option Dimension := j.case?.bind ofName?

def SearchType.ofJson? (j : Json) : Option SearchType := j.case?.bind ofName?

def SearchConfig.fieldNames : List String :=
  ["tolerance", "domain_dimension", "range_dimension", "track_missed_range_entities"]

def SearchConfig.ofJson? (j : Json) : Option (SearchConfig Float) := do
  match ← j.fields? fieldNames with
  | [tolerance, domain, range, track] =>
    pure {
      tolerance := ← Json.orElse initial.tolerance Json.float? tolerance
      domainDimension := ← Json.orElse none (Json.nullable? Dimension.ofJson?) domain
      rangeDimension := ← Json.orElse none (Json.nullable? Dimension.ofJson?) range
      trackMissed := ← Json.orElse initial.trackMissed Json.bool? track }
  | _ => none

def PairingConfig.fieldNames : List String :=
  ["search_type", "radius", "num_neighbors", "domain_dimension", "range_dimension"]

def PairingConfig.ofJson? (j : Json) : Option (PairingConfig Float) := do
  match ← j.fields? fieldNames with
  | [searchType, radius, count, domain, range] =>
    pure {
      searchType := ← Json.orElse .initial SearchType.ofJson? searchType
      radius := ← Json.orElse none (Json.nullable? Json.float?) radius
      numNeighbors := ← Json.orElse none (Json.nullable? Json.word?) count
      domainDimension := ← Json.orElse none (Json.nullable? Dimension.ofJson?) domain
      rangeDimension := ← Json.orElse none (Json.nullable? Dimension.ofJson?) range }
  | _ => none

end Vicinity
