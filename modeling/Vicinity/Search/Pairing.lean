import Vicinity.Entity.Selection
import Vicinity.Group.Routing
import Vicinity.Hierarchy.Query
import Vicinity.Search.Config
import Vicinity.Search.LocalMap

/-!
# Pairing of point clouds

Every target of a rank, called a parent, is paired with nearby sources from any
rank, its children: those within a radius, or the nearest ones. Sources near
the rank's targets are gathered first; for the nearest ones, near means within
a tenth of the span of the targets. Only entities that the holding rank owns
take part.
-/

set_option autoImplicit false

namespace Vicinity

variable {α : Type} {n : Nat}

structure Parent (α : Type) where
  id : EntityId
  center : Point α 3
  /-- Positions among the gathered sources. -/
  children : List Nat
  radius : α

structure Pairing (α : Type) where
  parents : List (Parent α)
  sourceIds : List EntityId
  sourceCenters : List (Point α 3)

namespace Pairing

def childrenPerParent (p : Pairing α) : List Nat := p.parents.map fun parent => parent.children.length

def childIds (p : Pairing α) (parent : Parent α) : List EntityId :=
  let ids := p.sourceIds.toArray
  parent.children.filterMap fun i => ids[i]?

variable [Coord α]

def centers (me : Fin n) (dimension : Option Dimension) (map : LocalMap α)
    (entities : List (Entity α)) : Except (SearchError α) (List (Entity α × Point α 3)) :=
  let select := (Selection.ownedBy me.val).both (Selection.ofDimension? dimension)
  (entities.filter select).mapM fun e => (map.centroid e).map fun center => (e, center)

def proximity (rule : PairingRule α) (targets : List (Entity α)) : α :=
  match rule with
  | .within radius => radius
  | .nearest _ =>
    match Box.unionAll (targets.map Entity.bounds) with
    | none => Coord.zero
    | some b => b.largestExtent * Coord.tenth

def childrenOf (rule : PairingRule α) (index : Hierarchy α Nat 3) (center : Point α 3) :
    Except QueryFault (List Nat × α) :=
  match rule with
  | .within radius =>
    .ok ((index.withinDistance center radius).mergeSort fun i j => decide (i ≤ j), radius)
  | .nearest count => (index.nearestWithDistance center count).map fun found =>
    (found.map (·.id), (found.getLast?.map fun c => Coord.sqrt c.distance).getD Coord.zero)

def parentsOf (rule : PairingRule α) (index : Hierarchy α Nat 3)
    (targets : List (Entity α × Point α 3)) : Except QueryFault (List (Parent α)) :=
  targets.mapM fun (e, center) => (childrenOf rule index center).map fun (children, radius) =>
    ⟨e.id, center, children, radius⟩

def prepare (me : Fin n) (config : PairingConfig α)
    (domain : List (Entity α)) (domainMap : LocalMap α)
    (range : List (Entity α)) (rangeMap : LocalMap α) :
    Except (SearchError α)
      (PairingRule α × List (Entity α × Point α 3) × List (Entity α × Point α 3)) := do
  let rule ← config.validate.mapError .unsupportedConfig
  let sources ← centers me config.domainDimension domainMap domain
  let targets ← centers me config.rangeDimension rangeMap range
  pure (rule, sources, targets)

/-- Pairs the targets of this rank with the sources of all ranks. A rank that
has no room for the neighbours it asks for breaks off. -/
def build [Codec α] (me : Fin n) (config : PairingConfig α)
    (domain : List (Entity α)) (domainMap : LocalMap α)
    (range : List (Entity α)) (rangeMap : LocalMap α) :
    Routine n (SearchError α) (Pairing α) := do
  let (rule, sources, targets) ←
    Routine.ofExcept (prepare me config domain domainMap range rangeMap)
  let (routing, gathered) ←
    (Routing.ofCenters me (sources.map (·.2)) (targets.map (·.2))
      (proximity rule (targets.map (·.1)))).mapError .comm
  let ids ← (routing.distribute (sources.map fun s => s.1.id)).mapError .comm
  let index ← Routine.ofExcept
    ((Hierarchy.build (gathered.zipIdx.map fun (p, i) => (i, Box.ofPoint p))).mapError .index)
  let parents ← Routine.orAbort (parentsOf rule index targets)
  pure ⟨parents, ids, gathered⟩

end Pairing

end Vicinity
