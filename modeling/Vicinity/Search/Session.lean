import Vicinity.Entity.Selection
import Vicinity.Group.Routing
import Vicinity.Hierarchy.Query
import Vicinity.Search.Config
import Vicinity.Search.Correspondence
import Vicinity.Search.LocalMap

/-!
# Search sessions

A session indexes a rank's share of the domain entities and knows the domain
bounds of every rank. Each search ships the range entities as padded boxes to
the ranks whose bounds they meet, locates them there, and returns every record
to the rank that asked. A rank then holds the records of its own domain
entities and those of the range entities it submitted. A search that fails
leaves the session as it was.
-/

set_option autoImplicit false

namespace Vicinity

variable {α : Type} {n : Nat}

structure RangeQuery (α : Type) where
  id : EntityId
  owner : UInt64
  point : Point α 3
  box : Box α 3

instance [Codec α] : Codec (RangeQuery α) where
  encode q := Codec.encode q.id ++ Codec.encode q.owner ++ Codec.encode q.point ++
    Codec.encode q.box
  decode := do
    let id ← Codec.decode
    let owner ← Codec.decode
    let point ← Codec.decode
    let box ← Codec.decode
    pure ⟨id, owner, point, box⟩

structure Session (α : Type) (n : Nat) where
  me : Fin n
  config : SearchConfig α
  domain : List (Entity α)
  domainMap : LocalMap α
  index : Hierarchy α Nat 3
  regions : List (Option (Box α 3))
  correspondence : Correspondence α
  missed : List EntityId

namespace Session

variable [Coord α]

def keep (dimension : Option Dimension) (es : List (Entity α)) : List (Entity α) :=
  es.filter (Selection.ofDimension? dimension)

def prepare (config : SearchConfig α) (entities : List (Entity α)) :
    Except (SearchError α) (List (Entity α) × Hierarchy α Nat 3) := do
  config.validate.mapError .unsupportedConfig
  let domain := keep config.domainDimension entities
  let index ← (Hierarchy.build (domain.zipIdx.map fun (e, i) => (i, e.bounds))).mapError .index
  pure (domain, index)

def padding (tolerance : α) (b : Box α 3) : α :=
  Coord.greater (tolerance * b.largestExtent) tolerance

def queries (tolerance : α) (map : LocalMap α) (range : List (Entity α)) :
    Except (SearchError α) (List (RangeQuery α)) :=
  range.zipIdx.mapM fun (e, position) => do
    if !e.bounds.isValid then throw (.index (.invalidVolume position))
    let point ← map.centroid e
    pure ⟨e.id, e.owner, point, e.bounds.expanded (padding tolerance e.bounds)⟩

def hits (s : Session α n) (q : RangeQuery α) : List Nat :=
  (s.index.query q.box).mergeSort fun i j => decide (i ≤ j)

def resolveIn (s : Session α n) (q : RangeQuery α) (e : Entity α) :
    Except (SearchError α) (Option (Record α)) :=
  (s.domainMap.locate e q.point s.config.tolerance).map fun found =>
    found.map fun coordinates => ⟨e.id, q.id, q.owner, coordinates⟩

def resolve (s : Session α n) (imported : List (RangeQuery α × Fin n)) :
    Except (SearchError α) (List (Record α × Fin n)) := do
  let domain := s.domain.toArray
  let perQuery ← imported.mapM fun (q, origin) => do
    let found ← ((s.hits q).filterMap fun i => domain[i]?).mapM (s.resolveIn q)
    pure ((found.filterMap id).map fun record => (record, origin))
  pure perQuery.flatten

def unmatched (c : Correspondence α) (range : List (Entity α)) : List EntityId :=
  (range.map (·.id)).filter fun id => (c.domainEntities id).isEmpty

variable [Codec α]

def start (me : Fin n) (entities : List (Entity α)) (map : LocalMap α)
    (config : SearchConfig α) : Routine n (SearchError α) (Session α n) := do
  let (domain, index) ← Routine.ofExcept (prepare config entities)
  let regions ← (Routing.gatherBoxes me index.bounds).mapError .comm
  pure ⟨me, config, domain, map, index, regions, .empty, []⟩

def locateAll (s : Session α n) (entities : List (Entity α)) (map : LocalMap α) :
    Routine n (SearchError α) (Correspondence α × List EntityId) := do
  let range := keep s.config.rangeDimension entities
  let sent ← Routine.ofExcept (queries s.config.tolerance map range)
  let owners := range.foldl (fun c e => c.setRangeOwner e.id e.owner) Correspondence.empty
  let routing ← (Routing.ofQueryBoxes s.me (sent.map (·.box)) s.regions).mapError .comm
  let imported ← (routing.distribute sent).mapError .comm
  let found ← Routine.ofExcept (s.resolve (imported.zip routing.importRanks))
  let back ← (Plan.build s.me (found.map fun f => f.2.val)).mapError .comm
  let returned ← (back.distribute (found.map (·.1))).mapError .comm
  let correspondence := (owners.extend (found.map (·.1))).extend returned
  pure (correspondence, if s.config.trackMissed then unmatched correspondence range else [])

def search (s : Session α n) (entities : List (Entity α)) (map : LocalMap α) :
    Proc n (Except (SearchError α) Unit × Session α n) :=
  (s.locateAll entities map).run.bind fun
    | .ok (correspondence, missed) => .done (.ok (), { s with correspondence, missed })
    | .error e => .done (.error e, s)

/-- Searches in turn, each with the session after it. In a group of several
ranks a rank stops at a failure, for its peers may be waiting in vain. -/
def searchAll (s : Session α n) :
    List (List (Entity α) × LocalMap α) →
      Proc n (List (Except (SearchError α) Unit × Session α n))
  | [] => .done []
  | (entities, map) :: rest => (s.search entities map).bind fun
    | (.error e, s) =>
      if 1 < n then .done [(.error e, s)]
      else (searchAll s rest).bind fun later => .done ((.error e, s) :: later)
    | (.ok (), s) => (searchAll s rest).bind fun later => .done ((.ok (), s) :: later)

def coordinates (s : Session α n) (domain range : EntityId) :
    Except (SearchError α) (Point α 3) :=
  match s.correspondence.coordinates? domain range with
  | some p => .ok p
  | none => .error (.lookup domain range)

def rangeOwner (s : Session α n) (range : EntityId) : Except (SearchError α) UInt64 :=
  match s.correspondence.rangeOwner? range with
  | some owner => .ok owner
  | none => .error (.unknownRange range)

end Session

def describeDimension : Option Dimension → String
  | none => "None"
  | some d => "Some(" ++ d.name ++ ")"

def SearchConfig.describe (c : SearchConfig Float) : String :=
  "SearchConfig \x7b tolerance: " ++ Decimal.marked c.tolerance ++
    ", domain_dimension: " ++ describeDimension c.domainDimension ++
    ", range_dimension: " ++ describeDimension c.rangeDimension ++
    ", track_missed_range_entities: " ++ toString c.trackMissed ++ " \x7d"

def Session.describe (s : Session Float n) : String :=
  "ParallelSearch \x7b rank: " ++ toString s.me.val ++
    ", domain_entities: " ++ toString s.domain.length ++
    ", records: " ++ toString s.correspondence.size ++
    ", config: " ++ s.config.describe ++ ", .. \x7d"

end Vicinity
