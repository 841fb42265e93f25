import Vicinity.Group.Kind
import Vicinity.Group.Routing
import Vicinity.Group.Schedule
import Vicinity.Text.Duration

/-!
# Scripts

A rank's program as a list of steps. A step that fails gives its failure as
its reply and the script goes on, except after a receive that ran out of time.
Plans and routings are numbered in the order in which they were built.
-/

set_option autoImplicit false

namespace Vicinity

variable {α : Type}

inductive Step (α : Type) where
  | rank
  | describe
  | send (dest : Nat) (tag : Tag) (payload : Payload)
  | receive (source : Nat) (tag : Tag)
  | sendValue (dest : Nat) (tag : Tag) (kind : Kind) (value : kind.Carrier α)
  | receiveValue (source : Nat) (tag : Tag) (kind : Kind)
  | barrier
  | allGather (kind : Kind) (value : kind.Carrier α)
  | allReduce (kind : Kind) (value : kind.Carrier α)
      (combine : kind.Carrier α → kind.Carrier α → kind.Carrier α)
  | exchangeCounts (counts : List Nat)
  | plan (dests : List Nat)
  | distribute (kind : Kind) (values : List (kind.Carrier α)) (plan : Option Nat)
  | routeBoxes (queries : List (Box α 3)) (peers : List (Option (Box α 3)))
  | routeCenters (sources targets : List (Point α 3)) (proximity : α)
  | distributeRouted (kind : Kind) (values : List (kind.Carrier α)) (routing : Option Nat)
  | gatherBoxes (box : Option (Box α 3))
  | globalBox (box : Option (Box α 3))
  | awaitLeft (peer : Nat)
  | leave
  | panic

inductive StepError where
  | exchange (fault : CommError)
  | routing (fault : CommError)
  | noPlan
  deriving DecidableEq, Repr

def StepError.isTimeout : StepError → Bool
  | exchange fault => fault.isTimeout
  | routing fault => fault.isTimeout
  | noPlan => false

inductive Reply (α : Type) (n : Nat) where
  | nothing
  | rank (me : Fin n)
  | text (s : String)
  | bytes (payload : Payload)
  | value (kind : Kind) (value : kind.Carrier α)
  | values (kind : Kind) (values : List (kind.Carrier α))
  | counts (counts : List Nat)
  | plan (plan : Plan n)
  | routing (routing : Routing n) (imported : Option (List (Point α 3)))
  | boxes (boxes : List (Option (Box α 3)))
  | box (box : Option (Box α 3))

namespace Script

variable {n : Nat}

def describeEndpoint (me : Fin n) (timeout : Option Nat) : String :=
  "LocalComm \x7b rank: " ++ toString me.val ++ ", size: " ++ toString n ++ ", recv_timeout: " ++
    (match timeout with
    | none => "None"
    | some millis => "Some(" ++ Duration.ofMillis millis ++ ")") ++ ", .. \x7d"

structure Built (n : Nat) where
  plans : List (Plan n)
  routings : List (Routing n)

def pick {τ : Type} (built : List τ) : Option Nat → Except StepError τ
  | none => (built.getLast?.map Except.ok).getD (.error .noPlan)
  | some i => (built[i]?.map Except.ok).getD (.error .noPlan)

variable [Coord α] [Codec α]

def exchange {τ : Type} (r : Routine n CommError τ) : Routine n StepError τ :=
  r.mapError StepError.exchange

def routed {τ : Type} (r : Routine n CommError τ) : Routine n StepError τ :=
  r.mapError StepError.routing

def requireRankRoom {ε : Type} (plan : Plan n) : Routine n ε Unit :=
  Routine.requireRoom plan.numImports 8

def perform (me : Fin n) (timeout : Option Nat) (built : Built n) :
    Step α → Routine n StepError (Reply α n × Built n)
  | .rank => pure (.rank me, built)
  | .describe => pure (.text (describeEndpoint me timeout), built)
  | .send dest tag payload => exchange do
    Routine.send (← Routine.rank dest) tag payload
    pure (.nothing, built)
  | .receive source tag => exchange do
    pure (.bytes (← Routine.receive (← Routine.rank source) tag), built)
  | .sendValue dest tag _ value => exchange do
    Routine.sendValue (← Routine.rank dest) tag value
    pure (.nothing, built)
  | .receiveValue source tag kind => exchange do
    pure (.value kind (← Routine.receiveValue (← Routine.rank source) tag), built)
  | .barrier => exchange do
    Routine.barrier me
    pure (.nothing, built)
  | .allGather kind value => exchange do
    pure (.values kind (← Routine.allGather me value), built)
  | .allReduce kind value combine => exchange do
    pure (.value kind (← Routine.allReduce me value combine), built)
  | .exchangeCounts counts => exchange do
    pure (.counts (← Routine.exchangeCounts me counts), built)
  | .plan dests => exchange do
    let plan ← Plan.build me dests
    requireRankRoom plan
    pure (.plan plan, { built with plans := built.plans ++ [plan] })
  | .distribute kind values number => do
    let plan ← Routine.ofExcept (pick built.plans number)
    exchange do pure (.values kind (← plan.distributeInRoom kind.width values), built)
  | .routeBoxes queries peers => routed do
    let routing ← Routing.ofQueryBoxes me queries peers
    requireRankRoom routing.plan
    pure (.routing routing none, { built with routings := built.routings ++ [routing] })
  | .routeCenters sources targets proximity => routed do
    let routing ← Routing.towardTargets me sources targets proximity
    let imported ← routing.distributeInRoom (Kind.width .point) sources
    pure (.routing routing (some imported), { built with routings := built.routings ++ [routing] })
  | .distributeRouted kind values number => do
    let routing ← Routine.ofExcept (pick built.routings number)
    routed do pure (.values kind (← routing.distributeInRoom kind.width values), built)
  | .gatherBoxes box => routed do pure (.boxes (← Routing.gatherBoxes me box), built)
  | .globalBox box => routed do pure (.box (← Routing.globalBox me box), built)
  | .awaitLeft peer => exchange do
    let peer ← Routine.rank peer
    ExceptT.mk (.awaitLeft peer (.done (.ok (.nothing, built))))
  | .leave => pure (.nothing, built)
  | .panic => Routine.abort

def run (me : Fin n) (timeout : Option Nat) (built : Built n) :
    List (Step α) → Proc n (List (Except StepError (Reply α n)))
  | [] => .done []
  | .leave :: _ => .leave (.done [])
  | step :: rest => (perform me timeout built step).run.bind fun
    | .ok (reply, built) => (run me timeout built rest).bind fun replies => .done (.ok reply :: replies)
    | .error e =>
      if e.isTimeout then .done [.error e]
      else (run me timeout built rest).bind fun replies => .done (.error e :: replies)

end Script

end Vicinity
