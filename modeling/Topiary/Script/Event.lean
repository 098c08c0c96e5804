/-
Topiary.Script.Event — what a script reports of a callback.

An event holds what a callback saw before it acted, what its actions told,
and what it answered.  Some parts are reported on demand only.
-/
import Topiary.Script.Rule

namespace Topiary.Script

/-- The parts of events that are reported on demand. -/
structure Shown where
  crumbs : Bool := false
  parents : Bool := false
  trees : Bool := false
  flags : Bool := false
  after : Bool := false
  ancestors : Bool := false
deriving DecidableEq, Repr

/-- A context above the one of a callback. -/
structure Ancestor where
  id : Option Nat
  label : String
  reachedLabel : String
  depth : Nat
  phase : Phase
  visited : Bool
  deleted : Bool
  isRoot : Bool
  location : Option Location
  /-- The integer stored there. -/
  int : Option VarValue
  /-- The nearest integer above. -/
  above : Option VarValue
deriving DecidableEq, Repr

/-- A report of one callback. -/
structure Event where
  phase : Phase
  label : String
  depth : Nat
  location : Option Location
  /-- The number of the context, where contexts are numbered. -/
  id : Option Nat
  /-- The path to the root, nearest step first. -/
  path : List Location
  /-- The answer, if a rule was followed. -/
  control : Option Control
  /-- What the actions told. -/
  out : List (Option VarValue)
  /-- The accumulator after the actions. -/
  accumulator : Option String
  /-- The number of edits of a task after the actions. -/
  pendingEdits : Option Nat
  /-- The way to the root as `label@location`. -/
  crumbs : Option (List String)
  /-- The label of the parent and of all nodes above. -/
  parents : Option (Option String × List String)
  /-- The node as it stands and as first reached. -/
  trees : Option (String × String)
  /-- Back reference, deleted, root. -/
  flags : Option (Bool × Bool × Bool)
  /-- The node and the mark of deletion after the actions. -/
  after : Option (String × Bool)
  ancestors : Option (List Ancestor)
deriving DecidableEq, Repr

/-- The name of a callback in reports. -/
def callbackName : Phase → String
  | .enter => "enter"
  | .leave => "leave"
  | .backRef => "back_ref"

/-- The order of reports of a walk whose callbacks have no order in time:
by path from the root, and `leave` last. -/
def Event.precedes (a b : Event) : Bool :=
  match Location.orderPaths a.path.reverse b.path.reverse with
  | .lt => true
  | .gt => false
  | .eq => !(a.phase == .leave && b.phase != .leave)

variable {N : Type}

/-- A breadcrumb as `label@location`. -/
def showCrumb (scene : Scene N) (crumb : Breadcrumb N) : Except Fault String := do
  return (← scene.label crumb.node) ++ "@" ++ crumb.location.display

/-- A report of a context above. -/
def Ancestor.ofSight (scene : Scene N) (id : Option Nat) (s : Sight N Vars) :
    Except Fault Ancestor := do
  let f := s.frame
  return {
    id, label := ← scene.label f.node, reachedLabel := ← scene.label f.reached
    depth := f.depth, phase := f.phase, visited := f.visited, deleted := f.deleted
    isRoot := s.isRoot, location := f.location, int := f.data.find? .int
    above := s.findAbove? (·.find? .int) }

/-- Reports of the contexts above; the numbers may be missing. -/
def Ancestor.ofSights (scene : Scene N) : List (Sight N Vars) → List Nat →
    Except Fault (List Ancestor)
  | [], _ => .ok []
  | s :: ss, ids => do
    return (← ofSight scene ids.head? s) :: (← ofSights scene ss ids.tail)

/-- A part that is reported on demand. -/
def onDemand {α : Type} (wanted : Bool) (part : Unit → Except Fault α) :
    Except Fault (Option α) :=
  if wanted then some <$> part () else .ok none

/-- What a callback sees before it acts. -/
def Event.observe (scene : Scene N) (shown : Shown) (s : Sight N Vars)
    (id : Option Nat) (idsAbove : List Nat) : Except Fault Event := do
  let f := s.frame
  return {
    phase := f.phase
    label := ← scene.label f.node
    depth := f.depth
    location := f.location
    id
    path := s.path
    control := none
    out := []
    accumulator := none
    pendingEdits := none
    crumbs := ← onDemand shown.crumbs fun _ => s.crumbs.mapM (showCrumb scene)
    parents := ← onDemand shown.parents fun _ => do
      let labels ← s.nodesAbove.mapM scene.label
      return (labels.head?, labels)
    trees := ← onDemand shown.trees fun _ => do
      return (← scene.render f.node, ← scene.render f.reached)
    flags := if shown.flags then some (f.visited, f.deleted, s.isRoot) else none
    after := none
    ancestors := ← onDemand shown.ancestors fun _ =>
      Ancestor.ofSights scene s.sightsAbove idsAbove }

end Topiary.Script
