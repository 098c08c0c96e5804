/-
Topiary.Parallel.Task — one node of a fork-join walk.

In a fork-join walk every node is the task of a worker.  A task carries a
frame and its own list of edits, which it hands to its parent when it is
done.  Only the task itself writes to them, so no order between siblings
can be observed.

* `Task.edit` — one edit, or its refusal.
* `Task.replace` — a new current node as the task's one replacement.
* `Task.toChildEdits` — the task's edits as edits of its parent.
-/
import Topiary.Edit
import Topiary.Walk.Context

namespace Topiary

/-- A node of a fork-join walk with its own edits. -/
structure Task (N D : Type) where
  frame : Frame N D
  /-- The node was changed by an edit; merging alone does not count. -/
  changed : Bool
  edits : List (EditKind × N)
deriving DecidableEq, Repr

namespace Task

variable {N D : Type}

/-- A task that is yet to be visited. -/
def ofFrame (frame : Frame N D) : Task N D := ⟨frame, false, []⟩

/-- Overwrite the first replacement, or add one at the end. -/
def putReplacement (node : N) : List (EditKind × N) → List (EditKind × N)
  | [] => [(.replace, node)]
  | (kind, other) :: edits =>
    if kind = .replace then (kind, node) :: edits
    else (kind, other) :: putReplacement node edits

/-- Make `node` the current node and the task's replacement. -/
def replace (t : Task N D) (node : N) : Task N D :=
  { t with frame := { t.frame with node }, edits := putReplacement node t.edits }

/-- Change the node. -/
def change (t : Task N D) (node : N) : Except Fault (Task N D) :=
  if t.frame.deleted then .error (.misuse .changeOfDeleted)
  else .ok { t.replace node with changed := true }

/-- Delete the node, which discards the edits merged into it. -/
def delete (t : Task N D) (isRoot : Bool) : Except Fault (Task N D) :=
  if isRoot then .error (.misuse .deletionOfRoot)
  else if t.frame.deleted then .error (.misuse .deletionOfDeleted)
  else if t.changed || t.edits.any (fun e => e.1.isInsertion) then
    .error (.misuse .deletionOfEdited)
  else
    .ok { t with
      frame := { t.frame with deleted := true }
      edits := [(.delete, t.frame.node)] }

/-- Insert a sibling. -/
def insert (t : Task N D) (isRoot : Bool) (kind : EditKind) (node : N) :
    Except Fault (Task N D) :=
  if isRoot then .error (.misuse .insertionAroundRoot)
  else if t.frame.deleted then .error (.misuse .insertionAroundDeleted)
  else .ok { t with edits := t.edits ++ [(kind, node)] }

/-- Make an edit. -/
def edit (t : Task N D) (isRoot : Bool) : Edit N → Except Fault (Task N D)
  | .change node => t.change node
  | .delete => t.delete isRoot
  | .insertBefore node => t.insert isRoot .insertBefore node
  | .insertAfter node => t.insert isRoot .insertAfter node

/-- Make edits in order. -/
def editAll (isRoot : Bool) : Task N D → List (Edit N) → Except Fault (Task N D)
  | t, [] => .ok t
  | t, e :: es => do editAll isRoot (← t.edit isRoot e) es

/-- The edits that the parent is handed; a root hands over none. -/
def toChildEdits (t : Task N D) : List (ChildEdit N) :=
  match t.frame.location with
  | none => []
  | some location => t.edits.map fun (kind, node) => ⟨location, kind, node⟩

end Task

/-- A task with the tasks above it, nearest first, as a callback sees it. -/
structure TaskContext (N D : Type) where
  task : Task N D
  above : List (Task N D)
  rootData : D
deriving DecidableEq, Repr

/-- The frames of a task and of the tasks above it. -/
def TaskContext.sight {N D : Type} (c : TaskContext N D) : Sight N D :=
  ⟨c.task.frame, c.above.map Task.frame, c.rootData⟩

/-- What a callback of a fork-join walk answers: how to go on, its edits in
order, and the data as it now is. -/
structure TaskAnswer (N D : Type) where
  control : Control
  edits : List (Edit N)
  data : D
deriving DecidableEq, Repr

/-- The callbacks of a fork-join walk.  They share no state. -/
abbrev TaskVisitor (N D : Type) := TaskContext N D → Except Fault (TaskAnswer N D)

end Topiary
