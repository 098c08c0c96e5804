/-
Topiary.Parallel.Walk — fork-join walks and the transform built on them.

Once a node's `enter` proceeds, one task per child is forked, and all of
them are joined before the node goes on.  Then a transform merges the
children's edits into a copy of the node, and `leave` is called.

The tasks of siblings share nothing, so it does not matter in which order
they run.  The definitions run them from left to right and join their
results in the order of the children, never in order of completion.  When
several tasks fault, the leftmost fault is the one that is seen.

* `ForkJoin.visit` — one task with everything below it.
* `Visit` — what a task leaves behind: itself, the callbacks made, the
  ledger of copies, the number of nodes entered.
* `ForkJoin.walk` — a whole walk from one root; `ForkJoin.transforming` — the
  walk that edits a tree.
-/
import Topiary.Adapter
import Topiary.Parallel.Task
import Topiary.Walk.Run

namespace Topiary

/-- A fork-join walk.  With an adapter the edits of children are merged into
their parent, without one they are dropped. -/
structure ForkJoin (N D : Type) where
  children : N → NamedChildren N
  visitor : TaskVisitor N D
  merging : Option (Adapter N)
  /-- Tells the copies of this walk from those of other runs. -/
  run : Nat
  /-- The data of a task that is new. -/
  fresh : D
  /-- The data found above the root. -/
  rootData : D

/-- What visiting a task leaves behind. -/
structure Visit (N D : Type) where
  task : Task N D
  /-- The callbacks as they were made, each with its task before the call. -/
  calls : List (TaskContext N D)
  ledger : List (Rebuild N)
  entered : Nat
deriving DecidableEq, Repr

namespace ForkJoin

variable {N D : Type}

/-- Call the visitor on a task and carry out its edits.  Quitting is not
possible: siblings may be running. -/
def call (w : ForkJoin N D) (above : List (Task N D)) (t : Task N D) :
    Except Fault (Control × Task N D) := do
  let c : TaskContext N D := ⟨t, above, w.rootData⟩
  let a ← w.visitor c
  let t ← t.editAll above.isEmpty a.edits
  let t := { t with frame := { t.frame with data := a.data } }
  if a.control = .quit then throw (.misuse .quitInParallel)
  return (a.control, t)

/-- A task in a phase. -/
def inPhase (phase : Phase) (t : Task N D) : Task N D :=
  { t with frame := { t.frame with phase } }

/-- Merge the edits of the children into a copy of the node.  Without edits,
or without an adapter, the node stays as it is. -/
def complete (w : ForkJoin N D) (above : List (Task N D)) (t : Task N D)
    (edits : List (ChildEdit N)) : Except Fault (Task N D × List (Rebuild N)) :=
  match w.merging, edits with
  | some A, _ :: _ => do
    let sight : Sight N D := ⟨t.frame, above.map Task.frame, w.rootData⟩
    let site := (Site.ofRun w.run).below sight.path
    let c ← (A.children t.frame.node).editBy .integers edits
    return (t.replace (A.rebuild site t.frame.node c), [⟨site, t.frame.node⟩])
  | _, _ => .ok (t, [])

/-- The tasks of the children of a node that was entered. -/
def kids (w : ForkJoin N D) (t : Task N D) : List (Task N D) :=
  if t.frame.deleted then []
  else (t.frame.kids (w.children t.frame.node) w.fresh).map Task.ofFrame

/-- Visit a task and everything below it, at most `limit` levels deep. -/
def visit [Identified N] (w : ForkJoin N D) :
    (limit : Nat) → List (Task N D) → Task N D → Run (Visit N D)
  | 0, _, _ => .unfinished
  | limit + 1, above, t => do
    let sight : Sight N D := ⟨t.frame, above.map Task.frame, w.rootData⟩
    if sight.repeatsAbove then
      let t := inPhase .backRef { t with frame := { t.frame with visited := true } }
      let called : TaskContext N D := ⟨t, above, w.rootData⟩
      let (_, t) ← Run.ofExcept (w.call above t)
      return ⟨t, [called], [], 0⟩
    else
      let t := inPhase .enter t
      let entering : TaskContext N D := ⟨t, above, w.rootData⟩
      let (control, t) ← Run.ofExcept (w.call above t)
      if control = .abort then
        return ⟨t, [entering], [], 1⟩
      else
        let below ← (w.kids t).mapM (visit w limit (t :: above))
        let edits := below.flatMap fun v => v.task.toChildEdits
        let (t, ledger) ← Run.ofExcept (w.complete above t edits)
        let t := inPhase .leave t
        let leaving : TaskContext N D := ⟨t, above, w.rootData⟩
        let (_, t) ← Run.ofExcept (w.call above t)
        return {
          task := t
          calls := entering :: below.flatMap Visit.calls ++ [leaving]
          ledger := below.flatMap Visit.ledger ++ ledger
          entered := (below.map Visit.entered).foldr (· + ·) 0 + 1 }

/-- Walk from a root. -/
def walk [Identified N] (w : ForkJoin N D) (limit : Nat) (root : N) :
    Run (Visit N D) :=
  w.visit limit [] (.ofFrame (.root root w.fresh))

/-- The fork-join transform of trees: the walk that merges, over the
adapter's own children. -/
def transforming (A : Adapter N) (visitor : TaskVisitor N D) (run : Nat)
    (fresh rootData : D) : ForkJoin N D :=
  ⟨A.children, visitor, some A, run, fresh, rootData⟩

end ForkJoin

/-- The edited tree that a fork-join transform leaves behind. -/
def Visit.tree {N D : Type} (v : Visit N D) : N := v.task.frame.node

end Topiary
