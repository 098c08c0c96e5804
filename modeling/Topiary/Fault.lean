/-
Topiary.Fault — what can go wrong, by cause.

A `Failure` is reported to the caller: a lookup that names no child, or a
worker pool that could not be built.  A `Misuse` is a mistake of the
caller that stops the computation.  `Fault` is either.  All wording is
in the three `message` functions; nothing else in the library compares
or builds error texts.
-/
import Topiary.Location
import Topiary.Text.Line

namespace Topiary

/-- The two classes of failures. -/
inductive FailureClass where
  /-- A lookup named a group or an index that does not exist. -/
  | lookup
  /-- The surroundings of the program could not be set up. -/
  | runtime
deriving DecidableEq, Repr

/-- How a class is shown. -/
def FailureClass.display : FailureClass → String
  | lookup => "lookup"
  | runtime => "runtime"

/-- A failure that is reported to the caller. -/
inductive Failure where
  /-- The index lies past the end of a group of `size` children. -/
  | childOutOfBounds (group : GroupName) (index size : Nat)
  /-- The node has no group of this name. -/
  | unknownGroup (group : GroupName)
  /-- The dedicated worker pool could not be built. -/
  | workerPool (detail : String)
deriving DecidableEq, Repr

namespace Failure

/-- The class of a failure. -/
def failureClass : Failure → FailureClass
  | childOutOfBounds .. => .lookup
  | unknownGroup _ => .lookup
  | workerPool _ => .runtime

/-- The text of a failure. -/
def message : Failure → String
  | childOutOfBounds group index size =>
    "no child at " ++ (Location.mk group index).display ++ ": group has "
      ++ toString size ++ " children"
  | unknownGroup group => "node has no child group " ++ group.display
  | workerPool detail => "worker pool error: " ++ detail

end Failure

/-- The operations on machine words that can leave their range. -/
inductive Operation where
  | add
  | subtract
deriving DecidableEq, Repr

/-- How an operation is shown. -/
def Operation.display : Operation → String
  | add => "add"
  | subtract => "subtract"

/-- A mistake of the caller. -/
inductive Misuse where
  /-- A child that an earlier edit of the batch deleted is edited again. -/
  | deletedChildEdited (location : Location)
  /-- A zipper at the root is asked to move up. -/
  | moveUpFromRoot
  /-- A zipper that is not a replacement has reached the root. -/
  | rootNotReplaced
  /-- Several zippers are left at the root. -/
  | unmergedAtRoot (count : Nat)
  /-- A position outside a list is read, written or split at. -/
  | indexOutOfBounds
  /-- An edit outside of the enter and leave callbacks of a transform. -/
  | editOutsideTransform
  /-- A deleted node is changed. -/
  | changeOfDeleted
  /-- The root node is deleted. -/
  | deletionOfRoot
  /-- A deleted node is deleted again. -/
  | deletionOfDeleted
  /-- A node that was changed, or has insertions around it, is deleted. -/
  | deletionOfEdited
  /-- A sibling is inserted next to the root. -/
  | insertionAroundRoot
  /-- A sibling is inserted next to a deleted node. -/
  | insertionAroundDeleted
  /-- A callback of a fork-join walk asks to quit. -/
  | quitInParallel
  /-- One of two vertex ids lies outside of the graph. -/
  | vertexNotInGraph
  /-- This vertex id lies outside of the graph. -/
  | foreignVertex (id : Nat)
  /-- The vertices that are left wait for each other. -/
  | dependencyCycle (unclosed : Nat)
  /-- The result of an operation is held by no word. -/
  | overflow (operation : Operation)
deriving DecidableEq, Repr

/-- The text of a misuse. -/
def Misuse.message : Misuse → String
  | deletedChildEdited l =>
    "deleted child " ++ l.display ++ " cannot carry further edits"
  | moveUpFromRoot => "cannot move up from the root node"
  | rootNotReplaced => "the root node can only be replaced"
  | unmergedAtRoot count =>
    toString count ++ " zippers remain at the root and cannot be merged"
  | indexOutOfBounds => "index out of bounds"
  | editOutsideTransform =>
    "edits can only be made from enter or leave of a TreeTransformer walk"
  | changeOfDeleted => "cannot change a deleted node"
  | deletionOfRoot => "the root node cannot be deleted"
  | deletionOfDeleted => "node is already deleted"
  | deletionOfEdited =>
    "a changed node or an insertion anchor cannot also be deleted"
  | insertionAroundRoot => "siblings cannot be inserted around the root node"
  | insertionAroundDeleted => "cannot insert around a deleted node"
  | quitInParallel => "TraversalControl::Quit is not supported by parallel walks"
  | vertexNotInGraph => "vertex does not belong to this graph"
  | foreignVertex id => "vertex v" ++ toString id ++ " does not belong to this graph"
  | dependencyCycle unclosed =>
    "dependency cycle: " ++ toString unclosed ++ " vertices can never be closed"
  | overflow operation => "attempt to " ++ operation.display ++ " with overflow"

/-- The first line of the text of a misuse, which is what reports show. -/
def Misuse.headline (m : Misuse) : String := Text.firstLine m.message

/-- Anything that stops a computation. -/
inductive Fault where
  | failure (cause : Failure)
  | misuse (cause : Misuse)
deriving DecidableEq, Repr

/-- The text of a fault. -/
def Fault.message : Fault → String
  | failure f => f.message
  | misuse m => m.message

/-! ## Results -/

section

variable {α β : Type} {b : β}

theorem bind_eq_ok_iff {x : Except Fault α} {f : α → Except Fault β} :
    x >>= f = .ok b ↔ ∃ a, x = .ok a ∧ f a = .ok b := by
  cases x <;> simp [bind, Except.bind]

theorem map_eq_ok_iff {x : Except Fault α} {f : α → β} :
    x.map f = .ok b ↔ ∃ a, x = .ok a ∧ f a = b := by
  cases x <;> simp [Except.map]

end

end Topiary
