/-
Topiary.Edit — the edits that a callback can make around its own node.

An `Edit` changes or deletes the node that the callback stands on, or
inserts a sibling next to it.  An `Act` of a callback of a sequential walk
is such an edit, or a change of the context alone that records no edit: the
walk goes on with another node, or without the node's children, but the
tree is not edited.
-/
import Topiary.ChildEdit

namespace Topiary

/-- An edit at the node that a callback stands on. -/
inductive Edit (N : Type) where
  /-- Put another node in its place; the walk goes on below that one. -/
  | change (node : N)
  /-- Remove it; its children are not visited. -/
  | delete
  /-- Put a sibling immediately before it. -/
  | insertBefore (node : N)
  /-- Put a sibling immediately after it. -/
  | insertAfter (node : N)
deriving DecidableEq, Repr

/-- One thing that a callback of a sequential walk does to its context. -/
inductive Act (N : Type) where
  /-- Make an edit. -/
  | edit (edit : Edit N)
  /-- Go on with another node. -/
  | setNode (node : N)
  /-- Go on as if the node were deleted. -/
  | markDeleted
deriving DecidableEq, Repr

variable {N : Type}

/-- The node and the mark of deletion after an edit. -/
def Edit.outcome (node : N) (deleted : Bool) : Edit N → N × Bool
  | .change node => (node, deleted)
  | .delete => (node, true)
  | .insertBefore _ => (node, deleted)
  | .insertAfter _ => (node, deleted)

/-- The node and the mark of deletion after an act. -/
def Act.outcome (node : N) (deleted : Bool) : Act N → N × Bool
  | .edit e => e.outcome node deleted
  | .setNode node => (node, deleted)
  | .markDeleted => (node, true)

end Topiary
