/-
Topiary.ChildEdit — a batch of edits to one node's children.

Every edit names the child it is about by the location that child had
before the batch.  The batch is applied in one pass:

* `ChildEdit.inOrder` — edits run in ascending index; at one index
  replacements and deletions come first, then insertions before, then
  insertions after, and edits that compare equal keep the order in which
  they were recorded.
* `EditPass` — each group carries a shift, by how much the edits so far
  have moved its later children, and deleted locations are remembered: no
  further edit may name them.
* `NamedChildren.editAllBy` — the pass with the children as the edits before
  the first fault left them; `NamedChildren.editBy` — all edits or a fault.
* `NamedChildren.editAll` — the pass in words that wrap around.

An index from `2 ^ 63` on that names no child stands for a negative position.
-/
import Topiary.Children
import Topiary.Reckoning

namespace Topiary

/-! ## Kinds of edits -/

/-- What an edit does at its location. -/
inductive EditKind where
  /-- Put another node in the child's place. -/
  | replace
  /-- Remove the child. -/
  | delete
  /-- Put a new node immediately before the child. -/
  | insertBefore
  /-- Put a new node immediately after the child. -/
  | insertAfter
deriving DecidableEq, Repr, Inhabited

namespace EditKind

/-- The rank of a kind among edits at one index. -/
def precedence : EditKind → Nat
  | replace => 0
  | delete => 0
  | insertBefore => 1
  | insertAfter => 2

/-- True for the two insertions. -/
def isInsertion : EditKind → Bool
  | insertBefore => true
  | insertAfter => true
  | _ => false

/-- How a kind is shown. -/
def display : EditKind → String
  | replace => "Replace"
  | delete => "Delete"
  | insertBefore => "InsertBefore"
  | insertAfter => "InsertAfter"

/-- The edit of a list of children at `position`. -/
def perform {N : Type} (kind : EditKind) (position : Nat) (node : N)
    (nodes : List N) : List N :=
  match kind with
  | replace => nodes.set position node
  | delete => nodes.eraseIdx position
  | insertBefore => nodes.insertIdx position node
  | insertAfter => nodes.insertIdx (position + 1) node

/-- By how much an edit moves the children after it. -/
def growth : EditKind → Int
  | replace => 0
  | delete => -1
  | insertBefore => 1
  | insertAfter => 1

end EditKind

/-- One edit to a node's children.  The node is ignored by a deletion. -/
structure ChildEdit (N : Type) where
  location : Location
  kind : EditKind
  node : N
deriving DecidableEq, Repr

namespace ChildEdit

variable {N : Type}

/-- The order in which edits run; edits of equal index and rank precede
each other. -/
def precedes (a b : ChildEdit N) : Bool :=
  a.location.index < b.location.index
    || (a.location.index == b.location.index
      && a.kind.precedence ≤ b.kind.precedence)

/-- The edits of a batch in the order in which they run.  The sort is
stable. -/
def inOrder (edits : List (ChildEdit N)) : List (ChildEdit N) :=
  edits.mergeSort precedes

/-- A batch that is recorded in the order in which it runs. -/
theorem inOrder_eq_self {edits : List (ChildEdit N)}
    (h : edits.Pairwise fun a b => a.precedes b = true) : inOrder edits = edits :=
  List.mergeSort_of_pairwise h

end ChildEdit

/-! ## One pass -/

/-- A batch of edits on its way. -/
structure EditPass (N : Type) where
  /-- The children as edited so far. -/
  children : NamedChildren N
  /-- By how much each group's later children have moved.  An edit adds at most
  one to it or takes one off, so that it is a word for every batch which is
  shorter than `2 ^ 63` edits. -/
  shift : GroupName → Int
  /-- The locations deleted so far. -/
  deleted : List Location

namespace EditPass

variable {N : Type}

/-- Before the first edit. -/
def start (children : NamedChildren N) : EditPass N := ⟨children, fun _ => 0, []⟩

/-- Carry out an edit at a position of its group as it now stands. -/
def perform (p : EditPass N) (e : ChildEdit N) (position : Nat) : EditPass N where
  children := p.children.modify e.location.group (e.kind.perform position e.node)
  shift := fun g =>
    if g = e.location.group then p.shift g + e.kind.growth else p.shift g
  deleted := if e.kind = .delete then e.location :: p.deleted else p.deleted

/-- Run one edit.  That its location was not deleted is checked first, then
that its group exists, then that its position does. -/
def step (r : Reckoning) (p : EditPass N) (e : ChildEdit N) : Except Fault (EditPass N) :=
  if e.location ∈ p.deleted then
    .error (.misuse (.deletedChildEdited e.location))
  else
    match p.children.get? e.location.group with
    | none => .error (.failure (.unknownGroup e.location.group))
    | some nodes =>
      (r.locate e.location nodes.length (p.shift e.location.group)).map (p.perform e)

/-- Run edits one after the other up to the first fault. -/
def run (r : Reckoning) : EditPass N → List (ChildEdit N) → EditPass N × Option Fault
  | p, [] => (p, none)
  | p, e :: es =>
    match p.step r e with
    | .error f => (p, some f)
    | .ok q => run r q es

end EditPass

namespace NamedChildren

variable {N : Type}

/-- Apply a batch of edits.  With a fault, the children are those that the
edits before it have left. -/
def editAllBy (r : Reckoning) (c : NamedChildren N) (edits : List (ChildEdit N)) :
    NamedChildren N × Option Fault :=
  let (pass, fault) := (EditPass.start c).run r (ChildEdit.inOrder edits)
  (pass.children, fault)

/-- Apply a batch of edits, all or none. -/
def editBy (r : Reckoning) (c : NamedChildren N) (edits : List (ChildEdit N)) :
    Except Fault (NamedChildren N) :=
  match c.editAllBy r edits with
  | (edited, none) => .ok edited
  | (_, some f) => .error f

/-- Apply a batch of edits, with positions in words that wrap around. -/
def editAll (c : NamedChildren N) (edits : List (ChildEdit N)) :
    NamedChildren N × Option Fault :=
  c.editAllBy (.words .wraps) edits

end NamedChildren

end Topiary
