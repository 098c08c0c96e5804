/-
Topiary.Walk.Worklist — depth-first and breadth-first walks.

A walk works off a list of items.  Visiting a node calls `enter`, makes
contexts for its children and puts them on the list together with the
node's end mark, at which `leave` is called.  A node that is the same as
one above it is a back reference: `backRef` is called instead and its
children are left out.

* Depth first, new items go to the front: a node's whole subtree is done
  before its next sibling.
* Breadth first, new items go to the end: the children wait behind the
  node's siblings, and the end mark behind the children.

Contexts are kept in one array in the order in which they are made; each
refers to its parent by position.
-/
import Topiary.Walk.Context
import Topiary.Walk.Run

namespace Topiary

/-- In which order a walk goes through a tree. -/
inductive TraversalOrder where
  | depthFirst
  | breadthFirst
deriving DecidableEq, Repr, Inhabited

/-- A walk that can be started at any roots. -/
structure Traversal (N D S : Type) where
  children : N → NamedChildren N
  order : TraversalOrder
  visitor : Visitor N D S
  /-- The data of a context that is new. -/
  fresh : D
  /-- The data found above the roots. -/
  rootData : D

/-! ## Contexts by number -/

/-- A context and the number of its parent. -/
structure Cell (N D : Type) where
  frame : Frame N D
  parent : Option Nat
deriving DecidableEq, Repr

/-- The contexts made so far. -/
abbrev Cells (N D : Type) := Array (Cell N D)

namespace Cells

variable {N D : Type}

/-- The contexts above a context with their numbers, nearest first.  A
parent is always made before its children. -/
def above (cells : Cells N D) (id : Nat) : List (Nat × Frame N D) :=
  match cells[id]? with
  | none => []
  | some cell =>
    match cell.parent with
    | none => []
    | some p =>
      if p < id then
        match cells[p]? with
        | none => []
        | some parent => (p, parent.frame) :: above cells p
      else []
termination_by id

/-- A context as its callbacks see it. -/
def context (cells : Cells N D) (rootData : D) (id : Nat) (frame : Frame N D) :
    Context N D :=
  let above := cells.above id
  ⟨id, ⟨frame, above.map Prod.snd, rootData⟩, above.map Prod.fst⟩

/-- Put a frame in the place of a context. -/
def setFrame (cells : Cells N D) (id : Nat) (frame : Frame N D) : Cells N D :=
  cells.modify id fun cell => { cell with frame }

/-- Add contexts for frames below one parent, or for roots. -/
def addAll (cells : Cells N D) (parent : Option Nat) (frames : List (Frame N D)) :
    Cells N D :=
  frames.foldl (fun cells frame => cells.push ⟨frame, parent⟩) cells

end Cells

/-! ## The work list -/

/-- What is left to do for a context. -/
inductive Work where
  | visit (id : Nat)
  | leave (id : Nat)
deriving DecidableEq, Repr

/-- A walk on its way. -/
structure Worklist (N D S : Type) where
  cells : Cells N D
  /-- What is left to do, the next item first. -/
  pending : List Work
  state : S
  /-- How many nodes were entered. -/
  entered : Nat
  /-- A callback has asked to quit. -/
  quit : Bool
deriving DecidableEq, Repr

namespace Traversal

variable {N D S : Type}

/-- Put the children of a context and its end mark on the list. -/
def schedule (order : TraversalOrder) (id : Nat) (kids : List Nat)
    (pending : List Work) : List Work :=
  match order with
  | .depthFirst => kids.map .visit ++ .leave id :: pending
  | .breadthFirst => pending ++ kids.map .visit ++ [.leave id]

/-- Call the visitor on a context whose frame is to be `frame`. -/
def call (t : Traversal N D S) (w : Worklist N D S) (id : Nat) (frame : Frame N D) :
    Except Fault (Control × Worklist N D S) := do
  let a ← t.visitor (w.cells.context t.rootData id frame) w.state
  return (a.control,
    { w with
      cells := w.cells.setFrame id (frame.update a)
      state := a.state
      quit := a.control == .quit })

/-- Make contexts for the children of a context and schedule them. -/
def expand (t : Traversal N D S) (w : Worklist N D S) (id : Nat) : Worklist N D S :=
  match w.cells[id]? with
  | none => w
  | some cell =>
    let children := if cell.frame.deleted then .empty else t.children cell.frame.node
    let frames := cell.frame.kids children t.fresh
    let ids := List.range' w.cells.size frames.length
    { w with
      cells := w.cells.addAll (some id) frames
      pending := schedule t.order id ids w.pending }

/-- Do one item of work. -/
def work [Identified N] (t : Traversal N D S) (w : Worklist N D S) (item : Work) :
    Except Fault (Worklist N D S) :=
  match item with
  | .leave id =>
    match w.cells[id]? with
    | none => .ok w
    | some cell => do
      let (_, w) ← t.call w id { cell.frame with phase := .leave }
      return w
  | .visit id =>
    match w.cells[id]? with
    | none => .ok w
    | some cell =>
      if (w.cells.context t.rootData id cell.frame).sight.repeatsAbove then do
        let (_, w) ← t.call w id { cell.frame with visited := true, phase := .backRef }
        return w
      else do
        let (control, w) ← t.call { w with entered := w.entered + 1 } id cell.frame
        return if control = .proceed then t.expand w id else w

/-- Work the list off, at most `limit` items of it. -/
def run [Identified N] (t : Traversal N D S) :
    (limit : Nat) → Worklist N D S → Run (Worklist N D S)
  | 0, w => if w.quit || w.pending.isEmpty then .done w else .unfinished
  | limit + 1, w =>
    if w.quit then .done w
    else
      match w.pending with
      | [] => .done w
      | item :: pending =>
        match t.work { w with pending } item with
        | .error f => .failed f
        | .ok w => run t limit w

/-- The list with the roots on it, in order. -/
def start (t : Traversal N D S) (roots : List N) (state : S) : Worklist N D S where
  cells := Cells.addAll #[] none (roots.map fun node => Frame.root node t.fresh)
  pending := (List.range roots.length).map .visit
  state := state
  entered := 0
  quit := false

/-- Walk from the roots in order. -/
def walk [Identified N] (t : Traversal N D S) (limit : Nat) (roots : List N)
    (state : S) : Run (Worklist N D S) :=
  t.run limit (t.start roots state)

end Traversal

end Topiary
