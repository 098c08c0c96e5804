/-
Topiary.Walk.Context — what a walk keeps for every node it reaches.

A `Frame` describes one occurrence of a node: the node as it stands and as
it was first reached, its place, its depth, what is being done with it, and
the data `D` that visitors keep on it.  A `Sight` is a frame with the frames
above it, nearest first; everything a callback may look at is read off it.

* `Sight.crumbs` — the way to the root, nearest step first.
* `Sight.repeatsAbove` — the node is the same as one above it: a back
  reference.
* `Sight.findAbove?` — the nearest value above, then the root data.
-/
import Topiary.Children
import Topiary.Identity

namespace Topiary

/-- What a callback answers about how to go on. -/
inductive Control where
  /-- Go on; from `enter`, visit the children. -/
  | proceed
  /-- From `enter`, leave out the children and the leave callback. -/
  | abort
  /-- Stop the whole walk. -/
  | quit
deriving DecidableEq, Repr, Inhabited

/-- How a control answer is shown. -/
def Control.display : Control → String
  | proceed => "Continue"
  | abort => "Abort"
  | quit => "Quit"

/-- The callback that a context is handed to. -/
inductive Phase where
  /-- The node is reached, or waits to be. -/
  | enter
  /-- All children of the node are done. -/
  | leave
  /-- The node repeats one above it. -/
  | backRef
deriving DecidableEq, Repr, Inhabited

/-- How a phase is shown. -/
def Phase.display : Phase → String
  | enter => "Enter"
  | leave => "Leave"
  | backRef => "BackRef"

/-- One occurrence of a node in a walk. -/
structure Frame (N D : Type) where
  /-- The node as it stands. -/
  node : N
  /-- The node as it was first reached. -/
  reached : N
  /-- The place in the parent; none at a root. -/
  location : Option Location
  /-- The number of frames above. -/
  depth : Nat
  phase : Phase
  /-- The node repeats one above it. -/
  visited : Bool
  /-- The node was marked as deleted; its children are not visited. -/
  deleted : Bool
  /-- What visitors keep here. -/
  data : D
deriving DecidableEq, Repr

namespace Frame

variable {N D : Type}

/-- A root that is yet to be visited. -/
def root (node : N) (data : D) : Frame N D :=
  ⟨node, node, none, 0, .enter, false, false, data⟩

/-- A child that is yet to be visited. -/
def child (parent : Frame N D) (location : Location) (node : N) (data : D) :
    Frame N D :=
  ⟨node, node, some location, parent.depth + 1, .enter, false, false, data⟩

/-- The frames of the children of a node, in order. -/
def kids (parent : Frame N D) (children : NamedChildren N) (data : D) :
    List (Frame N D) :=
  children.locations.map fun (location, node) => parent.child location node data

/-- The same frame with other data. -/
def mapData {E : Type} (f : D → E) (x : Frame N D) : Frame N E :=
  { x with data := f x.data }

end Frame

/-- A frame with the frames above it, nearest first. -/
structure Sight (N D : Type) where
  frame : Frame N D
  above : List (Frame N D)
  /-- What visitors find above the roots. -/
  rootData : D
deriving DecidableEq, Repr

namespace Sight

variable {N D : Type}

/-- True at a root. -/
def isRoot (s : Sight N D) : Bool := s.above.isEmpty

/-- The nodes above, nearest first. -/
def nodesAbove (s : Sight N D) : List N := s.above.map Frame.node

/-- The breadcrumbs of a frame below a list of frames. -/
def crumbsBelow (frame : Frame N D) : List (Frame N D) → List (Breadcrumb N)
  | [] => []
  | parent :: above =>
    match frame.location with
    | none => []
    | some location => ⟨parent.node, location⟩ :: crumbsBelow parent above

/-- The way to the root depends on a frame through its location only. -/
theorem crumbsBelow_congr {f f' : Frame N D} (h : f.location = f'.location)
    (above : List (Frame N D)) : crumbsBelow f above = crumbsBelow f' above := by
  cases above with
  | nil => rfl
  | cons parent above => simp only [crumbsBelow, h]

/-- The way to the root, nearest step first, over the nodes as they stand. -/
def crumbs (s : Sight N D) : List (Breadcrumb N) := crumbsBelow s.frame s.above

/-- The way to the root as locations, nearest step first. -/
def path (s : Sight N D) : List Location := s.crumbs.map Breadcrumb.location

/-- The node is the same as one above it. -/
def repeatsAbove [Identified N] (s : Sight N D) : Bool :=
  s.above.any fun f => nodeId f.node == nodeId s.frame.node

/-- The nearest value above, or else the one of the root data. -/
def findAbove? {α : Type} (s : Sight N D) (get? : D → Option α) : Option α :=
  match s.above.findSome? fun f => get? f.data with
  | some a => some a
  | none => get? s.rootData

/-- The sight of each frame above, nearest first. -/
def sightsAbove (s : Sight N D) : List (Sight N D) := go s.above
where
  go : List (Frame N D) → List (Sight N D)
    | [] => []
    | f :: fs => ⟨f, fs, s.rootData⟩ :: go fs

/-- The same sight with other data. -/
def mapData {E : Type} (f : D → E) (s : Sight N D) : Sight N E :=
  ⟨s.frame.mapData f, s.above.map (Frame.mapData f), f s.rootData⟩

end Sight

/-- A sight in a sequential walk, where contexts are numbered in the order
in which they are made. -/
structure Context (N D : Type) where
  id : Nat
  sight : Sight N D
  /-- The numbers of the frames above, nearest first. -/
  idsAbove : List Nat
deriving DecidableEq, Repr

/-- What a callback of a sequential walk answers: how to go on, the node as
it now stands, whether to mark it as deleted, and the data and the state as
they now are. -/
structure Answer (N D S : Type) where
  control : Control
  node : N
  deleted : Bool
  data : D
  state : S
deriving DecidableEq, Repr

/-- A frame after a callback.  The mark of deletion stays once it is set. -/
def Frame.update {N D S : Type} (f : Frame N D) (a : Answer N D S) : Frame N D :=
  { f with node := a.node, deleted := f.deleted || a.deleted, data := a.data }

/-- The answer that changes nothing. -/
def Answer.keep {N D S : Type} (c : Context N D) (state : S) : Answer N D S :=
  ⟨.proceed, c.sight.frame.node, false, c.sight.frame.data, state⟩

/-- The callbacks of a sequential walk.  The phase of the frame tells which
one is meant; the state `S` is handed from callback to callback. -/
abbrev Visitor (N D S : Type) := Context N D → S → Except Fault (Answer N D S)

end Topiary
