/-
Topiary.Identity — when two values are the same node.

Finding back references and merging edits need to know whether two values
are the same node, not whether they look alike.  Every node type provides
a `NodeId` through the class `Identified`.

* Nodes held in an `Arena` are the same node when they have the same
  index.  This is the encoding for graphs with cycles.
* A node that is made is identified by where it is made: the copies that a
  run makes of the nodes of a tree carry the `Site` of the copy.  Two
  copies made at different places, or by different runs, are different
  nodes.
-/
import Topiary.Location

namespace Topiary

/-- A place at which a node is made. -/
structure Site where
  /-- Tells apart what happens at one place at different times. -/
  run : Nat
  /-- The path from the place to the root, nearest step first. -/
  path : List Location
  /-- Counts the nodes that are made at one place. -/
  count : Nat
deriving DecidableEq, Repr

namespace Site

/-- The root of a run. -/
def ofRun (run : Nat) : Site := ⟨run, [], 0⟩

/-- The place below `s` that the steps lead to, nearest step first. -/
def below (s : Site) (steps : List Location) : Site :=
  { s with path := steps ++ s.path }

end Site

/-- The identity of a node. -/
inductive NodeId where
  /-- The node with this number in a collection of nodes. -/
  | given (number : Nat)
  /-- The node that was made at this place. -/
  | made (site : Site)
deriving DecidableEq, Repr

/-- How an identity is shown; nodes that were made show no number. -/
def NodeId.display : NodeId → String
  | given number => "node_" ++ toString number
  | made site => "node_" ++ "/".intercalate (site.path.reverse.map Location.display)

/-- Node types whose values have an identity. -/
class Identified (N : Type) where
  nodeId : N → NodeId

export Identified (nodeId)

/-- Two values are the same node. -/
def sameNode {N : Type} [Identified N] (a b : N) : Bool := nodeId a == nodeId b

/-! ## Arenas -/

/-- A reference to a node of an arena. -/
structure NodeIndex where
  index : Nat
deriving DecidableEq, Repr, Inhabited

/-- How a reference is shown. -/
def NodeIndex.display (i : NodeIndex) : String := "#" ++ toString i.index

instance : Identified NodeIndex := ⟨fun i => .given i.index⟩

/-- Nodes addressed by index. -/
structure Arena (α : Type) where
  nodes : Array α
deriving Repr

namespace Arena

variable {α : Type}

/-- An arena without nodes. -/
def empty : Arena α := ⟨#[]⟩

/-- Add a node and return its reference. -/
def alloc (a : Arena α) (node : α) : Arena α × NodeIndex :=
  (⟨a.nodes.push node⟩, ⟨a.nodes.size⟩)

/-- The node of a reference. -/
def get? (a : Arena α) (i : NodeIndex) : Option α := a.nodes[i.index]?

/-- Put another node in the place of a reference that exists. -/
def set (a : Arena α) (i : NodeIndex) (node : α) : Arena α :=
  ⟨a.nodes.setIfInBounds i.index node⟩

/-- The number of nodes. -/
def size (a : Arena α) : Nat := a.nodes.size

/-- All references with their nodes, in order. -/
def toList (a : Arena α) : List (NodeIndex × α) :=
  a.nodes.toList.zipIdx.map fun (node, i) => (⟨i⟩, node)

end Arena

end Topiary
