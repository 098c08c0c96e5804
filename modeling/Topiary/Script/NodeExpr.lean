/-
Topiary.Script.NodeExpr — descriptions of nodes, and what they describe.

A script is a visitor given by rules.  Its rules describe nodes by
expressions: new nodes with labels and groups, nodes that were named
before, nodes around the callback, or positions in an arena.

* `NodeExpr.plant` — the tree of an expression.  Children are made before
  their parent, and a named node can be referred to from then on.
* `Scene` — how a script looks at the nodes of a walk and makes new ones;
  `Scene.trees` and `Scene.arena` are the two kinds.
-/
import Topiary.Fault
import Topiary.Tree

namespace Topiary.Script

/-- The nodes around a callback. -/
inductive Role where
  /-- The node as it stands. -/
  | this
  /-- The node as it was first reached. -/
  | reached
  /-- The parent's node; at a root the node itself. -/
  | parent
  /-- The root's node; at a root the node itself. -/
  | root
deriving DecidableEq, Repr

/-- A description of a node. -/
inductive NodeExpr where
  /-- A new node, which may be named. -/
  | make (label : String) (groups : List (GroupName × List NodeExpr))
      (name? : Option String)
  /-- The node of this name. -/
  | ref (name : String)
  /-- A node around the callback. -/
  | use (role : Role)
  /-- A new node with the children of the current one and another label. -/
  | relabel (label : String)
  /-- The same with a text added to the current label. -/
  | extend (text : String)
  /-- A position in an arena. -/
  | index (index : Nat)
deriving Repr, Inhabited

/-- Names of nodes and the number of nodes made so far. -/
structure Nursery where
  named : List (String × Tree)
  made : Nat
deriving Repr, Inhabited

namespace Nursery

/-- Nothing planted. -/
def empty : Nursery := ⟨[], 0⟩

/-- Make a node. -/
def grow (n : Nursery) (newId : Nat → NodeId) (label : String)
    (c : NamedChildren Tree) : Tree × Nursery :=
  (.ofChildren (newId n.made) label c, { n with made := n.made + 1 })

/-- Name a node. -/
def remember (n : Nursery) (name? : Option String) (t : Tree) : Nursery :=
  match name? with
  | none => n
  | some name => { n with named := (name, t) :: n.named }

end Nursery

namespace NodeExpr

mutual

/-- The tree of an expression.  A name that is not known stands for the
current node, and so does a position in an arena. -/
def plant (newId : Nat → NodeId) (role : Role → Tree) :
    NodeExpr → Nursery → Tree × Nursery
  | make label groups name?, n =>
    let (groups, n) := plantGroups newId role groups n
    let (t, n) := n.grow newId label (.ofList groups)
    (t, n.remember name? t)
  | ref name, n => ((n.named.lookup name).getD (role .this), n)
  | use r, n => (role r, n)
  | relabel label, n => n.grow newId label (role .this).children
  | extend text, n => n.grow newId ((role .this).label ++ text) (role .this).children
  | index _, n => (role .this, n)

/-- The groups of a new node. -/
def plantGroups (newId : Nat → NodeId) (role : Role → Tree) :
    List (GroupName × List NodeExpr) → Nursery → Groups Tree × Nursery
  | [], n => ([], n)
  | (name, exprs) :: groups, n =>
    let (ts, n) := plantNodes newId role exprs n
    let (rest, n) := plantGroups newId role groups n
    ((name, ts) :: rest, n)

/-- The nodes of a group. -/
def plantNodes (newId : Nat → NodeId) (role : Role → Tree) :
    List NodeExpr → Nursery → List Tree × Nursery
  | [], n => ([], n)
  | e :: es, n =>
    let (t, n) := plant newId role e n
    let (ts, n) := plantNodes newId role es n
    (t :: ts, n)

end

/-- Plant a tree outside of a walk; its nodes are numbered. -/
def plantGiven (e : NodeExpr) (n : Nursery) : Tree × Nursery :=
  e.plant .given (fun _ => default) n

/-- Plant trees outside of a walk. -/
def plantAllGiven (es : List NodeExpr) (n : Nursery) : List Tree × Nursery :=
  plantNodes .given (fun _ => default) es n

end NodeExpr

/-- How a script looks at nodes and makes new ones. -/
structure Scene (N : Type) where
  label : N → Except Fault String
  /-- The node as text. -/
  render : N → Except Fault String
  /-- The node has no child in any of its own groups. -/
  isLeaf : N → Except Fault Bool
  /-- Refuses nodes whose children cannot be read. -/
  check : N → Except Fault Unit
  /-- The node of an expression, and the number of nodes made for it. -/
  make : Site → (Role → N) → NodeExpr → N × Nat

namespace Scene

/-- Trees, with the names that expressions may refer to.  Nodes made for an
expression are counted from the site's count on; their names are not
kept. -/
def trees (named : List (String × Tree)) : Scene Tree where
  label := fun t => .ok t.label
  render := fun t => .ok t.render
  isLeaf := fun t => .ok t.isLeaf
  check := fun _ => .ok ()
  make := fun site role e =>
    let newId := fun count => NodeId.made { site with count := site.count + count }
    let (t, n) := e.plant newId role ⟨named, 0⟩
    (t, n.made)

/-- The label and children of a node of a graph. -/
abbrev GraphNode := String × NamedChildren NodeIndex

/-- The node of an index, which must lie in the arena. -/
def nodeAt (arena : Arena GraphNode) (i : NodeIndex) : Except Fault GraphNode :=
  match arena.get? i with
  | none => .error (.misuse .indexOutOfBounds)
  | some node => .ok node

/-- The children of an index; outside of the arena there are none. -/
def childrenAt (arena : Arena GraphNode) (i : NodeIndex) : NamedChildren NodeIndex :=
  match arena.get? i with
  | none => .empty
  | some node => node.2

/-- Positions in an arena. -/
def arena (a : Arena GraphNode) : Scene NodeIndex where
  label := fun i => return (← nodeAt a i).1
  render := fun i => return (← nodeAt a i).1 ++ i.display
  isLeaf := fun i => return (← nodeAt a i).2.isEmpty
  check := fun i => do let _ ← nodeAt a i
  make := fun _ role e =>
    match e with
    | .index i => (⟨i⟩, 0)
    | .use r => (role r, 0)
    | _ => (role .this, 0)

end Scene

end Topiary.Script
