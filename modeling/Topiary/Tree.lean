/-
Topiary.Tree — labelled trees with named child groups.

A `Tree` is an identified node with a label and child groups.  The same
node may occur at several places of a tree; its identity tells.

* `Tree.render` — one line of text: a node without groups is its label,
  any other node is `label(...)` with its groups separated by `;`, the
  unnamed group as its children separated by `,` and a named group as
  `name=[...]`.
* `Tree.adapter` — all groups as they are.
* `Tree.fixedAdapter` — a fixed list of named groups for every node.
* `Tree.sharing` — which nodes of one tree occur in another one.
-/
import Topiary.Adapter

namespace Topiary

/-- A labelled tree. -/
inductive Tree where
  | node (id : NodeId) (label : String) (groups : List (GroupName × List Tree))
deriving Repr

namespace Tree

/-- The identity of the top node. -/
def id : Tree → NodeId
  | node id _ _ => id

/-- The label of the top node. -/
def label : Tree → String
  | node _ label _ => label

/-- The groups of the top node as they were listed. -/
def groups : Tree → Groups Tree
  | node _ _ groups => groups

instance : Inhabited Tree := ⟨.node (.given 0) "" []⟩

instance : Identified Tree := ⟨id⟩

/-- The child groups of the top node. -/
def children (t : Tree) : NamedChildren Tree := .ofList t.groups

/-- True if the top node has no child in any group. -/
def isLeaf (t : Tree) : Bool := t.children.isEmpty

/-- A node with given groups. -/
def ofChildren (id : NodeId) (label : String) (c : NamedChildren Tree) : Tree :=
  node id label c.groups

/-! ## Text -/

mutual

/-- The tree on one line. -/
def render : Tree → String
  | node _ label [] => label
  | node _ label (g :: gs) =>
    label ++ "(" ++ ";".intercalate (renderGroups (g :: gs)) ++ ")"

/-- The groups, one by one. -/
def renderGroups : List (GroupName × List Tree) → List String
  | [] => []
  | (.unnamed, nodes) :: gs => ",".intercalate (renderNodes nodes) :: renderGroups gs
  | (.named name, nodes) :: gs =>
    (name ++ "=[" ++ ",".intercalate (renderNodes nodes) ++ "]") :: renderGroups gs

/-- The trees of a group, one by one. -/
def renderNodes : List Tree → List String
  | [] => []
  | t :: ts => render t :: renderNodes ts

end

/-! ## Occurrences -/

mutual

/-- The identities of all occurrences, a node before its children. -/
def preorder : Tree → List NodeId
  | node id _ groups => id :: preorderGroups groups

/-- The identities in a list of groups. -/
def preorderGroups : List (GroupName × List Tree) → List NodeId
  | [] => []
  | (_, nodes) :: gs => preorderNodes nodes ++ preorderGroups gs

/-- The identities in a list of trees. -/
def preorderNodes : List Tree → List NodeId
  | [] => []
  | t :: ts => preorder t ++ preorderNodes ts

end

/-- Which nodes of `before` occur where in `after`: for each occurrence in
`after` the number of its node, counted by first occurrence in `before`, or
`none` if it does not occur there. -/
def sharing (before after : Tree) : List (Option Nat) :=
  let known := before.preorder.eraseDups
  after.preorder.map fun id => known.idxOf? id

/-! ## Adapters -/

/-- All groups as they are. -/
def adapter : Adapter Tree where
  children := children
  rebuild := fun site t c => ofChildren (.made site) t.label c

/-- The groups of these names, in this order; missing ones are empty. -/
def pick (names : List String) (c : NamedChildren Tree) : NamedChildren Tree :=
  .ofList (names.map fun name => (.named name, (c.get? (.named name)).getD []))

/-- Exactly the groups of these names for every node. -/
def fixedAdapter (names : List String) : Adapter Tree where
  children := fun t => pick names t.children
  rebuild := fun site t c => ofChildren (.made site) t.label (pick names c)

end Tree

end Topiary
