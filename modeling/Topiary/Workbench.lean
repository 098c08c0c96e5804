/-
Topiary.Workbench — working on one tree with many zippers, step by step.

A `Workbench` holds a tree, the zippers made so far and one multi-zipper.
Each `Command` makes a zipper, reads a tree off the zippers, or works on the
multi-zipper, and has a `Reply`.  A command that faults changes nothing.
Zippers are named by their numbers in order of making.
-/
import Topiary.MultiZipper
import Topiary.Script.NodeExpr

namespace Topiary

open Script (NodeExpr Nursery)

/-- A tree with the zippers and the multi-zipper on it. -/
structure Workbench where
  tree : Tree
  adapter : Adapter Tree
  zippers : List (Zipper Tree)
  multi : MultiZipper Tree
  /-- The nodes that were named. -/
  nursery : Nursery
  /-- The number of commands so far, which tells their copies apart. -/
  count : Nat

namespace Workbench

/-- A step on the workbench. -/
inductive Command where
  /-- The replacement of the node at a path from the root by itself. -/
  | goTo (path : List Location)
  /-- Any zipper, with breadcrumbs nearest first. -/
  | assemble (node : NodeExpr) (crumbs : List (NodeExpr × Location)) (kind : EditKind)
  | withNode (zipper : Nat) (node : NodeExpr)
  | insertBefore (zipper : Nat) (node : NodeExpr)
  | insertAfter (zipper : Nat) (node : NodeExpr)
  | delete (zipper : Nat)
  | rebase (zipper levels : Nat)
  | moveUp (zipper : Nat)
  /-- The tree that a zipper makes. -/
  | toRoot (zipper : Nat)
  /-- The node of a zipper. -/
  | node (zipper : Nat)
  /-- A multi-zipper of zippers over the tree. -/
  | collect (zippers : List Nat)
  /-- Add a zipper to the multi-zipper. -/
  | add (zipper : Nat)
  /-- Other zippers over the same root. -/
  | exchange (zippers : List Nat)
  | replaceAt (slot zipper : Nat)
  /-- Add a zipper and tell its slot. -/
  | push (zipper : Nat)
  | splitOff (slot : Nat)
  /-- The first zipper on a node. -/
  | find (node : NodeExpr)
  /-- The tree that the multi-zipper makes. -/
  | fold
deriving Repr

/-- What a command tells. -/
inductive Reply where
  | made (number : Nat) (zipper : Zipper Tree)
  | tree (tree : Tree)
  | multi (multi : MultiZipper Tree)
  | slot (slot : Nat) (multi : MultiZipper Tree)
  | tail (tail : List (Zipper Tree)) (multi : MultiZipper Tree)
  | found (zipper : Option (Zipper Tree))
deriving Repr

/-- A workbench with an empty multi-zipper. -/
def start (tree : Tree) (adapter : Adapter Tree) (nursery : Nursery) : Workbench :=
  ⟨tree, adapter, [], ⟨tree, []⟩, nursery, 0⟩

/-- The site of the copies of the current command. -/
def site (w : Workbench) : Site := .ofRun (w.count + 1)

/-- The zipper of a number. -/
def zipper (w : Workbench) (number : Nat) : Except Fault (Zipper Tree) :=
  match w.zippers[number]? with
  | none => .error (.misuse .indexOutOfBounds)
  | some z => .ok z

/-- Add a zipper and tell it. -/
def keep (w : Workbench) (z : Zipper Tree) : Workbench × Reply :=
  ({ w with zippers := w.zippers ++ [z] }, .made w.zippers.length z)

/-- Put a multi-zipper on the workbench and tell it. -/
def keepMulti (w : Workbench) (m : MultiZipper Tree) : Workbench × Reply :=
  ({ w with multi := m }, .multi m)

/-- Make the tree of an expression. -/
def plant (w : Workbench) (e : NodeExpr) : Tree × Workbench :=
  let (t, nursery) := e.plantGiven w.nursery
  (t, { w with nursery })

/-- The breadcrumbs and the node that a path from a node leads to.  A path
goes through the groups that the nodes have, so it also reaches children
that the adapter leaves out. -/
def descend (node : Tree) (crumbs : List (Breadcrumb Tree)) :
    List Location → Except Failure (Zipper Tree)
  | [] => .ok (.ofNode node crumbs)
  | l :: path => do
    descend (← node.children.childAt l) (⟨node, l⟩ :: crumbs) path

/-- Make breadcrumbs. -/
def plantCrumbs (w : Workbench) : List (NodeExpr × Location) →
    List (Breadcrumb Tree) × Workbench
  | [] => ([], w)
  | (e, l) :: rest =>
    let (t, w) := w.plant e
    let (crumbs, w) := plantCrumbs w rest
    (⟨t, l⟩ :: crumbs, w)

/-- A zipper made from another one and a new node. -/
def derive (w : Workbench) (number : Nat) (e : NodeExpr)
    (make : Zipper Tree → Tree → Zipper Tree) : Except Fault (Workbench × Reply) := do
  let z ← w.zipper number
  let (t, w) := w.plant e
  return w.keep (make z t)

/-- Carry out a command. -/
def perform (w : Workbench) : Command → Except Fault (Workbench × Reply)
  | .goTo path =>
    match descend w.tree [] path with
    | .error f => .error (.failure f)
    | .ok z => .ok (w.keep z)
  | .assemble e crumbs kind =>
    let (t, w) := w.plant e
    let (crumbs, w) := w.plantCrumbs crumbs
    .ok (w.keep ⟨t, crumbs, kind⟩)
  | .withNode number e => w.derive number e Zipper.withNode
  | .insertBefore number e => w.derive number e Zipper.insertBefore
  | .insertAfter number e => w.derive number e Zipper.insertAfter
  | .delete number => do return w.keep (← w.zipper number).delete
  | .rebase number levels => do return w.keep ((← w.zipper number).rebase levels)
  | .moveUp number => do
    return w.keep (← (← w.zipper number).moveUp (.words .wraps) w.adapter w.site)
  | .toRoot number => do
    let (t, _) ← (← w.zipper number).toRoot w.adapter w.site
    return (w, .tree t)
  | .node number => do return (w, .tree (← w.zipper number).node)
  | .collect numbers => do
    return w.keepMulti ⟨w.tree, ← numbers.mapM w.zipper⟩
  | .add number => do return w.keepMulti (w.multi.push (← w.zipper number))
  | .exchange numbers => do
    return w.keepMulti { w.multi with zippers := ← numbers.mapM w.zipper }
  | .replaceAt slot number => do
    return w.keepMulti (← w.multi.replaceAt slot (← w.zipper number))
  | .push number => do
    let multi := w.multi.push (← w.zipper number)
    return ({ w with multi }, .slot w.multi.size multi)
  | .splitOff slot => do
    let (multi, tail) ← w.multi.splitOff slot
    return ({ w with multi }, .tail tail multi)
  | .find e =>
    let (t, w) := w.plant e
    .ok (w, .found (w.multi.find? t.id))
  | .fold => do
    let (t, _) ← w.multi.toRoot w.adapter w.site
    return (w, .tree t)

/-- Carry out a command; with a fault, the workbench is as before. -/
def step (w : Workbench) (c : Command) : Workbench × Except Fault Reply :=
  match w.perform c with
  | .error f => ({ w with count := w.count + 1 }, .error f)
  | .ok (w, reply) => ({ w with count := w.count + 1 }, .ok reply)

end Workbench

end Topiary
