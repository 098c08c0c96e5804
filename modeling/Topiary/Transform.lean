/-
Topiary.Transform — editing a tree during a depth-first walk.

`Transform.apply` walks a tree and lets a visitor edit it in `enter` and
`leave`.  Every edit is a zipper in one list of recorded edits that belongs
to the whole walk.  When a node is left, the edits recorded below it are
folded into a copy of it before its `leave` is called, so `leave` sees the
node with the edits below it carried out.  At the end the edits that are
left are folded into the root; without any, the root itself is returned.

* `Marks` — what the transform keeps on the context of an entered node: the
  zipper to start edits from, the slot of its replacement or deletion, and
  where the edits below it begin.
* `Bench` — one node with its marks and the recorded edits; `Bench.act`
  carries out one act or refuses it.
* `Bench.foldBelow` — the fold on leaving a node.
* `EditVisitor.refusing` — the visitor for a plain walk, where every edit
  is refused.
-/
import Topiary.Edit
import Topiary.MultiZipper
import Topiary.Walk.Worklist

namespace Topiary

/-! ## Marks -/

/-- What a transform keeps on the context of a node that was entered. -/
structure Marks (N : Type) where
  /-- The replacement of the node by itself as it stands. -/
  zipper : Zipper N
  /-- The slot of the node's own replacement among the recorded edits. -/
  slot : Option Nat
  /-- The node was changed by an edit; a fold alone does not count. -/
  changed : Bool
  /-- Siblings were inserted around the node. -/
  inserted : Bool
  /-- The slot at which the edits below the node begin. -/
  foldStart : Nat
deriving DecidableEq, Repr

namespace Marks

variable {N : Type}

/-- The marks of a node that is being entered. -/
def start (node : N) (crumbs : List (Breadcrumb N)) : Marks N :=
  ⟨.ofNode node crumbs, none, false, false, 0⟩

/-- The node was changed, or siblings were inserted around it. -/
def edited (m : Marks N) : Bool := m.changed || m.inserted

end Marks

/-! ## The bench -/

/-- What the edits of one callback work on. -/
structure Bench (N : Type) where
  node : N
  deleted : Bool
  isRoot : Bool
  /-- Missing outside of the enter and leave callbacks of a transform. -/
  marks : Option (Marks N)
  /-- The edits recorded so far in the whole walk. -/
  recorded : List (Zipper N)
deriving DecidableEq, Repr

namespace Bench

variable {N : Type}

/-- The marks, or the refusal to edit without them. -/
def requireMarks (b : Bench N) : Except Fault (Marks N) :=
  match b.marks with
  | none => .error (.misuse .editOutsideTransform)
  | some m => .ok m

/-- Put a zipper into the node's slot, or into a new one. -/
def record (b : Bench N) (m : Marks N) (z : Zipper N) :
    Except Fault (List (Zipper N) × Nat) :=
  match m.slot with
  | none => .ok (b.recorded ++ [z], b.recorded.length)
  | some slot =>
    if slot < b.recorded.length then .ok (b.recorded.set slot z, slot)
    else .error (.misuse .indexOutOfBounds)

/-- Make `node` the current node and record it as the replacement. -/
def replace (b : Bench N) (node : N) : Except Fault (Bench N) := do
  let m ← b.requireMarks
  let z := m.zipper.withNode node
  let (recorded, slot) ← b.record m z
  return { b with node, recorded, marks := some { m with zipper := z, slot := some slot } }

/-- Change the node. -/
def change (b : Bench N) (node : N) : Except Fault (Bench N) :=
  if b.deleted then .error (.misuse .changeOfDeleted)
  else do
    let b ← b.replace node
    return { b with marks := b.marks.map fun m => { m with changed := true } }

/-- Delete the node; the deletion takes the slot of its replacement. -/
def delete (b : Bench N) : Except Fault (Bench N) :=
  if b.isRoot then .error (.misuse .deletionOfRoot)
  else if b.deleted then .error (.misuse .deletionOfDeleted)
  else if b.marks.any Marks.edited then .error (.misuse .deletionOfEdited)
  else do
    let m ← b.requireMarks
    let (recorded, _) ← b.record m m.zipper.delete
    return { b with deleted := true, recorded }

/-- Insert a sibling. -/
def insert (b : Bench N) (zipper : Zipper N → Zipper N) : Except Fault (Bench N) :=
  if b.isRoot then .error (.misuse .insertionAroundRoot)
  else if b.deleted then .error (.misuse .insertionAroundDeleted)
  else do
    let m ← b.requireMarks
    return { b with
      recorded := b.recorded ++ [zipper m.zipper]
      marks := some { m with inserted := true } }

/-- Make an edit. -/
def edit (b : Bench N) : Edit N → Except Fault (Bench N)
  | .change node => b.change node
  | .delete => b.delete
  | .insertBefore node => b.insert (·.insertBefore node)
  | .insertAfter node => b.insert (·.insertAfter node)

/-- Carry out one act. -/
def act (b : Bench N) : Act N → Except Fault (Bench N)
  | .edit e => b.edit e
  | .setNode node => .ok { b with node }
  | .markDeleted => .ok { b with deleted := true }

/-- The bench of a node in a plain walk, where every edit is refused. -/
def plain (isRoot : Bool) (node : N) (deleted : Bool) : Bench N :=
  ⟨node, deleted, isRoot, none, []⟩

/-- Carry out acts in order. -/
def actAll : Bench N → List (Act N) → Except Fault (Bench N)
  | b, [] => .ok b
  | b, a :: as => do actAll (← b.act a) as

/-- Fold the edits recorded below the node into a copy of it, which becomes
the current node and its replacement.  `base` is the site of the node. -/
def foldBelow [Identified N] (A : Adapter N) (base : Site) (depth : Nat)
    (b : Bench N) : Except Fault (Bench N × List (Rebuild N)) :=
  match b.marks with
  | none => .ok (b, [])
  | some m =>
    if m.foldStart > b.recorded.length then .error (.misuse .indexOutOfBounds)
    else
      match b.recorded.drop m.foldStart with
      | [] => .ok (b, [])
      | below => do
        let tree : MultiZipper N := ⟨b.node, below.map (·.rebase depth)⟩
        let (merged, ledger) ← tree.toRoot A base
        let b ← { b with recorded := b.recorded.take m.foldStart }.replace merged
        return (b, ledger)

end Bench

/-! ## Visitors that edit -/

/-- What a callback answers that may edit: how to go on, what it does in
order, and the data and the state as they now are. -/
structure EditAnswer (N D S : Type) where
  control : Control
  acts : List (Act N)
  data : D
  state : S
deriving DecidableEq, Repr

/-- The callbacks of a walk that may edit. -/
abbrev EditVisitor (N D S : Type) :=
  Context N D → S → Except Fault (EditAnswer N D S)

/-- The data of a context in a transform: the visitor's own, and the marks.

Both can be kept in one store of typed variables, with the zipper of the marks under
the public type of zippers, so that a visitor could look the marks up there, or put
another zipper in their place.  Visitors do neither here: the marks are the transform's
own, and a visitor is given `data` only. -/
structure Marked (N D : Type) where
  data : D
  marks : Option (Marks N)
deriving DecidableEq, Repr

/-- The state of a transform: the visitor's own, the edits recorded so far
and the ledger of the copies made. -/
structure Edited (N S : Type) where
  state : S
  recorded : List (Zipper N)
  ledger : List (Rebuild N)
deriving DecidableEq, Repr

namespace Context

variable {N D E : Type}

/-- The same context with other data. -/
def mapData (f : D → E) (c : Context N D) : Context N E :=
  { c with sight := c.sight.mapData f }

/-- The same context with another node. -/
def withNode (c : Context N D) (node : N) : Context N D :=
  { c with sight := { c.sight with frame := { c.sight.frame with node } } }

end Context

namespace EditVisitor

variable {N D S : Type}

/-- The visitor for a walk that is no transform: every edit is refused. -/
def refusing (v : EditVisitor N D S) : Visitor N D S := fun c s => do
  let frame := c.sight.frame
  let a ← v c s
  let b ← (Bench.plain c.sight.isRoot frame.node frame.deleted).actAll a.acts
  return ⟨a.control, b.node, b.deleted, a.data, a.state⟩

/-- Call the visitor on a bench and carry out what it does. -/
def onBench (v : EditVisitor N D S) (c : Context N (Marked N D)) (b : Bench N)
    (s : S) : Except Fault (EditAnswer N D S × Bench N) := do
  let a ← v ((c.mapData Marked.data).withNode b.node) s
  let b ← b.actAll a.acts
  return (a, b)

/-- The bench of a context with given marks. -/
def bench (c : Context N (Marked N D)) (marks : Option (Marks N))
    (recorded : List (Zipper N)) : Bench N :=
  ⟨c.sight.frame.node, c.sight.frame.deleted, c.sight.isRoot, marks, recorded⟩

/-- The answer of a transform's visitor, read off the bench. -/
def answer (a : EditAnswer N D S) (b : Bench N) (ledger : List (Rebuild N)) :
    Answer N (Marked N D) (Edited N S) :=
  ⟨a.control, b.node, b.deleted, ⟨a.data, b.marks⟩, ⟨a.state, b.recorded, ledger⟩⟩

/-- The visitor that records the edits of `v` and folds them.

* On entering a node, edits start from its replacement by itself; where the
  edits below it begin is known once its own `enter` is done.
* On leaving it, the edits below it are folded into it first.
* A back reference has no marks, so edits are refused there. -/
def recording [Identified N] (A : Adapter N) (run : Nat) (v : EditVisitor N D S) :
    Visitor N (Marked N D) (Edited N S) := fun c s =>
  match c.sight.frame.phase with
  | .enter => do
    let m := Marks.start c.sight.frame.node c.sight.crumbs
    let (a, b) ← v.onBench c (bench c (some m) s.recorded) s.state
    let b := { b with
      marks := b.marks.map fun m => { m with foldStart := b.recorded.length } }
    return answer a b s.ledger
  | .leave => do
    let base := (Site.ofRun run).below c.sight.path
    let b := bench c c.sight.frame.data.marks s.recorded
    let (b, ledger) ← b.foldBelow A base c.sight.frame.depth
    let (a, b) ← v.onBench c b s.state
    return answer a b (s.ledger ++ ledger)
  | .backRef => do
    let (a, b) ← v.onBench c (bench c c.sight.frame.data.marks s.recorded) s.state
    return answer a b s.ledger

end EditVisitor

/-! ## The transform -/

/-- A tree to be edited by a visitor. -/
structure Transform (N D S : Type) where
  adapter : Adapter N
  visitor : EditVisitor N D S
  /-- Tells the copies of this transform from those of other runs. -/
  run : Nat
  /-- The data of a context that is new. -/
  fresh : D
  /-- The data found above the root. -/
  rootData : D

/-- The edited tree with the visitor's state and the ledger of copies. -/
structure Transformed (N S : Type) where
  tree : N
  state : S
  ledger : List (Rebuild N)
deriving DecidableEq, Repr

namespace Transform

variable {N D S : Type}

/-- The walk of a transform. -/
def traversal [Identified N] (t : Transform N D S) :
    Traversal N (Marked N D) (Edited N S) where
  children := t.adapter.children
  order := .depthFirst
  visitor := t.visitor.recording t.adapter t.run
  fresh := ⟨t.fresh, none⟩
  rootData := ⟨t.rootData, none⟩

/-- Walk a tree with at most `limit` callbacks and return the edited tree. -/
def apply [Identified N] (t : Transform N D S) (limit : Nat) (root : N) (state : S) :
    Run (Transformed N S) := do
  let w ← t.traversal.walk limit [root] ⟨state, [], []⟩
  let edits : MultiZipper N := ⟨root, w.state.recorded⟩
  let (tree, ledger) ← Run.ofExcept (edits.toRoot t.adapter (.ofRun t.run))
  return ⟨tree, w.state.state, w.state.ledger ++ ledger⟩

end Transform

end Topiary
