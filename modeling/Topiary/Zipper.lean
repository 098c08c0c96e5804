/-
Topiary.Zipper — a node, the way back to the root, and an edit.

A `Zipper` holds a node with its breadcrumbs, nearest ancestor first, and
the kind of edit it stands for.  Moving up carries the edit out on a copy
of the parent and leaves a replacement of the parent by the copy, so the
tree that the breadcrumbs were taken from is never touched.

* `Zipper.moveUp` — one step.
* `Zipper.toRoot` — all steps; the copies made on the way are entered in
  the ledger, nearest parent first.

Copies are made at the site of the parent below a given base site.  A single
step is taken in any reckoning, a climb is reckoned in integers.
-/
import Topiary.Adapter

namespace Topiary

/-- The steps of a path as locations, nearest first. -/
def steps {N : Type} (crumbs : List (Breadcrumb N)) : List Location :=
  crumbs.map Breadcrumb.location

/-- A node, its path to the root and the edit it carries. -/
structure Zipper (N : Type) where
  node : N
  crumbs : List (Breadcrumb N)
  kind : EditKind
deriving DecidableEq, Repr

namespace Zipper

variable {N : Type}

/-- The replacement of a node by itself. -/
def ofNode (node : N) (crumbs : List (Breadcrumb N)) : Zipper N :=
  ⟨node, crumbs, .replace⟩

/-- The number of steps to the root. -/
def depth (z : Zipper N) : Nat := z.crumbs.length

/-- True at the root. -/
def isRoot (z : Zipper N) : Bool := z.crumbs.isEmpty

/-- The place in the parent; none at the root. -/
def location? (z : Zipper N) : Option Location :=
  z.crumbs.head?.map Breadcrumb.location

/-- The same path and kind with another node. -/
def withNode (z : Zipper N) (node : N) : Zipper N := { z with node }

/-- The deletion of the node. -/
def delete (z : Zipper N) : Zipper N := { z with kind := .delete }

/-- The insertion of `node` before the node. -/
def insertBefore (z : Zipper N) (node : N) : Zipper N :=
  { z with node, kind := .insertBefore }

/-- The insertion of `node` after the node. -/
def insertAfter (z : Zipper N) (node : N) : Zipper N :=
  { z with node, kind := .insertAfter }

/-- Forget the `levels` breadcrumbs nearest to the root, so that the path
starts at an ancestor `levels` steps below it. -/
def rebase (z : Zipper N) (levels : Nat) : Zipper N :=
  { z with crumbs := z.crumbs.take (z.crumbs.length - levels) }

/-! ## Moving up -/

/-- The copy of the parent with the edit carried out.  A deletion removes
the child, every other kind is a batch of one edit. -/
def parentCopy (r : Reckoning) (A : Adapter N) (site : Site) (kind : EditKind) (node : N)
    (crumb : Breadcrumb N) : Except Fault N :=
  match kind with
  | .delete =>
    match A.removeChild site crumb.node crumb.location with
    | .ok parent => .ok parent
    | .error f => .error (.failure f)
  | _ =>
    match (A.children crumb.node).editBy r [⟨crumb.location, kind, node⟩] with
    | .ok c => .ok (A.rebuild site crumb.node c)
    | .error f => .error f

/-- Carry the edit out and stand on the parent. -/
def moveUp (r : Reckoning) (A : Adapter N) (base : Site) (z : Zipper N) : Except Fault (Zipper N) :=
  match z.crumbs with
  | [] => .error (.misuse .moveUpFromRoot)
  | crumb :: above =>
    match parentCopy r A (base.below (steps above)) z.kind z.node crumb with
    | .ok parent => .ok (.ofNode parent above)
    | .error f => .error f

/-- Carry an edit out at the end of a path and replace all ancestors up to
the root. -/
def climb (A : Adapter N) (base : Site) (kind : EditKind) (node : N) :
    List (Breadcrumb N) → Except Fault (N × List (Rebuild N))
  | [] =>
    if kind = .replace then .ok (node, []) else .error (.misuse .rootNotReplaced)
  | crumb :: above => do
    let site := base.below (steps above)
    let parent ← parentCopy .integers A site kind node crumb
    let (root, ledger) ← climb A base .replace parent above
    return (root, ⟨site, crumb.node⟩ :: ledger)

/-- Move up to the root and return it. -/
def toRoot (A : Adapter N) (base : Site) (z : Zipper N) :
    Except Fault (N × List (Rebuild N)) :=
  climb A base z.kind z.node z.crumbs

end Zipper

end Topiary
