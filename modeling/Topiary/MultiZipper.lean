/-
Topiary.MultiZipper — many edits of one tree folded into one new root.

A `MultiZipper` is a root with zippers whose paths lead back to it.
`MultiZipper.toRoot` folds them level by level, deepest first: the zippers
below one parent (`Siblings`) become one batch of edits of that parent,
and the edited copy becomes a replacement of the parent one level higher.

A zipper already standing on the parent is recognised by its path, which
is made of the identities and places of its breadcrumbs.  If it replaces
the parent by another node, or deletes it, it was made after the children
were edited and wins: the fold is dropped.  Otherwise the fold takes the
place of the replacement, and insertions around the parent stay.

A single fold is made in any reckoning, those of a whole tree in integers.
-/
import Topiary.Zipper

namespace Topiary

variable {N : Type}

/-! ## Siblings -/

/-- The identity of a path. -/
def pathKey [Identified N] (crumbs : List (Breadcrumb N)) : List (NodeId × Location) :=
  crumbs.map fun crumb => (nodeId crumb.node, crumb.location)

/-- Edits of the children of one parent. -/
structure Siblings (N : Type) where
  parent : N
  /-- The parent's path to the root. -/
  above : List (Breadcrumb N)
  edits : List (ChildEdit N)
deriving DecidableEq, Repr

namespace Siblings

/-- A zipper as an edit of its parent; none at the root. -/
def ofZipper? (z : Zipper N) : Option (Siblings N) :=
  match z.crumbs with
  | [] => none
  | crumb :: above => some ⟨crumb.node, above, [⟨crumb.location, z.kind, z.node⟩]⟩

/-- Both are about the same parent at the same path. -/
def sameParent [Identified N] (a b : Siblings N) : Bool :=
  nodeId a.parent == nodeId b.parent && pathKey a.above == pathKey b.above

/-- Add edits to the first entry about the same parent, or at the end. -/
def gather [Identified N] (s : Siblings N) : List (Siblings N) → List (Siblings N)
  | [] => [s]
  | t :: ts =>
    if sameParent t s then { t with edits := t.edits ++ s.edits } :: ts
    else t :: gather s ts

/-- Zippers by parent; parents in order of first appearance, the edits of
each in order of appearance. -/
def ofZippers [Identified N] (zs : List (Zipper N)) : List (Siblings N) :=
  (zs.filterMap ofZipper?).foldl (fun groups s => gather s groups) []

/-- The replacement of the parent by a copy with the edits carried out,
and the copy's entry in the ledger. -/
def fold (r : Reckoning) (A : Adapter N) (base : Site) (s : Siblings N) :
    Except Fault (Zipper N × Rebuild N) := do
  let site := base.below (steps s.above)
  let c ← (A.children s.parent).editBy r s.edits
  return (.ofNode (A.rebuild site s.parent c) s.above, ⟨site, s.parent⟩)

/-- The zipper stands on the parent. -/
def isAtParent [Identified N] (s : Siblings N) (z : Zipper N) : Bool :=
  pathKey z.crumbs == pathKey s.above

/-- The zipper was made after the children were edited: it deletes the
parent or replaces it by another node. -/
def isOverriddenBy [Identified N] (s : Siblings N) (z : Zipper N) : Bool :=
  s.isAtParent z &&
    match z.kind with
    | .delete => true
    | .replace => nodeId z.node != nodeId s.parent
    | _ => false

/-- The fold takes the place of this zipper. -/
def supersedes [Identified N] (s : Siblings N) (z : Zipper N) : Bool :=
  z.kind == .replace && s.isAtParent z

/-- Fold the edits below one parent into the zippers higher up. -/
def absorb [Identified N] (A : Adapter N) (base : Site) (s : Siblings N)
    (higher : List (Zipper N)) : Except Fault (List (Zipper N) × List (Rebuild N)) :=
  if higher.any s.isOverriddenBy then
    .ok (higher, [])
  else do
    let (z, entry) ← s.fold .integers A base
    return (higher.filter (fun h => !s.supersedes h) ++ [z], [entry])

/-- Fold one parent after the other. -/
def absorbAll [Identified N] (A : Adapter N) (base : Site) :
    List (Siblings N) → List (Zipper N) →
      Except Fault (List (Zipper N) × List (Rebuild N))
  | [], higher => .ok (higher, [])
  | s :: rest, higher => do
    let (higher, ledger) ← s.absorb A base higher
    let (higher, more) ← absorbAll A base rest higher
    return (higher, ledger ++ more)

end Siblings

/-! ## Many zippers -/

/-- Zippers that share one root. -/
structure MultiZipper (N : Type) where
  root : N
  zippers : List (Zipper N)
deriving DecidableEq, Repr

namespace MultiZipper

/-- The number of zippers. -/
def size (m : MultiZipper N) : Nat := m.zippers.length

/-- Add a zipper at the end; its slot is the former size. -/
def push (m : MultiZipper N) (z : Zipper N) : MultiZipper N :=
  { m with zippers := m.zippers ++ [z] }

/-- Overwrite a slot. -/
def replaceAt (m : MultiZipper N) (slot : Nat) (z : Zipper N) :
    Except Fault (MultiZipper N) :=
  if slot < m.size then .ok { m with zippers := m.zippers.set slot z }
  else .error (.misuse .indexOutOfBounds)

/-- Cut the zippers off from a slot on. -/
def splitOff (m : MultiZipper N) (slot : Nat) :
    Except Fault (MultiZipper N × List (Zipper N)) :=
  if slot ≤ m.size then
    .ok ({ m with zippers := m.zippers.take slot }, m.zippers.drop slot)
  else .error (.misuse .indexOutOfBounds)

/-- The first zipper on the node with this identity. -/
def find? [Identified N] (m : MultiZipper N) (id : NodeId) : Option (Zipper N) :=
  m.zippers.find? fun z => nodeId z.node == id

/-- The nodes of all zippers. -/
def nodes (m : MultiZipper N) : List N := m.zippers.map Zipper.node

/-- The greatest depth of a zipper. -/
def maxDepth (zs : List (Zipper N)) : Nat :=
  (zs.map Zipper.depth).foldl max 0

/-- Fold all zippers of at most this depth until one is left.  Zippers that
are left at the root cannot be merged. -/
def foldLevels [Identified N] (A : Adapter N) (base : Site) :
    Nat → List (Zipper N) → Except Fault (List (Zipper N) × List (Rebuild N))
  | 0, zs =>
    if zs.length ≤ 1 then .ok (zs, [])
    else .error (.misuse (.unmergedAtRoot zs.length))
  | depth + 1, zs =>
    if zs.length ≤ 1 then .ok (zs, [])
    else do
      let (deepest, higher) := zs.partition fun z => z.depth == depth + 1
      let (zs, ledger) ← Siblings.absorbAll A base (Siblings.ofZippers deepest) higher
      let (zs, more) ← foldLevels A base depth zs
      return (zs, ledger ++ more)

/-- The root with all edits carried out, and the ledger of copies.  Without
zippers it is the root itself. -/
def toRoot [Identified N] (A : Adapter N) (base : Site) (m : MultiZipper N) :
    Except Fault (N × List (Rebuild N)) := do
  let (zs, ledger) ← foldLevels A base (maxDepth m.zippers) m.zippers
  match zs with
  | [] => return (m.root, ledger)
  | z :: _ =>
    let (root, more) ← z.toRoot A base
    return (root, ledger ++ more)

end MultiZipper

end Topiary
