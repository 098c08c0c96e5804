/-
Topiary.Adapter — the two operations that make a type a tree.

An `Adapter` reads a node's child groups and makes a copy of a node with
other child groups.  The copy is told at which `Site` it is made, so that
types whose nodes carry an identity can give each copy its own; other
types ignore the site.  Both operations are functions: the same call has
the same answer.

* `Adapter.Lawful` — a copy has the children it was given.
* `Adapter.removeChild` — the copy without one child.
* `Rebuild` — an entry of the ledger that edited trees keep of the copies
  they made.
-/
import Topiary.ChildEdit
import Topiary.Identity

namespace Topiary

/-- What a node type provides to be edited as a tree. -/
structure Adapter (N : Type) where
  /-- A node's child groups. -/
  children : N → NamedChildren N
  /-- A copy of a node, made at a site, with other child groups. -/
  rebuild : Site → N → NamedChildren N → N

/-- An entry of the ledger of copies: `node` was rebuilt at `site`. -/
structure Rebuild (N : Type) where
  site : Site
  node : N
deriving DecidableEq, Repr

namespace Adapter

variable {N : Type}

/-- A copy has exactly the children it was given. -/
structure Lawful (A : Adapter N) : Prop where
  children_rebuild : ∀ site node c, A.children (A.rebuild site node c) = c

/-- A copy of `node` without the child at a location. -/
def removeChild (A : Adapter N) (site : Site) (node : N) (l : Location) :
    Except Failure N :=
  match (A.children node).get? l.group with
  | none => .error (.unknownGroup l.group)
  | some nodes =>
    if l.index < nodes.length then
      .ok (A.rebuild site node
        ((A.children node).modify l.group (·.eraseIdx l.index)))
    else .error (.childOutOfBounds l.group l.index nodes.length)

end Adapter

end Topiary
