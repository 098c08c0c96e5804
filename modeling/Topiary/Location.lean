/-
Topiary.Location — where a child sits below its parent.

A node keeps its children in groups.  A group is the node's one unnamed
list or carries a name, and a `Location` is a group together with a
zero-based index into it.  Group names are ordered with the unnamed group
first and names by code points; paths are compared group by group and
index by index.  A `Breadcrumb` is one step of a path towards the root.
-/

namespace Topiary

/-- The name of a child group.  The empty string and the text
`<unnamed>` are names like any other, different from `unnamed`. -/
inductive GroupName where
  /-- The single child list of a node without named groups. -/
  | unnamed
  /-- A named group such as `fields`. -/
  | named (name : String)
deriving DecidableEq, Repr, Inhabited

namespace GroupName

/-- How a group name is shown. -/
def display : GroupName → String
  | unnamed => "<unnamed>"
  | named name => name

/-- The name, if the group has one. -/
def name? : GroupName → Option String
  | unnamed => none
  | named name => some name

/-- The unnamed group comes first, named groups follow by code points. -/
def order : GroupName → GroupName → Ordering
  | unnamed, unnamed => .eq
  | unnamed, named _ => .lt
  | named _, unnamed => .gt
  | named a, named b => compare a b

end GroupName

/-- The place of a child in its parent: a group and an index into it. -/
structure Location where
  group : GroupName
  index : Nat
deriving DecidableEq, Repr, Inhabited

namespace Location

/-- A place in the unnamed group. -/
def unnamed (index : Nat) : Location := ⟨.unnamed, index⟩

/-- How a location is shown: the group, then the index in brackets. -/
def display (l : Location) : String :=
  l.group.display ++ "[" ++ toString l.index ++ "]"

/-- Locations are ordered by group, then by index. -/
def order (a b : Location) : Ordering :=
  (a.group.order b.group).then (compare a.index b.index)

/-- Paths from the root are ordered step by step; a path comes before its
extensions. -/
def orderPaths : List Location → List Location → Ordering
  | [], [] => .eq
  | [], _ :: _ => .lt
  | _ :: _, [] => .gt
  | a :: as, b :: bs => (a.order b).then (orderPaths as bs)

end Location

/-- One step of a path towards the root: the parent `node` and the place,
below it, of the node one step down. -/
structure Breadcrumb (N : Type) where
  node : N
  location : Location
deriving DecidableEq, Repr

end Topiary
