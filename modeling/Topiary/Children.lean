/-
Topiary.Children — a node's child groups.

`NamedChildren` is an insertion-ordered map from group names to lists of
children.  That no name occurs twice is part of the type, so a location
names at most one child.  Replacing a group keeps its position, a new
group goes to the end, and `ofList` lets later groups of a name replace
earlier ones.

* `get?_insert`, `names_insert`, `names_modify` — what the operations do,
  seen through `names` and `get?`.
* `childAt` — the lookup with its two failures.
* `locations` — all children with their places, group by group.
-/
import Topiary.Fault

namespace Topiary

/-- A list of named groups before names are known to be distinct. -/
abbrev Groups (N : Type) := List (GroupName × List N)

/-- The child groups of a node, in order of first insertion. -/
structure NamedChildren (N : Type) where
  groups : Groups N
  names_nodup : (groups.map Prod.fst).Nodup
deriving DecidableEq

namespace NamedChildren

variable {N : Type}

/-! ## Construction -/

/-- No groups at all. -/
def empty : NamedChildren N := ⟨[], by simp⟩

instance : Inhabited (NamedChildren N) := ⟨empty⟩

/-- One unnamed group. -/
def unnamed (nodes : List N) : NamedChildren N :=
  ⟨[(.unnamed, nodes)], by simp⟩

/-- The group names, in order. -/
def names (c : NamedChildren N) : List GroupName := c.groups.map Prod.fst

/-- The children of a group. -/
def get? (c : NamedChildren N) (group : GroupName) : Option (List N) :=
  (c.groups.find? (·.1 = group)).map Prod.snd

/-- Apply `f` to the children of one group, if it exists. -/
def modify (c : NamedChildren N) (group : GroupName) (f : List N → List N) :
    NamedChildren N where
  groups := c.groups.map fun g => if g.1 = group then (g.1, f g.2) else g
  names_nodup := by
    have h : ((c.groups.map fun g => if g.1 = group then (g.1, f g.2) else g).map Prod.fst)
        = c.groups.map Prod.fst := by
      rw [List.map_map]
      apply List.map_congr_left
      intro g _
      by_cases hg : g.1 = group <;> simp [hg]
    rw [h]
    exact c.names_nodup

/-- Add a group at the end; its name must be new. -/
def append (c : NamedChildren N) (group : GroupName) (nodes : List N)
    (h : group ∉ c.names) : NamedChildren N where
  groups := c.groups ++ [(group, nodes)]
  names_nodup := by
    rw [List.map_append, List.nodup_append]
    refine ⟨c.names_nodup, by simp, ?_⟩
    intro a ha b hb hab
    simp only [List.map_cons, List.map_nil, List.mem_singleton] at hb
    exact h (hb ▸ hab ▸ ha)

/-- Set the children of a group.  A group that exists keeps its position,
a new one goes to the end. -/
def insert (c : NamedChildren N) (group : GroupName) (nodes : List N) :
    NamedChildren N :=
  if h : group ∈ c.names then c.modify group fun _ => nodes
  else c.append group nodes h

/-- Add one child at the end of a group, which is made if it is missing. -/
def push (c : NamedChildren N) (group : GroupName) (node : N) : NamedChildren N :=
  if h : group ∈ c.names then c.modify group (· ++ [node])
  else c.append group [node] h

/-- Collect groups in order; a repeated name replaces the earlier group's
children and keeps its position. -/
def ofList (groups : Groups N) : NamedChildren N :=
  groups.foldl (fun c g => c.insert g.1 g.2) empty

/-! ## Reading -/

/-- The child at a location. -/
def childAt (c : NamedChildren N) (l : Location) : Except Failure N :=
  match c.get? l.group with
  | none => .error (.unknownGroup l.group)
  | some nodes =>
    match nodes[l.index]? with
    | none => .error (.childOutOfBounds l.group l.index nodes.length)
    | some node => .ok node

/-- The children of one group with their locations. -/
def locateGroup (g : GroupName × List N) : List (Location × N) :=
  g.2.zipIdx.map fun (node, index) => (⟨g.1, index⟩, node)

/-- Every child with its location, group by group. -/
def locations (c : NamedChildren N) : List (Location × N) :=
  c.groups.flatMap locateGroup

/-- The number of groups. -/
def groupCount (c : NamedChildren N) : Nat := c.groups.length

/-- The number of children in all groups together. -/
def childCount (c : NamedChildren N) : Nat :=
  c.groups.foldr (fun g count => g.2.length + count) 0

/-- True if no group has a child. -/
def isEmpty (c : NamedChildren N) : Bool := c.childCount == 0

/-! ## The operations through their views -/

@[simp] theorem names_empty : (empty : NamedChildren N).names = [] := rfl

@[simp] theorem names_unnamed (nodes : List N) :
    (unnamed nodes).names = [.unnamed] := rfl

@[simp] theorem names_modify (c : NamedChildren N) (group : GroupName)
    (f : List N → List N) : (c.modify group f).names = c.names := by
  simp only [names, modify, List.map_map]
  apply List.map_congr_left
  intro g _
  by_cases hg : g.1 = group <;> simp [hg]

@[simp] theorem names_append (c : NamedChildren N) (group : GroupName)
    (nodes : List N) (h : group ∉ c.names) :
    (c.append group nodes h).names = c.names ++ [group] := by
  simp [names, append]

/-- Inserting keeps the names and their order; a new name goes last. -/
theorem names_insert (c : NamedChildren N) (group : GroupName) (nodes : List N) :
    (c.insert group nodes).names
      = if group ∈ c.names then c.names else c.names ++ [group] := by
  unfold insert
  by_cases h : group ∈ c.names <;> simp [h]

@[simp] theorem get?_empty (group : GroupName) :
    (empty : NamedChildren N).get? group = none := rfl

/-- A group can be read exactly if its name occurs. -/
theorem get?_eq_none_iff (c : NamedChildren N) (group : GroupName) :
    c.get? group = none ↔ group ∉ c.names := by
  simp only [get?, names, Option.map_eq_none_iff, List.find?_eq_none, decide_eq_true_eq,
    List.mem_map, not_exists, not_and]

/-- Modifying a group changes the children of that group only. -/
theorem get?_modify (c : NamedChildren N) (group g : GroupName) (f : List N → List N) :
    (c.modify group f).get? g
      = if g = group then (c.get? g).map f else c.get? g := by
  simp only [get?, modify]
  induction c.groups with
  | nil => simp
  | cons x xs ih =>
    by_cases hg : x.1 = g
    · subst hg
      by_cases hx : x.1 = group <;> simp [hx]
    · by_cases hx : x.1 = group
      · have hne : group ≠ g := fun h => hg (hx.trans h)
        simpa [hx, hne, hg] using ih
      · simpa [hx, hg] using ih

/-- A group added at the end can be read, and so can all others. -/
theorem get?_append (c : NamedChildren N) (group g : GroupName) (nodes : List N)
    (h : group ∉ c.names) :
    (c.append group nodes h).get? g = if g = group then some nodes else c.get? g := by
  by_cases hg : g = group
  · subst hg
    have hnone := (c.get?_eq_none_iff g).2 h
    simp only [get?, Option.map_eq_none_iff] at hnone
    simp [get?, append, List.find?_append, hnone]
  · have hne : group ≠ g := fun e => hg e.symm
    simp [get?, append, List.find?_append, hg, hne]

/-- What was inserted under a name is what is read under it. -/
theorem get?_insert (c : NamedChildren N) (group g : GroupName) (nodes : List N) :
    (c.insert group nodes).get? g = if g = group then some nodes else c.get? g := by
  unfold insert
  by_cases h : group ∈ c.names
  · rw [dif_pos h, get?_modify]
    by_cases hg : g = group
    · subst hg
      cases hget : c.get? g with
      | none => exact absurd h ((c.get?_eq_none_iff g).1 hget)
      | some _ => simp
    · simp [hg]
  · rw [dif_neg h, get?_append]

@[ext] theorem ext {c d : NamedChildren N} (h : c.groups = d.groups) : c = d := by
  cases c; cases d; simp_all

end NamedChildren

end Topiary
