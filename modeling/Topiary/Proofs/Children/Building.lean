/-
Topiary.Proofs.Children.Building — child groups kept on a plain list.

`NamedChildren` has in its type that no name occurs twice.  A plain list of groups has
not.  Operations on it search it from the front, work on the first group of the name
and add one at the end if they find none.  Built by such operations from nothing, the
list is nevertheless that of a `NamedChildren`, whose names stand in the order in which
they were first given, and whoever goes through it finds the children that are listed.

* `Groups.update?`, `Groups.update?_groups` — the search, and why the first group of a
  name is the only one.
* `Groups.insert`, `Groups.push`, `Groups.update`, `Groups.collect`, `Groups.runEdits` —
  the operations on a plain list, each with its counterpart on child groups.
* `Build` — a history of operations, with what it makes in both ways;
  `Build.raw_eq`, `Build.names_children` — by induction on the history.
* `Groups.forEach` — two loops, over the groups and over the children of each;
  `Groups.forEach_eq_foldl` — they go through the listing.
-/
import Topiary.Parallel.Walk
import Topiary.Proofs.ChildEdit.Counted
import Topiary.Proofs.Walk.Cells

namespace Topiary

variable {N D S : Type}

/-! ## Operations on a plain list -/

namespace Groups

/-- Apply `f` to the children of the first group of a name, if there is one. -/
def update? (group : GroupName) (f : List N → List N) : Groups N → Option (Groups N)
  | [] => none
  | g :: gs => if g.1 = group then some ((g.1, f g.2) :: gs) else (update? group f gs).map (g :: ·)

/-- Set the children of a group. -/
def insert (gs : Groups N) (group : GroupName) (nodes : List N) : Groups N :=
  (update? group (fun _ => nodes) gs).getD (gs ++ [(group, nodes)])

/-- Add one child at the end of a group. -/
def push (gs : Groups N) (group : GroupName) (node : N) : Groups N :=
  (update? group (· ++ [node]) gs).getD (gs ++ [(group, [node])])

/-- Change the children of a group in whatever way, if there is one. -/
def update (gs : Groups N) (group : GroupName) (f : List N → List N) : Groups N :=
  (update? group f gs).getD gs

/-- Insert groups in order. -/
def collect (pairs : Groups N) : Groups N :=
  pairs.foldl (fun gs g => insert gs g.1 g.2) []

/-- The children of the first group of a name. -/
def find? (gs : Groups N) (group : GroupName) : Option (List N) :=
  (List.find? (fun g => g.1 = group) gs).map Prod.snd

/-- Run the edits of a batch up to the first fault, with the shifts of the groups and the
deleted locations so far. -/
def runEdits (r : Reckoning) (shift : GroupName → Int) (deleted : List Location) (gs : Groups N) :
    List (ChildEdit N) → Groups N × Option Fault
  | [] => (gs, none)
  | e :: es =>
    if e.location ∈ deleted then (gs, some (.misuse (.deletedChildEdited e.location)))
    else
      match gs.find? e.location.group with
      | none => (gs, some (.failure (.unknownGroup e.location.group)))
      | some nodes =>
        match r.locate e.location nodes.length (shift e.location.group) with
        | .error f => (gs, some f)
        | .ok position =>
          runEdits r
            (fun g => if g = e.location.group then shift g + e.kind.growth else shift g)
            (if e.kind = .delete then e.location :: deleted else deleted)
            (gs.update e.location.group (e.kind.perform position e.node)) es

/-- Apply a batch of edits; with a fault, as far as they get. -/
def applyEdits (r : Reckoning) (gs : Groups N) (edits : List (ChildEdit N)) : Groups N :=
  (gs.runEdits r (fun _ => 0) [] (ChildEdit.inOrder edits)).1

/-! ### No name twice -/

/-- A change of one group leaves all others alone. -/
theorem map_eq_self {gs : Groups N} {group : GroupName} (h : group ∉ gs.map Prod.fst)
    (f : List N → List N) : gs.map (fun g => if g.1 = group then (g.1, f g.2) else g) = gs := by
  refine (List.map_congr_left fun g hg => ?_).trans (List.map_id gs)
  have hname : g.1 ≠ group := fun hname => h (hname ▸ List.mem_map_of_mem hg)
  rw [if_neg hname, id]

/-- Where no name occurs twice, the first group of a name is the only one. -/
theorem update?_groups (c : NamedChildren N) (group : GroupName) (f : List N → List N) :
    update? group f c.groups
      = if group ∈ c.names then some (c.modify group f).groups else none := by
  obtain ⟨groups, hnd⟩ := c
  simp only [NamedChildren.names, NamedChildren.modify]
  induction groups with
  | nil => rfl
  | cons g gs ih =>
    rw [List.map_cons, List.nodup_cons] at hnd
    unfold update?
    by_cases hg : g.1 = group
    · subst hg
      simp [map_eq_self hnd.1]
    · have hne : group ≠ g.1 := fun h => hg h.symm
      rw [if_neg hg, ih hnd.2]
      by_cases hmem : group ∈ gs.map Prod.fst <;> simp [hg, hne, hmem]

theorem update_groups (c : NamedChildren N) (group : GroupName) (f : List N → List N) :
    update c.groups group f = (c.modify group f).groups := by
  rw [update, update?_groups]
  split
  · rfl
  · rename_i hnew
    exact (map_eq_self hnew f).symm

theorem insert_groups (c : NamedChildren N) (group : GroupName) (nodes : List N) :
    insert c.groups group nodes = (c.insert group nodes).groups := by
  rw [insert, update?_groups, NamedChildren.insert]
  split <;> rfl

theorem push_groups (c : NamedChildren N) (group : GroupName) (node : N) :
    push c.groups group node = (c.push group node).groups := by
  rw [push, update?_groups, NamedChildren.push]
  split <;> rfl

theorem collect_eq (pairs : Groups N) : collect pairs = (NamedChildren.ofList pairs).groups := by
  have hfold : ∀ (pairs : Groups N) (c : NamedChildren N),
      pairs.foldl (fun gs g => insert gs g.1 g.2) c.groups
        = (pairs.foldl (fun c g => c.insert g.1 g.2) c).groups := by
    intro pairs
    induction pairs with
    | nil => exact fun _ => rfl
    | cons g pairs ih =>
      intro c
      rw [List.foldl_cons, List.foldl_cons, insert_groups, ih]
  exact hfold pairs .empty

/-- A batch does the same to the list, edit by edit. -/
theorem runEdits_groups (r : Reckoning) (p : EditPass N) (edits : List (ChildEdit N)) :
    runEdits r p.shift p.deleted p.children.groups edits
      = ((p.run r edits).1.children.groups, (p.run r edits).2) := by
  induction edits generalizing p with
  | nil => rfl
  | cons e edits ih =>
    rw [runEdits, EditPass.run, EditPass.step]
    split
    · rfl
    · rw [show find? p.children.groups e.location.group = p.children.get? e.location.group from rfl]
      cases p.children.get? e.location.group with
      | none => rfl
      | some nodes =>
        dsimp only
        cases r.locate e.location nodes.length (p.shift e.location.group) with
        | error f => rfl
        | ok position =>
          dsimp only
          rw [update_groups]
          exact ih (p.perform e position)

theorem applyEdits_groups (r : Reckoning) (c : NamedChildren N) (edits : List (ChildEdit N)) :
    applyEdits r c.groups edits = (c.editAllBy r edits).1.groups := by
  rw [applyEdits, NamedChildren.editAllBy]
  exact congrArg Prod.fst (runEdits_groups r (.start c) (ChildEdit.inOrder edits))

/-! ### Going through it -/

/-- One loop over the children of a group, with a running index. -/
def forEachIn {σ : Type} (f : σ → Location → N → σ) (group : GroupName) (index : Nat) :
    σ → List N → σ
  | s, [] => s
  | s, x :: xs => forEachIn f group (index + 1) (f s ⟨group, index⟩ x) xs

/-- Two loops, over the groups and over the children of each. -/
def forEach {σ : Type} (f : σ → Location → N → σ) : σ → Groups N → σ
  | s, [] => s
  | s, g :: gs => forEach f (forEachIn f g.1 0 s g.2) gs

section

variable {σ : Type} (f : σ → Location → N → σ)

theorem forEachIn_eq_foldl (group : GroupName) (index : Nat) (s : σ) (nodes : List N) :
    forEachIn f group index s nodes
      = (nodes.zipIdx index).foldl (fun s p => f s ⟨group, p.2⟩ p.1) s := by
  induction nodes generalizing index s with
  | nil => rfl
  | cons x xs ih => rw [forEachIn, ih, List.zipIdx_cons, List.foldl_cons]

/-- The two loops go through the listing. -/
theorem forEach_eq_foldl (s : σ) (gs : Groups N) :
    forEach f s gs
      = (gs.flatMap NamedChildren.locateGroup).foldl (fun s p => f s p.1 p.2) s := by
  induction gs generalizing s with
  | nil => rfl
  | cons g gs ih =>
    rw [forEach, ih, List.flatMap_cons, List.foldl_append, forEachIn_eq_foldl,
      NamedChildren.locateGroup, List.foldl_map]

end

end Groups

/-! ## Histories -/

/-- How child groups were built. -/
inductive Build (N : Type) where
  | empty
  | unnamed (nodes : List N)
  /-- Collected from pairs. -/
  | collect (pairs : Groups N)
  | insert (before : Build N) (group : GroupName) (nodes : List N)
  | push (before : Build N) (group : GroupName) (node : N)
  /-- The children of a group were changed in place. -/
  | update (before : Build N) (group : GroupName) (f : List N → List N)
  /-- A batch of edits was applied, be it to the end or up to a fault. -/
  | applyEdits (before : Build N) (r : Reckoning) (edits : List (ChildEdit N))

namespace Build

/-- What was built, on a plain list. -/
def raw : Build N → Groups N
  | empty => []
  | unnamed nodes => [(.unnamed, nodes)]
  | collect pairs => Groups.collect pairs
  | insert b group nodes => b.raw.insert group nodes
  | push b group node => b.raw.push group node
  | update b group f => b.raw.update group f
  | applyEdits b r edits => b.raw.applyEdits r edits

/-- What was built. -/
def children : Build N → NamedChildren N
  | empty => .empty
  | unnamed nodes => .unnamed nodes
  | collect pairs => .ofList pairs
  | insert b group nodes => b.children.insert group nodes
  | push b group node => b.children.push group node
  | update b group f => b.children.modify group f
  | applyEdits b r edits => (b.children.editAllBy r edits).1

/-- The names that groups were to be made under, in the order in which they were given. -/
def given : Build N → List GroupName
  | empty => []
  | unnamed _ => [.unnamed]
  | collect pairs => pairs.map Prod.fst
  | insert b group _ => b.given ++ [group]
  | push b group _ => b.given ++ [group]
  | update b _ _ => b.given
  | applyEdits b _ _ => b.given

/-- The plain list is that of child groups. -/
theorem raw_eq (b : Build N) : b.raw = b.children.groups := by
  induction b with
  | empty => rfl
  | unnamed nodes => rfl
  | collect pairs => exact Groups.collect_eq pairs
  | insert b group nodes ih => rw [raw, ih, Groups.insert_groups, children]
  | push b group node ih => rw [raw, ih, Groups.push_groups, children]
  | update b group f ih => rw [raw, ih, Groups.update_groups, children]
  | applyEdits b r edits ih => rw [raw, ih, Groups.applyEdits_groups, children]

/-! ### Names -/

theorem eraseDups_concat (names : List GroupName) (group : GroupName) :
    (names ++ [group]).eraseDups
      = if group ∈ names.eraseDups then names.eraseDups else names.eraseDups ++ [group] := by
  rw [List.eraseDups_append]
  by_cases h : group ∈ names <;> simp [List.removeAll, List.eraseDups_cons, h]

theorem names_push (c : NamedChildren N) (group : GroupName) (node : N) :
    (c.push group node).names = if group ∈ c.names then c.names else c.names ++ [group] := by
  unfold NamedChildren.push
  by_cases h : group ∈ c.names <;> simp [h]

theorem names_ofList (pairs : Groups N) :
    (NamedChildren.ofList pairs).names = (pairs.map Prod.fst).eraseDups := by
  have hfold : ∀ (pairs : Groups N) (c : NamedChildren N) (names : List GroupName),
      c.names = names.eraseDups → (pairs.foldl (fun c g => c.insert g.1 g.2) c).names
        = (names ++ pairs.map Prod.fst).eraseDups := by
    intro pairs
    induction pairs with
    | nil => simp
    | cons g pairs ih =>
      intro c names hc
      have hinsert : (c.insert g.1 g.2).names = (names ++ [g.1]).eraseDups := by
        rw [NamedChildren.names_insert, hc, eraseDups_concat]
      rw [List.foldl_cons, ih _ _ hinsert, List.append_assoc]
      rfl
  exact hfold pairs .empty [] rfl

theorem names_run (r : Reckoning) (p : EditPass N) (edits : List (ChildEdit N)) :
    (p.run r edits).1.children.names = p.children.names := by
  induction edits generalizing p with
  | nil => rfl
  | cons e edits ih =>
    rw [EditPass.run]
    cases hstep : p.step r e with
    | error fault => rfl
    | ok q =>
      obtain ⟨_, position, -, -, rfl⟩ := EditPass.exists_of_step hstep
      exact (ih _).trans (NamedChildren.names_modify ..)

/-- The names stand in the order in which they were first given. -/
theorem names_children (b : Build N) : b.children.names = b.given.eraseDups := by
  induction b with
  | empty => rfl
  | unnamed nodes => rfl
  | collect pairs => exact names_ofList pairs
  | insert b group nodes ih =>
    rw [children, NamedChildren.names_insert, given, eraseDups_concat, ih]
  | push b group node ih => rw [children, names_push, given, eraseDups_concat, ih]
  | update b group f ih => rw [children, NamedChildren.names_modify, given, ih]
  | applyEdits b r edits ih => exact (names_run r (.start b.children) _).trans ih

end Build

/-! ## Children that are walked -/

namespace NamedChildren

theorem length_locations (c : NamedChildren N) : c.locations.length = c.childCount := by
  unfold locations childCount
  induction c.groups with
  | nil => rfl
  | cons g gs ih => simp [locateGroup, ih]

end NamedChildren

/-- The contexts that a walk in either order makes for the children of a node. -/
theorem Traversal.expand_eq_listing (t : Traversal N D S) {w : Worklist N D S} {id : Nat}
    {cell : Cell N D} (hcell : w.cells[id]? = some cell) (hopen : cell.frame.deleted = false) :
    t.expand w id = { w with
      cells := w.cells ++ ((t.children cell.frame.node).locations.map fun p =>
        (⟨cell.frame.child p.1 p.2 t.fresh, some id⟩ : Cell N D)).toArray
      pending := schedule t.order id
        (List.range' w.cells.size (t.children cell.frame.node).childCount) w.pending } := by
  have hlength : (cell.frame.kids (t.children cell.frame.node) t.fresh).length
      = (t.children cell.frame.node).childCount := by
    rw [Frame.kids, List.length_map, NamedChildren.length_locations]
  simp only [expand, hcell, hopen, Bool.false_eq_true, if_false, hlength, Cells.addAll_eq_append]
  rw [Frame.kids, List.map_map]
  rfl

/-- The tasks that a fork-join walk makes for them. -/
theorem ForkJoin.kids_eq_listing (w : ForkJoin N D) {task : Task N D}
    (hopen : task.frame.deleted = false) :
    w.kids task = (w.children task.frame.node).locations.map fun p =>
      .ofFrame (task.frame.child p.1 p.2 w.fresh) := by
  rw [kids, hopen, Frame.kids, List.map_map]
  rfl

/-- Adding to the end, step by step. -/
theorem Groups.forEach_push {α : Type} (g : Location → N → α) (as : Array α) (c : NamedChildren N) :
    forEach (fun as l x => as.push (g l x)) as c.groups
      = as ++ (c.locations.map fun p => g p.1 p.2).toArray := by
  have hfold : ∀ (ps : List (Location × N)) (as : Array α),
      ps.foldl (fun as p => as.push (g p.1 p.2)) as = as ++ (ps.map fun p => g p.1 p.2).toArray := by
    intro ps
    induction ps with
    | nil => simp
    | cons p ps ih =>
      intro as
      rw [List.foldl_cons, ih]
      simp
  rw [forEach_eq_foldl]
  exact hfold _ as

/-- However child groups were built, on a plain list that is searched or as `NamedChildren`:
no name occurs twice, and names stand in the order in which they were first given; no location
is listed twice, as many are listed as there are children, and a child is found at a location
exactly if it is listed there.  Two loops over the plain list make the contexts that a walk in
either order makes for the children of a node, and the tasks that a fork-join walk makes: one
for each listed child, in the order of the listing. -/
theorem built_children_are_walked_as_a_map (b : Build N) :
    b.raw = b.children.groups
    ∧ (b.raw.map Prod.fst).Nodup ∧ b.raw.map Prod.fst = b.given.eraseDups
    ∧ (b.children.locations.map Prod.fst).Nodup
    ∧ b.children.locations.length = b.children.childCount
    ∧ (∀ l x, b.children.childAt l = .ok x ↔ (l, x) ∈ b.children.locations)
    ∧ (∀ (t : Traversal N D S) (w : Worklist N D S) (id : Nat) (cell : Cell N D),
        w.cells[id]? = some cell → cell.frame.deleted = false →
        t.children cell.frame.node = b.children →
        (t.expand w id).pending
            = Traversal.schedule t.order id
              (List.range' w.cells.size b.children.childCount) w.pending
          ∧ (t.expand w id).cells = w.cells ++ (b.children.locations.map fun p =>
              (⟨cell.frame.child p.1 p.2 t.fresh, some id⟩ : Cell N D)).toArray
          ∧ (t.expand w id).cells = b.raw.forEach (fun cells l x =>
              cells.push (⟨cell.frame.child l x t.fresh, some id⟩ : Cell N D)) w.cells)
    ∧ ∀ (w : ForkJoin N D) (task : Task N D), task.frame.deleted = false →
        w.children task.frame.node = b.children →
        w.kids task = (b.children.locations.map fun p =>
            .ofFrame (task.frame.child p.1 p.2 w.fresh))
          ∧ (w.kids task).toArray = b.raw.forEach (fun tasks l x =>
              tasks.push (.ofFrame (task.frame.child l x w.fresh))) #[] := by
  have hraw := b.raw_eq
  refine ⟨hraw, ?_, ?_, b.children.nodup_map_fst_locations, b.children.length_locations,
    fun l x => (b.children.mem_locations_iff l x).symm, ?_, ?_⟩
  · rw [hraw]
    exact b.children.names_nodup
  · rw [hraw]
    exact b.names_children
  · intro t w id cell hcell hopen hchildren
    have hexpand := t.expand_eq_listing hcell hopen
    rw [hchildren] at hexpand
    rw [hraw, Groups.forEach_push, hexpand]
    exact ⟨rfl, rfl, rfl⟩
  · intro w task hopen hchildren
    have hkids := w.kids_eq_listing hopen
    rw [hchildren] at hkids
    rw [hraw, Groups.forEach_push, hkids]
    exact ⟨rfl, by simp⟩

/-- Groups `f`, unnamed and `f` again, then `g`; a deletion, and one that finds no group. -/
def Build.mended : Build Nat :=
  .applyEdits
    (.push (.collect [(.named "f", [1, 2]), (.unnamed, [3]), (.named "f", [4, 6])])
      (.named "g") 5)
    (.words .wraps) [⟨⟨.named "f", 0⟩, .delete, 0⟩, ⟨⟨.named "h", 0⟩, .delete, 0⟩]

/-- A node with these children is walked breadth first, and as a task. -/
theorem mended_groups_are_walked :
    Build.mended.raw.map Prod.fst = [.named "f", .unnamed, .named "g"]
    ∧ (let t : Traversal Nat Unit Unit :=
        ⟨fun _ => Build.mended.children, .breadthFirst, fun c s => .ok (.keep c s), (), ()⟩
      (t.expand (t.start [0] ()) 0).cells.toList.map (fun k => (k.frame.location, k.frame.node))
        = [(none, 0), (some ⟨.named "f", 0⟩, 6), (some (.unnamed 0), 3),
          (some ⟨.named "g", 0⟩, 5)])
    ∧ (let w : ForkJoin Nat Unit :=
        ⟨fun _ => Build.mended.children, fun _ => .ok ⟨.proceed, [], ()⟩, none, 0, (), ()⟩
      (w.kids (.ofFrame (.root 0 ()))).map (fun k => (k.frame.location, k.frame.node))
        = [(some ⟨.named "f", 0⟩, 6), (some (.unnamed 0), 3), (some ⟨.named "g", 0⟩, 5)]) := by
  have hlisted : Build.mended.children.locations
      = [(⟨.named "f", 0⟩, 6), (.unnamed 0, 3), (⟨.named "g", 0⟩, 5)] := by
    rw [Build.mended, Build.children, NamedChildren.editAllBy,
      ChildEdit.inOrder_eq_self (by decide)]
    rfl
  obtain ⟨-, -, hnames, -, -, -, hexpand, hkids⟩ :=
    built_children_are_walked_as_a_map (D := Unit) (S := Unit) Build.mended
  refine ⟨hnames.trans (by decide), ?_, ?_⟩
  · intro t
    obtain ⟨-, hcells, -⟩ :=
      hexpand t (t.start [0] ()) 0 ⟨.root 0 (), none⟩ rfl rfl rfl
    rw [hcells, hlisted]
    rfl
  · intro w
    obtain ⟨hlist, -⟩ := hkids w (.ofFrame (.root 0 ())) rfl rfl
    rw [hlist, hlisted]
    rfl

end Topiary
