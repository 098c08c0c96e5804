/-
Topiary.Proofs.Transform.Plan — edit plans and the trees that they come to.

A plan says for every place of a tree what is done to the node there: it is
deleted, or it stays, maybe under another label, with nodes put before and
after it.  `Plan.rebuild` is the tree with the plan carried out, by recursion
over the tree.

Node by node this is what the edits come to that a node hands to its parent
once the plan is carried out below it: merging those of all children comes to
the groups of the rebuilt node.

* `Plan`, `Plan.touches`, `Plan.rebuild` — plans and their trees.
* `Plan.handed` — the edits of a node, kind by kind.
* `Task.Holds` — a task's own edits, kind by kind, and what a callback and a
  merge do to them.
* `Plan.spread_slot` — merging what the children of a node hand over.
-/
import Mathlib.Data.List.Forall2
import Topiary.Proofs.Transform.Editor
import Topiary.Proofs.Tree

namespace Topiary

/-! ## Plans -/

/-- What is planned for the node at one place: it is deleted, or it stays, maybe
as a new node with another label and the same children, with nodes put before
and after it. -/
inductive Plan.Entry where
  | delete
  | keep (change : Option (NodeId × String)) (before after : List Tree)

namespace Plan.Entry

/-- Something is done at the place. -/
def isEdit : Entry → Bool
  | delete => true
  | keep change before after => change.isSome || !before.isEmpty || !after.isEmpty

/-- The new node that takes the place of another one. -/
def change? : Entry → Tree → Option Tree
  | keep (some (id, label)) _ _, t => some (.node id label t.groups)
  | _, _ => none

/-- The node itself, or the new one. -/
def changed (e : Entry) (t : Tree) : Tree := (e.change? t).getD t

/-- What stands in the place, given what has become of the node. -/
def place : Entry → Tree → List Tree
  | delete, _ => []
  | keep _ before after, t => before ++ t :: after

end Plan.Entry

/-- A plan: an entry for each path of locations, nearest step first.  The root
stays, and nothing is put around it. -/
structure Plan where
  entry : List Location → Plan.Entry
  root_stays : ∃ change, entry [] = .keep change [] []

namespace Plan

mutual

/-- Something is done at the node or below it. -/
def touches (p : Plan) (path : List Location) : Tree → Bool
  | .node _ _ groups => (p.entry path).isEdit || touchesGroups p path groups

/-- Something is done in a group. -/
def touchesGroups (p : Plan) (path : List Location) : List (GroupName × List Tree) → Bool
  | [] => false
  | (name, nodes) :: groups => touchesNodes p path name 0 nodes || touchesGroups p path groups

/-- Something is done to the nodes of a group from one index on. -/
def touchesNodes (p : Plan) (path : List Location) (name : GroupName) (index : Nat) :
    List Tree → Bool
  | [] => false
  | t :: ts => touches p (⟨name, index⟩ :: path) t || touchesNodes p path name (index + 1) ts

end

mutual

/-- The tree with the plan carried out.  A node stays what it is unless it is
changed, and a copy of it is made only if something is done below it. -/
def rebuild (p : Plan) (run : Nat) (path : List Location) : Tree → Tree
  | .node id label groups =>
    let t := (p.entry path).changed (.node id label groups)
    if p.touchesGroups path groups then
      .node (.made ((Site.ofRun run).below path)) t.label (rebuildGroups p run path groups)
    else t

/-- The groups of a node, each with its name. -/
def rebuildGroups (p : Plan) (run : Nat) (path : List Location) :
    List (GroupName × List Tree) → List (GroupName × List Tree)
  | [] => []
  | (name, nodes) :: groups =>
    (name, rebuildNodes p run path name 0 nodes) :: rebuildGroups p run path groups

/-- The nodes of a group from one index on, each with what is put around it. -/
def rebuildNodes (p : Plan) (run : Nat) (path : List Location) (name : GroupName) (index : Nat) :
    List Tree → List Tree
  | [] => []
  | t :: ts =>
    (p.entry (⟨name, index⟩ :: path)).place (rebuild p run (⟨name, index⟩ :: path) t)
      ++ rebuildNodes p run path name (index + 1) ts

end

variable (p : Plan) (run : Nat) (path : List Location)

/-! ## By places -/

theorem touchesNodes_eq (name : GroupName) (index : Nat) (nodes : List Tree) :
    p.touchesNodes path name index nodes
      = (nodes.zipIdx index).any fun k => p.touches (⟨name, k.2⟩ :: path) k.1 := by
  induction nodes generalizing index with
  | nil => rfl
  | cons t ts ih => rw [touchesNodes, ih, List.zipIdx_cons, List.any_cons]

/-- Something is done below a node if something is done at one of its places. -/
theorem touchesGroups_eq (groups : List (GroupName × List Tree)) :
    p.touchesGroups path groups
      = (groups.flatMap NamedChildren.locateGroup).any fun k => p.touches (k.1 :: path) k.2 := by
  induction groups with
  | nil => rfl
  | cons g groups ih =>
    rw [touchesGroups, touchesNodes_eq, ih, List.flatMap_cons, List.any_append,
      NamedChildren.locateGroup, List.any_map]
    rfl

/-- What stands in the place of a child of the node at the path. -/
def standing (l : Location) (t : Tree) : List Tree :=
  (p.entry (l :: path)).place (p.rebuild run (l :: path) t)

theorem rebuildNodes_eq (name : GroupName) (index : Nat) (nodes : List Tree) :
    p.rebuildNodes run path name index nodes
      = (nodes.zipIdx index).flatMap fun k => p.standing run path ⟨name, k.2⟩ k.1 := by
  induction nodes generalizing index with
  | nil => rfl
  | cons t ts ih => rw [rebuildNodes, ih, List.zipIdx_cons, List.flatMap_cons, standing]

/-- Every child is exchanged for what stands in its place. -/
theorem rebuildGroups_eq (groups : List (GroupName × List Tree)) :
    p.rebuildGroups run path groups
      = groups.map fun g => (g.1, NamedChildren.spreadGroup (p.standing run path) g) := by
  induction groups with
  | nil => rfl
  | cons g groups ih =>
    rw [rebuildGroups, rebuildNodes_eq, ih, List.map_cons, NamedChildren.spreadGroup,
      NamedChildren.locateGroup, List.flatMap_map]

end Plan

/-! ## Edits kind by kind -/

namespace Trail

variable {N : Type}

/-- The nodes of each kind: those put before and after a node, and the one that
takes its place. -/
def kinds (before after : List N) (new : Option N) : EditKind → List N
  | .replace => new.toList
  | .delete => []
  | .insertBefore => before
  | .insertAfter => after

theorem kinds_eq_nil_iff (before after : List N) (new : Option N) :
    (∀ kind, kinds before after new kind = []) ↔ before = [] ∧ after = [] ∧ new = none := by
  constructor
  · intro h
    exact ⟨h .insertBefore, h .insertAfter, Option.toList_eq_nil_iff.1 (h .replace)⟩
  · rintro ⟨rfl, rfl, rfl⟩ kind
    cases kind <;> rfl

end Trail

/-- An edit other than a deletion, by its kind. -/
def Edit.toKind {N : Type} : Edit N → Option (EditKind × N)
  | .change node => some (.replace, node)
  | .delete => none
  | .insertBefore node => some (.insertBefore, node)
  | .insertAfter node => some (.insertAfter, node)

namespace Task

open Trail

variable {N D : Type} {before after : List N} {new : Option N} {t : Task N D}

/-- The edits of a task that was not deleted, kind by kind. -/
structure Holds (t : Task N D) (before after : List N) (new : Option N) : Prop where
  stays : t.frame.deleted = false
  kinds : ∀ kind, nodesOf t.edits kind = Trail.kinds before after new kind

theorem holds_ofFrame {f : Frame N D} (h : f.deleted = false) :
    (ofFrame f).Holds [] [] none :=
  ⟨h, fun kind => by cases kind <;> rfl⟩

/-- A new node takes the place of what was there. -/
theorem Holds.replace (h : t.Holds before after new) (node : N) :
    (t.replace node).Holds before after (some node) := by
  refine ⟨h.stays, fun kind => ?_⟩
  have hone : (nodesOf t.edits .replace).length ≤ 1 := by
    rw [h.kinds]
    cases new <;> simp [Trail.kinds]
  rw [Task.replace, nodesOf_putReplacement hone]
  cases kind <;> simp [h.kinds, Trail.kinds]

/-- Only the edits and the mark of deletion count. -/
theorem Holds.congr {t' : Task N D} (h : t.Holds before after new)
    (hdeleted : t'.frame.deleted = t.frame.deleted) (hedits : t'.edits = t.edits) :
    t'.Holds before after new :=
  ⟨hdeleted.trans h.stays, fun kind => by rw [hedits, h.kinds kind]⟩

/-- A task after some of its edits, none of which is a deletion. -/
structure Grown (t : Task N D) (before after : List N) (new : Option N)
    (edits : List (EditKind × N)) (t' : Task N D) : Prop where
  holds : t'.Holds (before ++ nodesOf edits .insertBefore) (after ++ nodesOf edits .insertAfter)
    ((nodesOf edits .replace).getLast?.or new)
  frame : t'.frame = { t.frame with node :=
    ((nodesOf edits .replace).getLast?).getD t.frame.node }

theorem Holds.change (h : t.Holds before after new) (node : N) :
    ∃ t', t.change node = .ok t' ∧ t.Grown before after new [(.replace, node)] t' := by
  refine ⟨{ t.replace node with changed := true }, ?_, ⟨?_, rfl⟩⟩
  · unfold Task.change
    rw [h.stays]
    rfl
  · show Holds _ (before ++ []) (after ++ []) (some node)
    rw [List.append_nil, List.append_nil]
    exact (h.replace node).congr rfl rfl

theorem Holds.insert (h : t.Holds before after new) {kind : EditKind}
    (hkind : kind.isInsertion = true) (node : N) :
    ∃ t', t.insert false kind node = .ok t' ∧ t.Grown before after new [(kind, node)] t' := by
  have hnew : nodesOf [(kind, node)] .replace = [] := by
    cases kind with
    | replace => cases hkind
    | delete => rfl
    | insertBefore => rfl
    | insertAfter => rfl
  refine ⟨{ t with edits := t.edits ++ [(kind, node)] }, ?_, ⟨?_, by rw [hnew]; rfl⟩⟩
  · unfold Task.insert
    rw [h.stays]
    rfl
  · refine ⟨h.stays, fun k => ?_⟩
    rw [hnew, nodesOf_append, h.kinds]
    cases kind with
    | replace => cases hkind
    | delete => cases hkind
    | insertBefore => cases k <;> simp [Trail.kinds, nodesOf]
    | insertAfter => cases k <;> simp [Trail.kinds, nodesOf]

theorem Holds.edit (h : t.Holds before after new) {isRoot : Bool} {e : Edit N}
    {op : EditKind × N} (he : e.toKind = some op) (hroot : isRoot = true → op.1 = .replace) :
    ∃ t', t.edit isRoot e = .ok t' ∧ t.Grown before after new [op] t' := by
  have hinner : op.1 ≠ .replace → isRoot = false := by
    intro hne
    cases isRoot with
    | false => rfl
    | true => exact absurd (hroot rfl) hne
  cases e with
  | delete => cases he
  | change node =>
    obtain rfl := Option.some.inj he
    exact h.change node
  | insertBefore node =>
    obtain rfl := Option.some.inj he
    rw [hinner (by simp)]
    exact h.insert rfl node
  | insertAfter node =>
    obtain rfl := Option.some.inj he
    rw [hinner (by simp)]
    exact h.insert rfl node

theorem Grown.trans {t₁ t₂ : Task N D} {op : EditKind × N} {edits : List (EditKind × N)}
    (h₁ : t.Grown before after new [op] t₁)
    (h₂ : t₁.Grown (before ++ nodesOf [op] .insertBefore) (after ++ nodesOf [op] .insertAfter)
      ((nodesOf [op] .replace).getLast?.or new) edits t₂) :
    t.Grown before after new (op :: edits) t₂ := by
  have hsplit : ∀ kind, nodesOf (op :: edits) kind = nodesOf [op] kind ++ nodesOf edits kind :=
    fun kind => nodesOf_append [op] edits kind
  refine ⟨?_, ?_⟩
  · rw [hsplit, hsplit, hsplit, ← List.append_assoc, ← List.append_assoc,
      List.getLast?_append, Option.or_assoc]
    exact h₂.holds
  · rw [h₂.frame, h₁.frame, hsplit, List.getLast?_append]
    cases (nodesOf edits .replace).getLast? <;> rfl

/-- The edits of one callback, none of which is a deletion. -/
theorem Holds.editAll (h : t.Holds before after new) {isRoot : Bool} {edits : List (Edit N)}
    (hstays : .delete ∉ edits)
    (hroot : isRoot = true → ∀ op ∈ edits.filterMap Edit.toKind, op.1 = .replace) :
    ∃ t', t.editAll isRoot edits = .ok t'
      ∧ t.Grown before after new (edits.filterMap Edit.toKind) t' := by
  induction edits generalizing t before after new with
  | nil => exact ⟨t, rfl, by simpa [nodesOf] using h, rfl⟩
  | cons e edits ih =>
    rw [List.mem_cons, not_or] at hstays
    obtain ⟨op, hop⟩ : ∃ op, e.toKind = some op := by
      cases e with
      | delete => exact absurd rfl hstays.1
      | change node => exact ⟨_, rfl⟩
      | insertBefore node => exact ⟨_, rfl⟩
      | insertAfter node => exact ⟨_, rfl⟩
    rw [List.filterMap_cons_some hop, List.forall_mem_cons] at hroot
    obtain ⟨t₁, h₁, hgrown₁⟩ := h.edit hop fun hr => (hroot hr).1
    obtain ⟨t₂, h₂, hgrown₂⟩ := ih hgrown₁.holds hstays.2 fun hr => (hroot hr).2
    refine ⟨t₂, ?_, ?_⟩
    · simp only [Task.editAll, h₁, bind, Except.bind, h₂]
    · rw [List.filterMap_cons_some hop]
      exact hgrown₁.trans hgrown₂

/-- A copy takes the place of what was there. -/
theorem Holds.merge (h : t.Holds before after new) (A : Adapter N) (site : Site)
    (edits : List (ChildEdit N)) :
    (t.merge A site edits).Holds before after (if edits = [] then new else
      some (A.rebuild site t.frame.node
        ((A.children t.frame.node).spread (ChildEdit.slot edits)))) := by
  by_cases hne : edits = []
  · rw [hne]
    exact h
  · rw [Task.merge_of_ne_nil A site t hne, if_neg hne]
    exact h.replace _

end Task

/-! ## What the children hand over -/

namespace Plan

variable (p : Plan) (run : Nat) (path : List Location)

/-- The edits of the node at the path, kind by kind, once the plan is carried
out below it. -/
def handed (t : Tree) : EditKind → List Tree :=
  match p.entry path with
  | .delete => fun kind => if kind = .delete then [t] else []
  | .keep change before after => Trail.kinds before after
      (if change.isSome || p.touchesGroups path t.groups then some (p.rebuild run path t)
        else none)

theorem handed_eq_nil_iff (t : Tree) :
    (∀ kind, p.handed run path t kind = []) ↔ p.touches path t = false := by
  obtain ⟨id, label, groups⟩ := t
  unfold handed touches
  cases p.entry path with
  | delete => simp [Entry.isEdit]
  | keep change before after =>
    show (∀ kind, Trail.kinds before after _ kind = []) ↔ _
    rw [Trail.kinds_eq_nil_iff]
    simp [Entry.isEdit, Tree.groups, and_assoc, and_left_comm]

/-- With nothing done below it a node stays, or the new node takes its place. -/
theorem rebuild_of_untouched {t : Tree} (h : p.touchesGroups path t.groups = false) :
    p.rebuild run path t = (p.entry path).changed t := by
  obtain ⟨id, label, groups⟩ := t
  have hnone : p.touchesGroups path groups = false := h
  rw [rebuild, hnone]
  rfl

/-- Otherwise it is a copy. -/
theorem rebuild_of_touched {t : Tree} (h : p.touchesGroups path t.groups = true) :
    p.rebuild run path t = .node (.made ((Site.ofRun run).below path))
      ((p.entry path).changed t).label (p.rebuildGroups run path t.groups) := by
  obtain ⟨id, label, groups⟩ := t
  have hsome : p.touchesGroups path groups = true := h
  rw [rebuild, hsome]
  rfl

/-- What stands in the place of a node comes from the edits that it hands over. -/
theorem slot_eq_standing {edits : List (ChildEdit Tree)} {l : Location} {t : Tree}
    (h : ∀ kind, ChildEdit.nodesAt edits l kind = p.handed run (l :: path) t kind) :
    ChildEdit.slot edits l t = p.standing run path l t := by
  unfold ChildEdit.slot ChildEdit.center standing
  simp only [h, handed]
  cases hentry : p.entry (l :: path) with
  | delete => rfl
  | keep change before after =>
    by_cases hnew : (change.isSome || p.touchesGroups (l :: path) t.groups) = true
    · simp [Trail.kinds, Entry.place, hnew]
    · have hself : p.rebuild run (l :: path) t = t := by
        rw [Bool.or_eq_true, not_or] at hnew
        obtain rfl : change = none := by simpa using hnew.1
        rw [p.rebuild_of_untouched run _ (Bool.eq_false_iff.2 hnew.2), hentry]
        rfl
      simp [Trail.kinds, Entry.place, hnew, hself]

variable {D : Type}

/-- A task hands over the edits of a child. -/
structure Hands (k : Location × Tree) (t : Task Tree D) : Prop where
  location : t.frame.location = some k.1
  edits : ∀ kind, Trail.nodesOf t.edits kind = p.handed run (k.1 :: path) k.2 kind

variable {p run path}

theorem Hands.toChildEdits {k : Location × Tree} {t : Task Tree D} (h : p.Hands run path k t) :
    t.toChildEdits = Trail.handOver k.1 t.edits := by
  simp [Task.toChildEdits, h.location, Trail.handOver]

/-- Nothing is handed over exactly if nothing is planned. -/
theorem handsAll_eq_nil_iff {kids : List (Location × Tree)} {ts : List (Task Tree D)}
    (h : List.Forall₂ (p.Hands run path) kids ts) :
    ts.flatMap Task.toChildEdits = []
      ↔ (kids.any fun k => p.touches (k.1 :: path) k.2) = false := by
  induction h with
  | nil => simp
  | @cons k t kids ts hk _ ih =>
    have hfirst : t.toChildEdits = [] ↔ p.touches (k.1 :: path) k.2 = false := by
      rw [hk.toChildEdits, Trail.handOver, List.map_eq_nil_iff, Trail.eq_nil_iff,
        ← p.handed_eq_nil_iff run]
      simp only [hk.edits]
    rw [List.flatMap_cons, List.append_eq_nil_iff, List.any_cons, Bool.or_eq_false_iff, hfirst, ih]

/-- At the place of a child there are the edits that it hands over. -/
theorem nodesAt_handsAll {kids : List (Location × Tree)} {ts : List (Task Tree D)}
    (h : List.Forall₂ (p.Hands run path) kids ts) (hnd : (kids.map Prod.fst).Nodup) :
    ∀ k ∈ kids, ∀ kind, ChildEdit.nodesAt (ts.flatMap Task.toChildEdits) k.1 kind
      = p.handed run (k.1 :: path) k.2 kind := by
  have hother : ∀ {kids : List (Location × Tree)} {ts : List (Task Tree D)},
      List.Forall₂ (p.Hands run path) kids ts → ∀ l ∉ kids.map Prod.fst, ∀ kind,
        ChildEdit.nodesAt (ts.flatMap Task.toChildEdits) l kind = [] := by
    intro kids ts h l hl kind
    induction h with
    | nil => rfl
    | @cons k t kids ts hk _ ih =>
      rw [List.map_cons, List.mem_cons, not_or] at hl
      rw [List.flatMap_cons, ChildEdit.nodesAt_append, hk.toChildEdits, Trail.nodesAt_handOver,
        if_neg (Ne.symm hl.1), ih hl.2, List.append_nil]
  induction h with
  | nil => simp
  | @cons k t kids ts hk hrest ih =>
    rw [List.map_cons, List.nodup_cons] at hnd
    intro k' hk' kind
    rw [List.flatMap_cons, ChildEdit.nodesAt_append, hk.toChildEdits, Trail.nodesAt_handOver]
    rcases List.mem_cons.1 hk' with rfl | hk'
    · rw [if_pos rfl, hk.edits, hother hrest _ hnd.1, List.append_nil]
    · have hne : k.1 ≠ k'.1 := fun he => hnd.1 (he ▸ List.mem_map_of_mem hk')
      rw [if_neg hne, List.nil_append, ih hnd.2 k' hk' kind]

/-- Merging what the children of a node hand over comes to the groups of the
rebuilt node. -/
theorem groups_spread_slot {c : NamedChildren Tree} {ts : List (Task Tree D)}
    (h : List.Forall₂ (p.Hands run path) c.locations ts) :
    (c.spread (ChildEdit.slot (ts.flatMap Task.toChildEdits))).groups
      = p.rebuildGroups run path c.groups := by
  have hslot : ∀ k ∈ c.locations, ChildEdit.slot (ts.flatMap Task.toChildEdits) k.1 k.2
      = p.standing run path k.1 k.2 := fun k hk =>
    p.slot_eq_standing run path (nodesAt_handsAll h c.nodup_map_fst_locations k hk)
  rw [c.spread_congr hslot, rebuildGroups_eq]
  rfl

end Plan

end Topiary
