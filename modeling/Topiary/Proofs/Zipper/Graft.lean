/-
Topiary.Proofs.Zipper.Graft — the laws of a zipper that goes to the root.

A zipper stands for an edit at the end of a path.  On the way to the root every
node of the path gives way to a copy, and nothing else changes: paths that leave
the path lead to the nodes they led to before, and the copies have the labels
and the shape of the nodes they are made of.  Lookups by path say so without
mention of the copies.

* `Adapter.nodeAt` — the node that a path leads to; `nodeAt_eq_ok_iff` — the
  breadcrumbs of the path.
* `Grafted` — a tree with another node at the end of a path.
* `Leads.exists_climb` — so is the root that a replacement leads to, by
  induction on the path.
* `Resembles` — two trees are the same but for the nodes above a path, and
  these have the same labels and shape.
* `Zipper.toRoot_laws` — all kinds of edits, and what follows for
  replacements.
-/
import Mathlib.Data.List.Induction
import Mathlib.Data.List.Nodup
import Mathlib.Data.List.TakeDrop
import Topiary.Proofs.MultiZipper.SingleEdit
import Topiary.Proofs.MultiZipper.Standing

namespace Topiary

variable {N : Type}

open NamedChildren ChildEdit

/-! ## One group around one child -/

namespace NamedChildren

variable {c : NamedChildren N} {l : Location} {x : N}

/-- The groups around a child. -/
structure Around (c : NamedChildren N) (l : Location) (x : N) (pre : Groups N)
    (before after : List N) (post : Groups N) : Prop where
  groups : c.groups = pre ++ (l.group, before ++ x :: after) :: post
  index : before.length = l.index

theorem exists_around (hx : c.childAt l = .ok x) :
    ∃ pre before after post, c.Around l x pre before after post := by
  obtain ⟨xs, hmem, hxi⟩ := (childAt_eq_ok_iff _ _ _).1 hx
  obtain ⟨pre, post, hgroups⟩ := List.append_of_mem hmem
  obtain ⟨hi, rfl⟩ := List.getElem?_eq_some_iff.1 hxi
  refine ⟨pre, xs.take l.index, xs.drop (l.index + 1), post, ?_, ?_⟩
  · rw [hgroups, List.cons_getElem_drop_succ, List.take_append_drop]
  · exact List.length_take_of_le (Nat.le_of_lt hi)

/-- An edit of a child changes its group at the place of the child. -/
theorem Around.modify {pre post : Groups N} {before after : List N}
    (h : c.Around l x pre before after post) (kind : EditKind) (node : N) :
    (c.modify l.group (kind.perform l.index node)).groups
      = pre ++ (l.group, before ++ atLast kind node [] x ++ after) :: post := by
  have hnodup := c.names_nodup
  rw [h.groups, List.map_append, List.map_cons, List.nodup_middle, List.nodup_cons,
    List.mem_append, not_or] at hnodup
  have hother : ∀ gs : Groups N, l.group ∉ gs.map Prod.fst →
      (gs.map fun g => if g.1 = l.group then (g.1, kind.perform l.index node g.2) else g)
        = gs := by
    intro gs hgs
    refine (List.map_congr_left fun g hg => if_neg fun he => hgs ?_).trans (List.map_id' gs)
    exact he ▸ List.mem_map_of_mem hg
  have hperform := perform_append kind node x before [] after
  simp only [List.nil_append, List.length_nil, Nat.add_zero, h.index] at hperform
  simp only [NamedChildren.modify, h.groups, List.map_append, List.map_cons, if_true,
    hother pre hnodup.1.1, hother post hnodup.1.2]
  rw [← hperform]
  simp

/-- A replacement of a child is all that the lookups see of it. -/
theorem childAt_modify_set (hx : c.childAt l = .ok x) (node : N) (l' : Location) :
    (c.modify l.group (EditKind.replace.perform l.index node)).childAt l'
      = if l' = l then .ok node else c.childAt l' := by
  obtain ⟨xs, hmem, hxi⟩ := (childAt_eq_ok_iff _ _ _).1 hx
  have hget : c.get? l.group = some xs := (get?_eq_some_iff _ _ _).2 hmem
  have hi : l.index < xs.length := (List.getElem?_eq_some_iff.1 hxi).1
  obtain ⟨group, index⟩ := l
  obtain ⟨group', index'⟩ := l'
  simp only [childAt, get?_modify] at hget hi ⊢
  by_cases hgroup : group' = group
  · subst hgroup
    by_cases hindex : index' = index
    · subst hindex
      simp [hget, hi, EditKind.perform]
    · simp [hget, hindex, EditKind.perform, List.getElem?_set_ne (Ne.symm hindex)]
  · simp [hgroup]

end NamedChildren

/-! ## Lookups by path -/

namespace Adapter

variable (A : Adapter N)

/-- The node that a path leads to.  The nearest step comes first, as in
breadcrumbs. -/
def nodeAt (root : N) : List Location → Except Failure N
  | [] => .ok root
  | l :: above => (nodeAt root above).bind fun x => (A.children x).childAt l

/-- The name and the length of each group of a node, and its label. -/
def outline {L : Type} (label : N → L) (x : N) : L × List (GroupName × Nat) :=
  (label x, (A.children x).groups.map fun g => (g.1, g.2.length))

/-- Copies have the label of the node they are made of. -/
def Keeps {L : Type} (label : N → L) : Prop :=
  ∀ site x c, label (A.rebuild site x c) = label x

variable {A} {root x : N} {p : List Location}

/-- The path of a node, continued. -/
theorem nodeAt_append (q p : List Location) :
    A.nodeAt root (q ++ p) = (A.nodeAt root p).bind fun x => A.nodeAt x q := by
  induction q with
  | nil => cases h : A.nodeAt root p <;> simp [nodeAt, h, Except.bind]
  | cons l q ih =>
    rw [List.cons_append, nodeAt, ih]
    cases A.nodeAt root p <;> rfl

end Adapter

open Adapter

variable {A : Adapter N} {root tree x node : N} {p : List Location}

/-- Breadcrumbs are the nodes on a path that leads to a node. -/
theorem nodeAt_eq_ok_iff : A.nodeAt root p = .ok x ↔
    ∃ crumbs, Leads A root crumbs x ∧ steps crumbs = p := by
  constructor
  · intro h
    induction p generalizing x with
    | nil => exact ⟨[], Except.ok.inj h ▸ .root, rfl⟩
    | cons l p ih =>
      cases hparent : A.nodeAt root p with
      | error f => simp [nodeAt, hparent, Except.bind] at h
      | ok parent =>
        simp only [nodeAt, hparent, Except.bind] at h
        obtain ⟨crumbs, hcrumbs, rfl⟩ := ih hparent
        exact ⟨⟨parent, l⟩ :: crumbs, .child hcrumbs h, rfl⟩
  · rintro ⟨crumbs, h, rfl⟩
    induction h with
    | root => rfl
    | child _ hx ih => rw [steps_cons, nodeAt, ih]; exact hx

theorem Leads.nodeAt_eq {crumbs : List (Breadcrumb N)} (h : Leads A root crumbs x) :
    A.nodeAt root (steps crumbs) = .ok x :=
  nodeAt_eq_ok_iff.2 ⟨crumbs, h, rfl⟩

/-! ## A node at the end of a path -/

/-- `tree` is `root` with `node` at the end of a path: paths that leave this
path lead to the same nodes, and the nodes above have kept label and shape. -/
structure Grafted (A : Adapter N) (root tree : N) (p : List Location) (node : N) : Prop where
  there : A.nodeAt tree p = .ok node
  apart : ∀ q, ¬ q <:+ p → ¬ p <:+ q → A.nodeAt tree q = A.nodeAt root q
  above : ∀ q, q <:+ p → q ≠ p → ∀ (L : Type) (label : N → L), A.Keeps label →
    (A.nodeAt tree q).map (A.outline label) = (A.nodeAt root q).map (A.outline label)

theorem Grafted.nil : Grafted A root node [] node where
  there := rfl
  apart := fun q _ h => absurd (List.nil_suffix (l := q)) h
  above := fun _ h hne => absurd (List.suffix_nil.1 h) hne

/-- The tree below the grafted node. -/
theorem Grafted.below (h : Grafted A root tree p node) (q : List Location) :
    A.nodeAt tree (q ++ p) = A.nodeAt node q := by
  rw [nodeAt_append, h.there]
  rfl

/-- A copy of the parent with one child replaced, in place of the parent. -/
theorem Grafted.child (hA : A.Lawful) {crumb : Breadcrumb N} {above : List (Breadcrumb N)}
    (hparent : Leads A root above crumb.node)
    (hx : (A.children crumb.node).childAt crumb.location = .ok x) {site : Site}
    (h : Grafted A root tree (steps above)
      (A.editChild site crumb.node crumb.location .replace node)) :
    Grafted A root tree (steps (crumb :: above)) node := by
  obtain ⟨parent, l⟩ := crumb
  have hchild : ∀ l', (A.nodeAt tree (l' :: steps above))
      = if l' = l then .ok node else A.nodeAt root (l' :: steps above) := by
    intro l'
    rw [nodeAt, nodeAt, h.there, hparent.nodeAt_eq]
    simp only [Except.bind, hA.children_editChild]
    exact childAt_modify_set hx node l'
  refine ⟨?_, fun q hqp hpq => ?_, fun q hqp hne L label hlabel => ?_⟩
  · rw [steps_cons, hchild, if_pos rfl]
  · rw [steps_cons] at hqp hpq
    have hq : ¬ q <:+ steps above := fun hq => hqp (hq.trans (List.suffix_cons ..))
    by_cases hbelow : steps above <:+ q
    · obtain ⟨r, rfl⟩ := hbelow
      rcases List.eq_nil_or_concat' r with rfl | ⟨r, l', rfl⟩
      · exact absurd List.suffix_rfl hq
      · have hl : l' ≠ l := by
          rintro rfl
          exact hpq ⟨r, by simp⟩
        rw [List.append_assoc, List.singleton_append, nodeAt_append, nodeAt_append, hchild,
          if_neg hl]
    · exact h.apart q hq hbelow
  · rw [steps_cons, List.suffix_cons_iff] at hqp
    have hq := hqp.resolve_left hne
    by_cases hlast : q = steps above
    · subst hlast
      obtain ⟨pre, before, after, post, haround⟩ := exists_around hx
      rw [h.there, hparent.nodeAt_eq]
      simp only [Except.map, outline, hA.children_editChild, haround.modify .replace node,
        haround.groups]
      rw [editChild, hlabel]
      simp [atLast]
    · exact h.above q hq hlast L label hlabel

/-- A copy of the parent goes to the root as its replacement. -/
theorem Zipper.climb_cons {crumb : Breadcrumb N} {above : List (Breadcrumb N)} {base : Site}
    {kind : EditKind} {ledger : List (Rebuild N)}
    (hx : (A.children crumb.node).childAt crumb.location = .ok x)
    (hclimb : climb A base .replace
      (A.editChild (base.below (steps above)) crumb.node crumb.location kind node) above
        = .ok (tree, ledger)) :
    climb A base kind node (crumb :: above)
      = .ok (tree, ⟨base.below (steps above), crumb.node⟩ :: ledger) := by
  simp only [climb, parentCopy_of_ok crumb _ kind node (countedBy_integers _) hx, hclimb, bind,
    Except.bind, pure, Except.pure]

/-- A replacement that goes to the root is grafted there. -/
theorem Leads.exists_climb (hA : A.Lawful) {crumbs : List (Breadcrumb N)}
    (h : Leads A root crumbs x) (base : Site) (node : N) :
    ∃ tree ledger, Zipper.climb A base .replace node crumbs = .ok (tree, ledger)
      ∧ Grafted A root tree (steps crumbs) node := by
  induction h generalizing node with
  | root => exact ⟨node, [], rfl, .nil⟩
  | @child crumb above x hparent hx ih =>
    obtain ⟨tree, ledger, hclimb, hgraft⟩ :=
      ih (A.editChild (base.below (steps above)) crumb.node crumb.location .replace node)
    exact ⟨tree, _, Zipper.climb_cons hx hclimb, hgraft.child hA hparent hx⟩

/-! ## Trees that differ above a path only -/

/-- Two trees are the same but for the nodes above a path, and have the same
labels and shape everywhere. -/
structure Resembles (A : Adapter N) (p : List Location) (t t' : N) : Prop where
  same : ∀ q, ¬ (q <:+ p ∧ q ≠ p) → A.nodeAt t q = A.nodeAt t' q
  outline : ∀ q (L : Type) (label : N → L), A.Keeps label →
    (A.nodeAt t q).map (A.outline label) = (A.nodeAt t' q).map (A.outline label)

namespace Grafted

variable {tree' node' : N}

/-- A node is where it is. -/
theorem refl (h : A.nodeAt root p = .ok x) : Grafted A root root p x :=
  ⟨h, fun _ _ _ => rfl, fun _ _ _ _ _ _ => rfl⟩

/-- Another node at the end of the same path. -/
theorem trans (h : Grafted A root tree p node) (h' : Grafted A tree tree' p node') :
    Grafted A root tree' p node' where
  there := h'.there
  apart := fun q hqp hpq => (h'.apart q hqp hpq).trans (h.apart q hqp hpq)
  above := fun q hqp hne L label hlabel =>
    (h'.above q hqp hne L label hlabel).trans (h.above q hqp hne L label hlabel)

/-- What is grafted onto one tree at one path is known by its node. -/
theorem resembles (h : Grafted A root tree p node) (h' : Grafted A root tree' p node) :
    Resembles A p tree tree' := by
  have hsame : ∀ q, ¬ (q <:+ p ∧ q ≠ p) → A.nodeAt tree q = A.nodeAt tree' q := by
    intro q hq
    by_cases hpq : p <:+ q
    · obtain ⟨r, rfl⟩ := hpq
      rw [h.below, h'.below]
    · have hqp : ¬ q <:+ p := fun hqp => hq ⟨hqp, fun he => hpq (he ▸ List.suffix_rfl)⟩
      rw [h.apart q hqp hpq, h'.apart q hqp hpq]
  refine ⟨hsame, fun q L label hlabel => ?_⟩
  by_cases hq : q <:+ p ∧ q ≠ p
  · rw [h.above q hq.1 hq.2 L label hlabel, h'.above q hq.1 hq.2 L label hlabel]
  · rw [hsame q hq]

end Grafted

/-! ## The laws -/

/-- `tree` is `root` with an edit of the child `x` of the node at `p`: paths that
leave `p` lead to the same nodes, the nodes above `p` have kept label and shape,
and in the groups of the node at `p` the child has given way to the node or
nodes of the edit, with all other children in their places. -/
structure EditedAt (A : Adapter N) (root tree : N) (p : List Location) (l : Location) (x : N)
    (kind : EditKind) (node : N) : Prop where
  apart : ∀ q, ¬ q <:+ p → ¬ p <:+ q → A.nodeAt tree q = A.nodeAt root q
  above : ∀ q, q <:+ p → q ≠ p → ∀ (L : Type) (label : N → L), A.Keeps label →
    (A.nodeAt tree q).map (A.outline label) = (A.nodeAt root q).map (A.outline label)
  parent : ∃ old new, A.nodeAt root p = .ok old ∧ A.nodeAt tree p = .ok new
    ∧ (∀ (L : Type) (label : N → L), A.Keeps label → label new = label old)
    ∧ ∃ pre before after post, (A.children old).Around l x pre before after post
      ∧ (A.children new).groups
        = pre ++ (l.group, before ++ atLast kind node [] x ++ after) :: post

namespace Zipper

variable {crumb : Breadcrumb N} {above : List (Breadcrumb N)}

/-- Every kind of edit of a child. -/
theorem exists_toRoot (hA : A.Lawful) (h : Leads A root (crumb :: above) x) (base : Site)
    (kind : EditKind) (node : N) :
    ∃ tree ledger, toRoot A base ⟨node, crumb :: above, kind⟩ = .ok (tree, ledger)
      ∧ EditedAt A root tree (steps above) crumb.location x kind node := by
  obtain ⟨parent, l⟩ := crumb
  cases h with
  | child hparent hx =>
    obtain ⟨tree, ledger, hclimb, hgraft⟩ := hparent.exists_climb hA base
      (A.editChild (base.below (steps above)) parent l kind node)
    obtain ⟨pre, before, after, post, haround⟩ := exists_around hx
    refine ⟨tree, _, climb_cons hx hclimb, hgraft.apart, hgraft.above, parent, _,
      hparent.nodeAt_eq, hgraft.there, fun L label hlabel => hlabel .., pre, before, after, post,
      haround, ?_⟩
    rw [hA.children_editChild, haround.modify kind node]

/-- The laws of a zipper at a path of a tree that is not the root.

It goes to the root, whatever its kind, and the edit is carried out there.
Replaced by itself, a node leaves a tree of the same labels and shape.  After a
replacement the path still exists, and to replace the node there once more comes
to the same as the second replacement alone, but for the copies of the nodes
above. -/
theorem toRoot_laws (hA : A.Lawful) (h : Leads A root (crumb :: above) x) (base : Site) :
    (∀ kind node, ∃ tree ledger, toRoot A base ⟨node, crumb :: above, kind⟩ = .ok (tree, ledger)
      ∧ EditedAt A root tree (steps above) crumb.location x kind node)
    ∧ (∃ tree ledger, toRoot A base (.ofNode x (crumb :: above)) = .ok (tree, ledger)
      ∧ Resembles A (steps (crumb :: above)) root tree)
    ∧ ∀ node, ∃ once ledger,
      toRoot A base (.ofNode node (crumb :: above)) = .ok (once, ledger)
      ∧ (∃ crumbs y, Leads A once crumbs y ∧ steps crumbs = steps (crumb :: above))
      ∧ ∀ crumbs y, Leads A once crumbs y → steps crumbs = steps (crumb :: above) →
        ∀ base' base'' node', ∃ twice direct ledger' ledger'',
          toRoot A base' (.ofNode node' crumbs) = .ok (twice, ledger')
          ∧ toRoot A base'' (.ofNode node' (crumb :: above)) = .ok (direct, ledger'')
          ∧ Resembles A (steps (crumb :: above)) direct twice := by
  refine ⟨exists_toRoot hA h base, ?_, fun node => ?_⟩
  · obtain ⟨tree, ledger, hclimb, hgraft⟩ := h.exists_climb hA base x
    exact ⟨tree, ledger, hclimb, (Grafted.refl h.nodeAt_eq).resembles hgraft⟩
  · obtain ⟨once, ledger, hclimb, honce⟩ := h.exists_climb hA base node
    obtain ⟨crumbs, hcrumbs, hsteps⟩ := nodeAt_eq_ok_iff.1 honce.there
    refine ⟨once, ledger, hclimb, ⟨crumbs, node, hcrumbs, hsteps⟩, ?_⟩
    intro crumbs' y hcrumbs' hsteps' base' base'' node'
    obtain ⟨twice, ledger', hclimb', htwice⟩ := hcrumbs'.exists_climb hA base' node'
    obtain ⟨direct, ledger'', hclimb'', hdirect⟩ := h.exists_climb hA base'' node'
    rw [hsteps'] at htwice
    exact ⟨twice, direct, ledger', ledger'', hclimb', hclimb'',
      hdirect.resembles (honce.trans htwice)⟩

/-- The way to the first leaf of the hedge. -/
def leftmost : List (Breadcrumb Tree) :=
  [⟨.node (.given 1) "b" [(.unnamed, [.node (.given 3) "d" [], .node (.given 4) "e" []])],
    .unnamed 0⟩, ⟨Tree.hedge, .unnamed 0⟩]

/-- A shoot beside the first leaf. -/
theorem leftmost_toRoot_laws : Tree.adapter.Lawful
    ∧ Leads Tree.adapter Tree.hedge leftmost (.node (.given 3) "d" [])
    ∧ ∃ tree ledger, toRoot Tree.adapter (.ofRun 0)
        ⟨.node (.given 9) "shoot" [], leftmost, .insertAfter⟩ = .ok (tree, ledger)
      ∧ EditedAt Tree.adapter Tree.hedge tree [.unnamed 0] (.unnamed 0)
        (.node (.given 3) "d" []) .insertAfter (.node (.given 9) "shoot" [])
      ∧ tree.render = "a(b(d,shoot,e),c(d))" := by
  have hleads : Leads Tree.adapter Tree.hedge leftmost (.node (.given 3) "d" []) :=
    .child (.child .root rfl) rfl
  obtain ⟨tree, ledger, htree, hedited⟩ := (toRoot_laws Tree.adapter_lawful hleads (.ofRun 0)).1
    .insertAfter (.node (.given 9) "shoot" [])
  have hrender : (toRoot Tree.adapter (.ofRun 0)
      ⟨.node (.given 9) "shoot" [], leftmost, .insertAfter⟩).map (fun r => r.1.render)
      = .ok "a(b(d,shoot,e),c(d))" := by cbv
  have htext : Except.ok "a(b(d,shoot,e),c(d))" = Except.ok tree.render :=
    hrender.symm.trans (congrArg (Except.map fun r => r.1.render) htree)
  exact ⟨Tree.adapter_lawful, hleads, tree, ledger, htree, hedited, (Except.ok.inj htext).symm⟩

end Zipper

end Topiary
