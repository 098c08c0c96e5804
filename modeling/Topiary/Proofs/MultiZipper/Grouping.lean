/-
Topiary.Proofs.MultiZipper.Grouping — zippers by parent.

`Siblings.ofZippers` puts every zipper into the group of its parent, where
parents are compared by identity and path.  On breadcrumbs of one tree that
comes to comparing steps, so a group is the part of the list that stands just
below one path, in the order of the list.

* `Zipper.editBelow` — a zipper just below a path as an edit of the children
  there.
* `Siblings.gather_of_new`, `Siblings.gather_of_known` — an edit begins the
  group of its parent or joins it.
* `Siblings.Grouped` — groups that split a list of zippers by parent.
* `Siblings.grouped_ofZippers` — the groups that are made do so.
-/
import Topiary.Proofs.MultiZipper.Standing

namespace Topiary

variable {N : Type}

namespace Zipper

/-- A zipper just below a path as an edit of the children there. -/
def editBelow (p : List Location) (z : Zipper N) : Option (ChildEdit N) :=
  match z.crumbs with
  | [] => none
  | crumb :: above =>
    if steps above = p then some ⟨crumb.location, z.kind, z.node⟩ else none

/-- A zipper is an edit of the children at the rest of its path only. -/
theorem editBelow_eq_some_iff (p : List Location) (z : Zipper N) (e : ChildEdit N) :
    z.editBelow p = some e
      ↔ steps z.crumbs = e.location :: p ∧ z.kind = e.kind ∧ z.node = e.node := by
  obtain ⟨node, crumbs, kind⟩ := z
  obtain ⟨l, k, n⟩ := e
  cases crumbs with
  | nil => simp [editBelow, steps]
  | cons crumb above =>
    by_cases h : steps above = p
    · simp [editBelow, steps_cons, h]
    · simp [editBelow, steps_cons, h]

theorem editBelow_eq_none_iff (p : List Location) (z : Zipper N) :
    z.editBelow p = none ↔ ∀ l, steps z.crumbs ≠ l :: p := by
  rw [Option.eq_none_iff_forall_ne_some]
  constructor
  · exact fun h l hl => h ⟨l, z.kind, z.node⟩
      ((editBelow_eq_some_iff p z _).2 ⟨hl, rfl, rfl⟩)
  · exact fun h e he => h e.location ((editBelow_eq_some_iff p z e).1 he).1

/-- The zippers on a child are the edits at its location. -/
theorem nodesAt_cons (zs : List (Zipper N)) (l : Location) (p : List Location)
    (kind : EditKind) :
    nodesAt zs (l :: p) kind = ChildEdit.nodesAt (zs.filterMap (editBelow p)) l kind := by
  rw [nodesAt, ChildEdit.nodesAt, List.filterMap_filterMap]
  congr 1
  funext z
  obtain ⟨node, crumbs, k⟩ := z
  cases crumbs with
  | nil => simp [editBelow, steps]
  | cons crumb above =>
    by_cases h : steps above = p
    · simp [editBelow, steps_cons, h]
    · simp [editBelow, steps_cons, h]

end Zipper

namespace Siblings

open Zipper

variable {A : Adapter N} {root : N}

/-- Parents of one tree are the same exactly if their paths are. -/
theorem sameParent_iff [Identified N] {a b : Siblings N}
    (ha : Leads A root a.above a.parent) (hb : Leads A root b.above b.parent) :
    sameParent a b = true ↔ steps a.above = steps b.above := by
  rw [sameParent, Bool.and_eq_true, beq_iff_eq, beq_iff_eq, pathKey_eq_iff ha hb]
  constructor
  · exact And.right
  · intro hs
    exact ⟨by rw [(ha.unique hb hs).2], hs⟩

/-- Edits of a parent without a group begin a group. -/
theorem gather_of_new [Identified N] {s : Siblings N} {groups : List (Siblings N)}
    (h : ∀ t ∈ groups, sameParent t s = false) : gather s groups = groups ++ [s] := by
  induction groups with
  | nil => rfl
  | cons t groups ih =>
    rw [List.forall_mem_cons] at h
    simp [gather, h.1, ih h.2]

/-- The group with the edits of `s`, if it is about the same path. -/
def join (s t : Siblings N) : Siblings N :=
  if steps t.above = steps s.above then { t with edits := t.edits ++ s.edits } else t

@[simp] theorem join_above (s t : Siblings N) : (join s t).above = t.above := by
  unfold join
  split <;> rfl

@[simp] theorem join_parent (s t : Siblings N) : (join s t).parent = t.parent := by
  unfold join
  split <;> rfl

/-- Edits of a parent with a group join it. -/
theorem gather_of_known [Identified N] {s : Siblings N} {groups : List (Siblings N)}
    (hs : Leads A root s.above s.parent) (hleads : ∀ t ∈ groups, Leads A root t.above t.parent)
    (hdistinct : groups.Pairwise fun t u => steps t.above ≠ steps u.above)
    (hknown : ∃ t ∈ groups, steps t.above = steps s.above) :
    gather s groups = groups.map (join s) := by
  induction groups with
  | nil => simp at hknown
  | cons t groups ih =>
    rw [List.pairwise_cons] at hdistinct
    rw [List.forall_mem_cons] at hleads
    by_cases ht : steps t.above = steps s.above
    · have hrest : groups.map (join s) = groups := by
        conv => rhs; rw [← List.map_id groups]
        refine List.map_congr_left fun u hu => ?_
        exact if_neg fun hus => hdistinct.1 u hu (ht.trans hus.symm)
      rw [List.map_cons, hrest, gather, if_pos ((sameParent_iff hleads.1 hs).2 ht), join, if_pos ht]
    · have hknown' : ∃ u ∈ groups, steps u.above = steps s.above := by
        obtain ⟨u, _ | ⟨_, hu⟩, hus⟩ := hknown
        · exact absurd hus ht
        · exact ⟨u, hu, hus⟩
      rw [List.map_cons, gather, if_neg (mt (sameParent_iff hleads.1 hs).1 ht),
        ih hleads.2 hdistinct.2 hknown', join, if_neg ht]

/-- Groups that split a list of zippers by parent. -/
structure Grouped (A : Adapter N) (root : N) (groups : List (Siblings N))
    (zs : List (Zipper N)) : Prop where
  leads : ∀ s ∈ groups, Leads A root s.above s.parent
  edits : ∀ s ∈ groups, s.edits = zs.filterMap (editBelow (steps s.above))
  edits_ne_nil : ∀ s ∈ groups, s.edits ≠ []
  distinct : groups.Pairwise fun s t => steps s.above ≠ steps t.above
  covers : ∀ z ∈ zs, ∀ l p, steps z.crumbs = l :: p → ∃ s ∈ groups, steps s.above = p

/-- A zipper at the root is in no group. -/
theorem Grouped.snoc_root {groups : List (Siblings N)} {zs : List (Zipper N)}
    (h : Grouped A root groups zs) {z : Zipper N} (hz : z.crumbs = []) :
    Grouped A root groups (zs ++ [z]) where
  leads := h.leads
  edits := by
    intro s hs
    have hnone : z.editBelow (steps s.above) = none := by simp [editBelow, hz]
    simp [h.edits s hs, hnone]
  edits_ne_nil := h.edits_ne_nil
  distinct := h.distinct
  covers := by
    intro z' hz' l p hp
    rcases List.mem_append.1 hz' with hz' | hz'
    · exact h.covers z' hz' l p hp
    · rw [List.mem_singleton.1 hz', hz] at hp
      exact absurd hp (by simp [steps])

section

variable {groups : List (Siblings N)} {zs : List (Zipper N)} {z : Zipper N} {s : Siblings N}

/-- A zipper that is an edit below one parent only stands just below it. -/
theorem parent_of_below
    (hbelow : ∀ p, ([z].filterMap (editBelow p)) = if p = steps s.above then s.edits else [])
    {l : Location} {p : List Location} (hp : steps z.crumbs = l :: p) : steps s.above = p := by
  by_cases hne : p = steps s.above
  · exact hne.symm
  · have hnone := hbelow p
    rw [if_neg hne, List.filterMap_eq_nil_iff] at hnone
    exact absurd hp ((editBelow_eq_none_iff p z).1 (hnone z (List.mem_singleton.2 rfl)) l)

/-- A zipper whose parent has no group yet. -/
theorem Grouped.snoc_new (h : Grouped A root groups zs) (hs : Leads A root s.above s.parent)
    (hone : s.edits ≠ []) (hbelow : ∀ p, ([z].filterMap (editBelow p))
      = if p = steps s.above then s.edits else [])
    (hnew : ∀ t ∈ groups, steps t.above ≠ steps s.above) :
    Grouped A root (groups ++ [s]) (zs ++ [z]) := by
  have hfresh : zs.filterMap (editBelow (steps s.above)) = [] := by
    rw [List.filterMap_eq_nil_iff]
    intro z' hz'
    rw [editBelow_eq_none_iff]
    intro l hl
    obtain ⟨t, ht, hp⟩ := h.covers z' hz' l _ hl
    exact hnew t ht hp
  refine ⟨?_, ?_, ?_, ?_, ?_⟩
  · exact List.forall_mem_append.2 ⟨h.leads, List.forall_mem_singleton.2 hs⟩
  · refine List.forall_mem_append.2 ⟨fun t ht => ?_, List.forall_mem_singleton.2 ?_⟩
    · rw [List.filterMap_append, ← h.edits t ht, hbelow, if_neg (hnew t ht), List.append_nil]
    · rw [List.filterMap_append, hfresh, hbelow, if_pos rfl, List.nil_append]
  · exact List.forall_mem_append.2 ⟨h.edits_ne_nil, List.forall_mem_singleton.2 hone⟩
  · rw [List.pairwise_append]
    exact ⟨h.distinct, List.pairwise_singleton .., fun t ht =>
      List.forall_mem_singleton.2 (hnew t ht)⟩
  · refine List.forall_mem_append.2 ⟨fun z' hz' l p hp => ?_, List.forall_mem_singleton.2 ?_⟩
    · obtain ⟨t, ht, htp⟩ := h.covers z' hz' l p hp
      exact ⟨t, List.mem_append_left _ ht, htp⟩
    · intro l p hp
      exact ⟨s, List.mem_append_right _ (List.mem_singleton.2 rfl), parent_of_below hbelow hp⟩

/-- A zipper whose parent has a group. -/
theorem Grouped.snoc_known (h : Grouped A root groups zs)
    (hbelow : ∀ p, ([z].filterMap (editBelow p)) = if p = steps s.above then s.edits else [])
    (hknown : ∃ t ∈ groups, steps t.above = steps s.above) :
    Grouped A root (groups.map (join s)) (zs ++ [z]) := by
  have hedits : ∀ t ∈ groups, (join s t).edits
      = (zs ++ [z]).filterMap (editBelow (steps t.above)) := by
    intro t ht
    rw [List.filterMap_append, ← h.edits t ht, hbelow, join]
    by_cases hts : steps t.above = steps s.above
    · simp [hts]
    · simp [hts]
  refine ⟨?_, ?_, ?_, ?_, ?_⟩
  · refine List.forall_mem_map.2 fun t ht => ?_
    rw [join_above, join_parent]
    exact h.leads t ht
  · refine List.forall_mem_map.2 fun t ht => ?_
    rw [join_above]
    exact hedits t ht
  · refine List.forall_mem_map.2 fun t ht => ?_
    rw [hedits t ht, List.filterMap_append, ← h.edits t ht]
    exact List.append_ne_nil_of_left_ne_nil (h.edits_ne_nil t ht) _
  · rw [List.pairwise_map]
    simpa using h.distinct
  · refine List.forall_mem_append.2 ⟨fun z' hz' l p hp => ?_, List.forall_mem_singleton.2 ?_⟩
    · obtain ⟨t, ht, htp⟩ := h.covers z' hz' l p hp
      exact ⟨join s t, List.mem_map_of_mem ht, by rw [join_above, htp]⟩
    · intro l p hp
      obtain ⟨t, ht, hts⟩ := hknown
      exact ⟨join s t, List.mem_map_of_mem ht, by
        rw [join_above, hts, parent_of_below hbelow hp]⟩

/-- A zipper below the root is gathered into the group of its parent. -/
theorem Grouped.snoc [Identified N] (h : Grouped A root groups zs) {crumb : Breadcrumb N}
    {above : List (Breadcrumb N)} (hz : z.crumbs = crumb :: above)
    (hlead : Leads A root above crumb.node) :
    Grouped A root (gather ⟨crumb.node, above, [⟨crumb.location, z.kind, z.node⟩]⟩ groups)
      (zs ++ [z]) := by
  generalize hs : (⟨crumb.node, above, [⟨crumb.location, z.kind, z.node⟩]⟩ : Siblings N) = s
  have hleads : Leads A root s.above s.parent := by
    rw [← hs]
    exact hlead
  have hbelow : ∀ p, ([z].filterMap (editBelow p)) = if p = steps s.above then s.edits else [] := by
    intro p
    by_cases hp : steps above = p
    · simp [editBelow, hz, ← hs, hp]
    · simp [editBelow, hz, ← hs, hp, Ne.symm hp]
  by_cases hknown : ∃ t ∈ groups, steps t.above = steps s.above
  · rw [gather_of_known hleads h.leads h.distinct hknown]
    exact h.snoc_known hbelow hknown
  · have hnew : ∀ t ∈ groups, steps t.above ≠ steps s.above :=
      fun t ht hts => hknown ⟨t, ht, hts⟩
    rw [gather_of_new fun t ht => by
      rw [← Bool.not_eq_true, sameParent_iff (h.leads t ht) hleads]
      exact hnew t ht]
    exact h.snoc_new hleads (by simp [← hs]) hbelow hnew

end

/-- The groups of a list of zippers split it by parent. -/
theorem grouped_ofZippers [Identified N] {zs : List (Zipper N)}
    (hleads : ∀ z ∈ zs, ∃ x, Leads A root z.crumbs x) : Grouped A root (ofZippers zs) zs := by
  have hfold : ∀ (more : List (Zipper N)) (groups : List (Siblings N)) (done : List (Zipper N)),
      (∀ z ∈ more, ∃ x, Leads A root z.crumbs x) → Grouped A root groups done →
      Grouped A root
        ((more.filterMap ofZipper?).foldl (fun groups s => gather s groups) groups)
        (done ++ more) := by
    intro more
    induction more with
    | nil => exact fun groups done _ h => by simpa using h
    | cons z more ih =>
      intro groups done hleads h
      have hrest := fun z' hz' => hleads z' (List.mem_cons_of_mem _ hz')
      obtain ⟨x, hx⟩ := hleads z (List.mem_cons_self ..)
      rw [List.append_cons]
      cases hcrumbs : z.crumbs with
      | nil =>
        have hnone : ofZipper? z = none := by simp [ofZipper?, hcrumbs]
        rw [List.filterMap_cons_none hnone]
        exact ih _ _ hrest (h.snoc_root hcrumbs)
      | cons crumb above =>
        have hsome : ofZipper? z
            = some ⟨crumb.node, above, [⟨crumb.location, z.kind, z.node⟩]⟩ := by
          simp [ofZipper?, hcrumbs]
        rw [hcrumbs] at hx
        cases hx with
        | child hlead _ =>
          rw [List.filterMap_cons_some hsome, List.foldl_cons]
          exact ih _ _ hrest (h.snoc hcrumbs hlead)
  have hempty : Grouped A root [] ([] : List (Zipper N)) :=
    ⟨by simp, by simp, by simp, List.Pairwise.nil, by simp⟩
  exact hfold zs [] [] hleads hempty

end Siblings

end Topiary
