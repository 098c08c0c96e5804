/-
Topiary.Proofs.MultiZipper.Absorb — folding the edits below one parent.

The zippers of one level are split into groups by parent, and one group after
the other is folded into the zippers higher up.  `Siblings.Level` is what
holds in between.  The group of a parent that is deleted or replaced by
another node is dropped; every other group becomes a replacement of the
parent by a copy, which takes the place of the parent's own replacement.

* `Level.absorb_overridden`, `Level.absorb_folded` — the two cases.
* `Level.absorb` — one group; `Level.absorbAll` — a whole level.
-/
import Topiary.Proofs.MultiZipper.Fold
import Topiary.Proofs.MultiZipper.Grouping

namespace Topiary

variable {N : Type}

namespace Siblings

open Zipper NamedChildren

/-- The zippers that are not just below the parent. -/
def elsewhere (s : Siblings N) (zs : List (Zipper N)) : List (Zipper N) :=
  zs.filter fun z => (z.editBelow (steps s.above)).isNone

/-- The zippers higher up without the replacement of the parent. -/
def kept [Identified N] (s : Siblings N) (higher : List (Zipper N)) : List (Zipper N) :=
  higher.filter fun z => !s.supersedes z

/-- The copy of the parent with the edits carried out. -/
def copy (A : Adapter N) (base : Site) (s : Siblings N) : N :=
  A.rebuild (base.below (steps s.above)) s.parent
    ((A.children s.parent).spread (ChildEdit.slot s.edits))

/-- A level on its way: the groups that are left, the zippers in them, and
the zippers higher up. -/
structure Level (A : Adapter N) (root : N) (depth : Nat) (groups : List (Siblings N))
    (higher rest : List (Zipper N)) : Prop where
  admissible : Admissible A root (higher ++ rest)
  grouped : Grouped A root groups rest
  higher_depth : ∀ z ∈ higher, z.depth ≤ depth
  rest_depth : ∀ z ∈ rest, z.depth = depth + 1

section

variable {A : Adapter N} {root : N} {d : Nat} {s : Siblings N} {groups : List (Siblings N)}
  {higher rest : List (Zipper N)}

theorem mem_elsewhere_iff (s : Siblings N) (zs : List (Zipper N)) (z : Zipper N) :
    z ∈ s.elsewhere zs ↔ z ∈ zs ∧ ∀ l, steps z.crumbs ≠ l :: steps s.above := by
  rw [elsewhere, List.mem_filter, Option.isNone_iff_eq_none, editBelow_eq_none_iff]

theorem nodesAt_elsewhere (s : Siblings N) (zs : List (Zipper N)) {q : List Location}
    (hq : ∀ l, q ≠ l :: steps s.above) (kind : EditKind) :
    nodesAt (s.elsewhere zs) q kind = nodesAt zs q kind := by
  refine nodesAt_filter fun z _ hz _ => ?_
  rw [Option.isNone_iff_eq_none, editBelow_eq_none_iff]
  exact fun l hl => hq l (hz ▸ hl)

/-- The other groups split the zippers that are left. -/
theorem Grouped.tail (h : Grouped A root (s :: groups) rest) :
    Grouped A root groups (s.elsewhere rest) where
  leads := fun t ht => h.leads t (List.mem_cons_of_mem _ ht)
  edits := by
    intro t ht
    rw [h.edits t (List.mem_cons_of_mem _ ht), elsewhere, List.filterMap_filter]
    congr 1
    funext z
    by_cases hz : z.editBelow (steps s.above) = none
    · simp [hz]
    · -- a zipper just below one parent is not just below another
      rw [editBelow_eq_none_iff] at hz
      have hnone : z.editBelow (steps t.above) = none := by
        rw [editBelow_eq_none_iff]
        intro l hl
        refine hz fun k hk => ?_
        have hne := (List.pairwise_cons.1 h.distinct).1 t ht
        rw [hl, List.cons.injEq] at hk
        exact hne hk.2.symm
      rw [hnone]
      split <;> rfl
  edits_ne_nil := fun t ht => h.edits_ne_nil t (List.mem_cons_of_mem _ ht)
  distinct := (List.pairwise_cons.1 h.distinct).2
  covers := by
    intro z hz l p hp
    obtain ⟨hz, hnot⟩ := (mem_elsewhere_iff s rest z).1 hz
    obtain ⟨t, _ | ⟨_, ht⟩, htp⟩ := h.covers z hz l p hp
    · exact absurd (htp ▸ hp) (hnot l)
    · exact ⟨t, ht, htp⟩

namespace Level

theorem leads (h : Level A root d (s :: groups) higher rest) : Leads A root s.above s.parent :=
  h.grouped.leads s (List.mem_cons_self ..)

theorem edits (h : Level A root d (s :: groups) higher rest) :
    s.edits = rest.filterMap (editBelow (steps s.above)) :=
  h.grouped.edits s (List.mem_cons_self ..)

/-- Some zipper stands just below the parent. -/
theorem exists_below (h : Level A root d (s :: groups) higher rest) :
    ∃ z ∈ rest, ∃ l, steps z.crumbs = l :: steps s.above := by
  have hne := h.grouped.edits_ne_nil s (List.mem_cons_self ..)
  rw [h.edits] at hne
  obtain ⟨e, he⟩ := List.exists_mem_of_ne_nil _ hne
  obtain ⟨z, hz, hze⟩ := List.mem_filterMap.1 he
  exact ⟨z, hz, e.location, ((editBelow_eq_some_iff _ z e).1 hze).1⟩

theorem length_above (h : Level A root d (s :: groups) higher rest) :
    (steps s.above).length = d := by
  obtain ⟨z, hz, l, hl⟩ := h.exists_below
  have hlen := congrArg List.length hl
  have hdepth := h.rest_depth z hz
  rw [length_steps, List.length_cons] at hlen
  rw [depth] at hdepth
  omega

/-- The deepest zippers stand below no path of their own depth. -/
theorem not_below (h : Level A root d groups higher rest) {q : List Location}
    (hq : d < q.length) : ¬ Below (higher ++ rest) q := by
  rintro ⟨z, hz, hlt, -⟩
  rcases List.mem_append.1 hz with hz | hz
  · have := h.higher_depth z hz
    omega
  · have := h.rest_depth z hz
    omega

theorem below_parent (h : Level A root d (s :: groups) higher rest) :
    Below (higher ++ rest) (steps s.above) := by
  obtain ⟨z, hz, l, hl⟩ := h.exists_below
  refine ⟨z, List.mem_append_right _ hz, ?_, hl ▸ List.suffix_cons ..⟩
  rw [h.length_above, h.rest_depth z hz]
  omega

/-- Without the zippers just below a parent none stands below it. -/
theorem not_below_parent (h : Level A root d (s :: groups) higher rest)
    {higher' : List (Zipper N)} (hdepth : ∀ z ∈ higher', z.depth ≤ d) {q : List Location}
    (hq : steps s.above <:+ q) : ¬ Below (higher' ++ s.elsewhere rest) q := by
  intro hbelow
  have hlen := hq.length_le
  rw [h.length_above] at hlen
  obtain ⟨z, hz, hlt, hsuf⟩ := hbelow
  rcases List.mem_append.1 hz with hz | hz
  · have := hdepth z hz
    omega
  · -- a zipper just below the parent, of which none is left
    obtain ⟨hz, hnot⟩ := (mem_elsewhere_iff ..).1 hz
    have hzd := h.rest_depth z hz
    have hqs : steps s.above = q := hq.eq_of_length (by rw [h.length_above]; omega)
    obtain ⟨before, hbefore⟩ := hsuf
    have hlen' := congrArg List.length hbefore
    rw [List.length_append, length_steps] at hlen'
    rw [depth] at hlt hzd
    obtain ⟨l, rfl⟩ := List.length_eq_one_iff.1 (show before.length = 1 by omega)
    exact hnot l (by rw [← hbefore, hqs, List.singleton_append])

theorem nodesAt_parent (h : Level A root d (s :: groups) higher rest) (kind : EditKind) :
    nodesAt (higher ++ rest) (steps s.above) kind = nodesAt higher (steps s.above) kind := by
  have hnone : nodesAt rest (steps s.above) kind = [] := by
    rw [nodesAt_eq_nil_iff]
    intro z hz hp
    have hlen := congrArg List.length hp
    have hdepth := h.rest_depth z hz
    rw [length_steps, h.length_above] at hlen
    rw [depth] at hdepth
    omega
  rw [nodesAt_append, hnone, List.append_nil]

theorem nodesAt_child (h : Level A root d (s :: groups) higher rest) (l : Location)
    (kind : EditKind) :
    nodesAt (higher ++ rest) (l :: steps s.above) kind = ChildEdit.nodesAt s.edits l kind := by
  have hnone : nodesAt higher (l :: steps s.above) kind = [] := by
    rw [nodesAt_eq_nil_iff]
    intro z hz hp
    have hlen := congrArg List.length hp
    have hdepth := h.higher_depth z hz
    rw [length_steps, List.length_cons, h.length_above] at hlen
    rw [depth] at hdepth
    omega
  rw [nodesAt_append, hnone, List.nil_append, nodesAt_cons, h.edits]

/-- The edits of a group agree with each other and name children of the
parent. -/
theorem edit_eq_spread (h : Level A root d (s :: groups) higher rest) :
    (A.children s.parent).editBy .integers s.edits
      = .ok ((A.children s.parent).spread (ChildEdit.slot s.edits)) := by
  rw [h.edits]
  refine NamedChildren.edit_eq_spread _ ?_ ?_
  · refine List.pairwise_filterMap.2 ((List.pairwise_append.1 h.admissible.apart).2.1.imp ?_)
    intro a b hab e he e' he' hl
    obtain ⟨hp, hk, -⟩ := (editBelow_eq_some_iff _ a e).1 he
    obtain ⟨hp', hk', -⟩ := (editBelow_eq_some_iff _ b e').1 he'
    have hapart := hab (hp.trans (hl ▸ hp'.symm))
    exact ⟨hk ▸ hapart.1, hk' ▸ hapart.2.1⟩
  · intro e he
    obtain ⟨z, hz, hze⟩ := List.mem_filterMap.1 he
    obtain ⟨hp, -, -⟩ := (editBelow_eq_some_iff _ z e).1 hze
    obtain ⟨x, hx⟩ := h.admissible.leads z (List.mem_append_right _ hz)
    cases hc : z.crumbs with
    | nil => simp [hc, steps] at hp
    | cons crumb above =>
      rw [hc] at hx hp
      cases hx with
      | child hlead hchild =>
        rw [steps_cons, List.cons.injEq] at hp
        obtain ⟨-, hparent⟩ := hlead.unique h.leads hp.2
        exact ⟨x, hparent ▸ hp.1 ▸ hchild⟩

variable [Identified N]

/-- The children of a parent come to what the edits of its group put in
their places. -/
theorem place_child (h : Level A root d (s :: groups) higher rest) (base : Site) (l : Location)
    (y : N) :
    place A base (higher ++ rest) (l :: steps s.above) y = ChildEdit.slot s.edits l y := by
  have hdeep : ¬ Below (higher ++ rest) (l :: steps s.above) :=
    h.not_below (by rw [List.length_cons, h.length_above]; omega)
  rw [place, standing_of_not_below hdeep, own, ChildEdit.slot, ChildEdit.center]
  simp only [h.nodesAt_child]
  by_cases hd : ChildEdit.nodesAt s.edits l .delete = []
  · simp [hd]
  · simp [hd]

theorem standing_parent (h : Level A root d (s :: groups) higher rest) (base : Site)
    (ho : ¬ Overridden (higher ++ rest) (steps s.above) s.parent) :
    Zipper.standing A base (higher ++ rest) (steps s.above) s.parent
      = some (s.copy A base) := by
  obtain ⟨hd, hr⟩ := not_or.1 ho
  have hid : nodeId (own (higher ++ rest) (steps s.above) s.parent) = nodeId s.parent := by
    rw [own]
    cases hlast : (nodesAt (higher ++ rest) (steps s.above) .replace).getLast? with
    | none => rfl
    | some n =>
      refine Decidable.byContradiction fun hne => hr ⟨n, ?_, hne⟩
      exact List.mem_of_getLast? hlast
  have hspread : ((A.children s.parent).spread fun l y =>
      place A base (higher ++ rest) (l :: steps s.above) y)
      = (A.children s.parent).spread (ChildEdit.slot s.edits) :=
    spread_congr _ fun q _ => h.place_child base q.1 q.2
  rw [standing_eq, if_neg hd, if_neg (not_not_intro hid), if_pos h.below_parent, hspread]
  rfl

theorem isAtParent_iff (h : Level A root d (s :: groups) higher rest) {z : Zipper N}
    (hz : z ∈ higher) : s.isAtParent z = true ↔ steps z.crumbs = steps s.above := by
  obtain ⟨x, hx⟩ := h.admissible.leads z (List.mem_append_left _ hz)
  rw [isAtParent, beq_iff_eq, pathKey_eq_iff hx h.leads]

theorem isOverriddenBy_iff (h : Level A root d (s :: groups) higher rest) {z : Zipper N}
    (hz : z ∈ higher) :
    s.isOverriddenBy z = true ↔ steps z.crumbs = steps s.above
      ∧ (z.kind = .delete ∨ z.kind = .replace ∧ nodeId z.node ≠ nodeId s.parent) := by
  rw [isOverriddenBy, Bool.and_eq_true, h.isAtParent_iff hz]
  cases z.kind <;> simp

/-- The check made before a fold. -/
theorem any_isOverriddenBy_iff (h : Level A root d (s :: groups) higher rest) :
    higher.any s.isOverriddenBy = true
      ↔ Overridden (higher ++ rest) (steps s.above) s.parent := by
  rw [List.any_eq_true, Overridden, h.nodesAt_parent, h.nodesAt_parent]
  constructor
  · rintro ⟨z, hz, hover⟩
    obtain ⟨hp, hk | ⟨hk, hid⟩⟩ := (h.isOverriddenBy_iff hz).1 hover
    · exact .inl (List.ne_nil_of_mem ((mem_nodesAt_iff _ _ _ _).2 ⟨z, hz, hp, hk, rfl⟩))
    · exact .inr ⟨z.node, (mem_nodesAt_iff _ _ _ _).2 ⟨z, hz, hp, hk, rfl⟩, hid⟩
  · rintro (hd | ⟨n, hn, hid⟩)
    · obtain ⟨n, hn⟩ := List.exists_mem_of_ne_nil _ hd
      obtain ⟨z, hz, hp, hk, -⟩ := (mem_nodesAt_iff _ _ _ _).1 hn
      exact ⟨z, hz, (h.isOverriddenBy_iff hz).2 ⟨hp, .inl hk⟩⟩
    · obtain ⟨z, hz, hp, hk, rfl⟩ := (mem_nodesAt_iff _ _ _ _).1 hn
      exact ⟨z, hz, (h.isOverriddenBy_iff hz).2 ⟨hp, .inr ⟨hk, hid⟩⟩⟩

/-- Other zippers in the place of those just below a parent: it is enough
that they mean the same on the parent. -/
theorem folds_of_alike (h : Level A root d (s :: groups) higher rest) {base : Site}
    {higher' : List (Zipper N)} {ledger : List (Rebuild N)}
    (hadm : Admissible A root (higher' ++ s.elsewhere rest))
    (hdepth : ∀ z ∈ higher', z.depth ≤ d)
    (hsame : ∀ q kind, q ≠ steps s.above → nodesAt higher q kind = nodesAt higher' q kind)
    (hat : ∃ kind, nodesAt higher' (steps s.above) kind ≠ [])
    (halike : Alike A base (higher ++ rest) (higher' ++ s.elsewhere rest) (steps s.above) s.parent)
    (hledger : ∀ entry, entry ∈ ledger ↔ entry = ⟨base.below (steps s.above), s.parent⟩
      ∧ ¬ Overridden (higher ++ rest) (steps s.above) s.parent)
    (honce : ledger.Nodup) :
    Folds A base root (higher ++ rest) ledger (higher' ++ s.elsewhere rest)
      ∧ Level A root d groups higher' (s.elsewhere rest) := by
  have hlevel : Level A root d groups higher' (s.elsewhere rest) :=
    ⟨hadm, h.grouped.tail, hdepth, fun z hz => h.rest_depth z ((mem_elsewhere_iff ..).1 hz).1⟩
  refine ⟨Folds.of_alike h.leads hadm ?_ h.below_parent ?_ ?_ ?_ halike hledger honce, hlevel⟩
  · intro q kind hq
    have hne : q ≠ steps s.above := fun he => hq (he ▸ List.suffix_rfl)
    have hkid : ∀ l, q ≠ l :: steps s.above := fun l he => hq (he ▸ List.suffix_cons ..)
    rw [nodesAt_append, nodesAt_append, hsame q kind hne, nodesAt_elsewhere s rest hkid]
  · exact fun q hq => h.not_below (h.length_above ▸ hq)
  · exact fun q hq => h.not_below_parent hdepth hq
  · obtain ⟨kind, hne⟩ := hat
    exact ⟨kind, by rw [nodesAt_append]; exact List.append_ne_nil_of_left_ne_nil hne _⟩

/-- A group whose parent is deleted or replaced is dropped. -/
theorem absorb_overridden (h : Level A root d (s :: groups) higher rest) (base : Site)
    (ho : Overridden (higher ++ rest) (steps s.above) s.parent) :
    s.absorb A base higher = .ok (higher, [])
      ∧ Folds A base root (higher ++ rest) [] (higher ++ s.elsewhere rest)
      ∧ Level A root d groups higher (s.elsewhere rest) := by
  have hsub : (higher ++ s.elsewhere rest).Sublist (higher ++ rest) :=
    List.Sublist.append_left List.filter_sublist _
  have hadm : Admissible A root (higher ++ s.elsewhere rest) :=
    ⟨fun z hz => h.admissible.leads z (hsub.subset hz),
      fun z hz => h.admissible.root_replaced z (hsub.subset hz), h.admissible.apart.sublist hsub⟩
  have hparent : ∀ kind, nodesAt (higher ++ rest) (steps s.above) kind
      = nodesAt (higher ++ s.elsewhere rest) (steps s.above) kind := by
    intro kind
    rw [nodesAt_append, nodesAt_append, nodesAt_elsewhere s rest fun l hl => ?_]
    have := congrArg List.length hl
    simp at this
  have hat : ∃ kind, nodesAt higher (steps s.above) kind ≠ [] := by
    rw [Overridden, h.nodesAt_parent, h.nodesAt_parent] at ho
    rcases ho with hd | ⟨n, hn, -⟩
    · exact ⟨_, hd⟩
    · exact ⟨_, List.ne_nil_of_mem hn⟩
  refine ⟨by rw [absorb, if_pos (h.any_isOverriddenBy_iff.2 ho)], ?_⟩
  exact h.folds_of_alike hadm h.higher_depth (fun _ _ _ => rfl) hat
    ⟨standing_of_overridden h.admissible ho (hparent _) (hparent _), hparent _, hparent _⟩
    (by simp [ho]) List.nodup_nil

theorem supersedes_iff (h : Level A root d (s :: groups) higher rest) {z : Zipper N}
    (hz : z ∈ higher) :
    s.supersedes z = true ↔ z.kind = .replace ∧ steps z.crumbs = steps s.above := by
  rw [supersedes, Bool.and_eq_true, h.isAtParent_iff hz, beq_iff_eq]

theorem mem_kept_iff (h : Level A root d (s :: groups) higher rest) (z : Zipper N) :
    z ∈ s.kept higher
      ↔ z ∈ higher ∧ ¬ (z.kind = .replace ∧ steps z.crumbs = steps s.above) := by
  rw [kept, List.mem_filter, Bool.not_eq_true', ← Bool.not_eq_true]
  exact and_congr_right fun hz => not_congr (h.supersedes_iff hz)

theorem nodesAt_kept (h : Level A root d (s :: groups) higher rest) {q : List Location}
    {kind : EditKind} (hq : ¬ (kind = .replace ∧ q = steps s.above)) :
    nodesAt (s.kept higher) q kind = nodesAt higher q kind := by
  refine nodesAt_filter fun z hz hp hk => ?_
  rw [Bool.not_eq_true', ← Bool.not_eq_true, h.supersedes_iff hz, hp, hk]
  exact hq

/-- The copy takes the place of the parent's replacement. -/
theorem nodesAt_folded (h : Level A root d (s :: groups) higher rest) (copy : N)
    (kind : EditKind) :
    nodesAt (s.kept higher ++ [.ofNode copy s.above] ++ s.elsewhere rest) (steps s.above) kind
      = if kind = .replace then [copy] else nodesAt (higher ++ rest) (steps s.above) kind := by
  have hrest : nodesAt (s.elsewhere rest) (steps s.above) kind = [] := by
    have hp := h.nodesAt_parent kind
    rw [nodesAt_append] at hp
    refine (nodesAt_elsewhere s rest (fun l hl => ?_) kind).trans (List.append_right_eq_self.1 hp)
    have := congrArg List.length hl
    simp at this
  rw [nodesAt_append, nodesAt_append, hrest, List.append_nil]
  by_cases hk : kind = .replace
  · have hnil : nodesAt (s.kept higher) (steps s.above) kind = [] := by
      rw [nodesAt_eq_nil_iff]
      exact fun z hz hp hzk => ((h.mem_kept_iff z).1 hz).2 ⟨hzk.trans hk, hp⟩
    rw [hnil, if_pos hk]
    simp [nodesAt, ofNode, hk]
  · have hnil : nodesAt [Zipper.ofNode copy s.above] (steps s.above) kind = [] := by
      simp [nodesAt, ofNode, Ne.symm hk]
    rw [h.nodesAt_kept fun hr => hk hr.1, hnil, List.append_nil, if_neg hk, h.nodesAt_parent]

theorem admissible_folded (h : Level A root d (s :: groups) higher rest) (copy : N)
    (ho : ¬ Overridden (higher ++ rest) (steps s.above) s.parent) :
    Admissible A root (s.kept higher ++ [.ofNode copy s.above] ++ s.elsewhere rest) := by
  have hsub : (s.kept higher ++ s.elsewhere rest).Sublist (higher ++ rest) :=
    List.filter_sublist.append List.filter_sublist
  have hcases : ∀ z ∈ s.kept higher ++ [.ofNode copy s.above] ++ s.elsewhere rest,
      z = .ofNode copy s.above ∨ z ∈ higher ++ rest := by
    intro z hz
    rw [List.append_assoc, List.mem_append, List.mem_append, List.mem_singleton] at hz
    rcases hz with hz | hz | hz
    · exact .inr (hsub.subset (List.mem_append_left _ hz))
    · exact .inl hz
    · exact .inr (hsub.subset (List.mem_append_right _ hz))
  refine ⟨?_, ?_, ?_⟩
  · intro z hz
    rcases hcases z hz with rfl | hz
    · exact ⟨s.parent, h.leads⟩
    · exact h.admissible.leads z hz
  · intro z hz
    rcases hcases z hz with rfl | hz
    · exact fun _ => rfl
    · exact h.admissible.root_replaced z hz
  · have hapart := List.pairwise_append.1 (h.admissible.apart.sublist hsub)
    rw [List.append_assoc, List.pairwise_append, List.singleton_append, List.pairwise_cons]
    refine ⟨hapart.1, ⟨?_, hapart.2.1⟩, ?_⟩
    · intro z hz hp
      have hlen := congrArg List.length hp
      have hdepth := h.rest_depth z ((mem_elsewhere_iff ..).1 hz).1
      rw [length_steps, length_steps, ofNode, ← length_steps, h.length_above] at hlen
      rw [depth] at hdepth
      omega
    · rintro z hz w (_ | ⟨_, hw⟩)
      · -- what is kept on the parent are insertions around it
        intro hp
        obtain ⟨hz, hkept⟩ := (h.mem_kept_iff z).1 hz
        refine ⟨fun hk => ho (.inl ?_), by simp [ofNode], fun hr => hkept ⟨hr.1, hp⟩⟩
        rw [h.nodesAt_parent]
        exact List.ne_nil_of_mem ((mem_nodesAt_iff _ _ _ _).2 ⟨z, hz, hp, hk, rfl⟩)
      · exact hapart.2.2 z hz w hw

/-- A group whose parent stays is folded into a copy of it. -/
theorem absorb_folded (h : Level A root d (s :: groups) higher rest) (base : Site)
    (ho : ¬ Overridden (higher ++ rest) (steps s.above) s.parent) :
    s.absorb A base higher = .ok (s.kept higher ++ [.ofNode (s.copy A base) s.above],
        [⟨base.below (steps s.above), s.parent⟩])
      ∧ Folds A base root (higher ++ rest) [⟨base.below (steps s.above), s.parent⟩]
          (s.kept higher ++ [.ofNode (s.copy A base) s.above] ++ s.elsewhere rest)
      ∧ Level A root d groups (s.kept higher ++ [.ofNode (s.copy A base) s.above])
          (s.elsewhere rest) := by
  have hstanding := h.standing_parent base ho
  have hfold : s.fold .integers A base
      = .ok (.ofNode (s.copy A base) s.above, ⟨base.below (steps s.above), s.parent⟩) := by
    simp only [fold, h.edit_eq_spread]
    rfl
  generalize s.copy A base = copy at hstanding hfold ⊢
  have hdepth : ∀ z ∈ s.kept higher ++ [.ofNode copy s.above], z.depth ≤ d := by
    intro z hz
    rcases List.mem_append.1 hz with hz | hz
    · exact h.higher_depth z ((h.mem_kept_iff z).1 hz).1
    · rw [List.mem_singleton.1 hz]
      exact Nat.le_of_eq ((length_steps s.above).symm.trans h.length_above)
  have hsame : ∀ q kind, q ≠ steps s.above →
      nodesAt higher q kind = nodesAt (s.kept higher ++ [.ofNode copy s.above]) q kind := by
    intro q kind hq
    have hnil : nodesAt [Zipper.ofNode copy s.above] q kind = [] := by
      simp [nodesAt, ofNode, Ne.symm hq]
    rw [nodesAt_append, hnil, List.append_nil, h.nodesAt_kept fun hr => hq hr.2]
  have hat : ∃ kind, nodesAt (s.kept higher ++ [.ofNode copy s.above]) (steps s.above) kind
      ≠ [] := by
    refine ⟨.replace, ?_⟩
    rw [nodesAt_append]
    exact List.append_ne_nil_of_right_ne_nil _ (by simp [nodesAt, ofNode])
  have halike : Alike A base (higher ++ rest)
      (s.kept higher ++ [.ofNode copy s.above] ++ s.elsewhere rest) (steps s.above) s.parent := by
    refine ⟨?_, ?_, ?_⟩
    · rw [hstanding, standing_of_replaced copy]
      · rw [h.nodesAt_folded, if_neg (by decide)]
        exact Decidable.not_not.1 (not_or.1 ho).1
      · rw [h.nodesAt_folded, if_pos rfl]
      · exact h.not_below_parent hdepth List.suffix_rfl
    · rw [h.nodesAt_folded, if_neg (by decide)]
    · rw [h.nodesAt_folded, if_neg (by decide)]
  refine ⟨?_, h.folds_of_alike (h.admissible_folded copy ho) hdepth hsame hat halike
    (by simp [ho]) (List.pairwise_singleton _ _)⟩
  rw [absorb, if_neg (mt h.any_isOverriddenBy_iff.1 ho), hfold]
  rfl

/-- One group. -/
theorem absorb (h : Level A root d (s :: groups) higher rest) (base : Site) :
    ∃ higher' ledger, s.absorb A base higher = .ok (higher', ledger)
      ∧ Folds A base root (higher ++ rest) ledger (higher' ++ s.elsewhere rest)
      ∧ Level A root d groups higher' (s.elsewhere rest) := by
  by_cases ho : Overridden (higher ++ rest) (steps s.above) s.parent
  · exact ⟨_, _, h.absorb_overridden base ho⟩
  · exact ⟨_, _, h.absorb_folded base ho⟩

end Level

end

/-- A whole level: in the end only the zippers higher up are left. -/
theorem Level.absorbAll [Identified N] {A : Adapter N} {root : N} {d : Nat}
    {groups : List (Siblings N)} :
    ∀ {higher rest : List (Zipper N)}, Level A root d groups higher rest → ∀ base : Site,
      ∃ zs ledger, Siblings.absorbAll A base groups higher = .ok (zs, ledger)
        ∧ Folds A base root (higher ++ rest) ledger zs ∧ ∀ z ∈ zs, z.depth ≤ d := by
  induction groups with
  | nil =>
    intro higher rest h base
    have hrest : rest = [] := by
      refine List.eq_nil_iff_forall_not_mem.2 fun z hz => ?_
      have hdepth := h.rest_depth z hz
      cases hc : z.crumbs with
      | nil => simp [depth, hc] at hdepth
      | cons crumb above =>
        obtain ⟨s, hs, -⟩ := h.grouped.covers z hz _ _ (by rw [hc, steps_cons])
        exact List.not_mem_nil hs
    have hadm := h.admissible
    rw [hrest, List.append_nil] at hadm ⊢
    exact ⟨higher, [], rfl, .refl hadm, h.higher_depth⟩
  | cons s groups ih =>
    intro higher rest h base
    obtain ⟨higher', ledger, habsorb, hfolds, hlevel⟩ := h.absorb base
    obtain ⟨zs, more, hall, hfolds', hdepth⟩ := ih hlevel base
    refine ⟨zs, ledger ++ more, ?_, hfolds.trans hfolds', hdepth⟩
    simp only [Siblings.absorbAll, habsorb, bind, Except.bind, hall]
    rfl

end Siblings

end Topiary
