/-
Topiary.Proofs.Walk.BreadthFirst — the order of the callbacks in a breadth-first walk.

Items come up in the order of their ranks and are done in this order.  Everything about
the order of the callbacks is read off this.

* `Queued.exists_before` — of two items the one of lower rank is done first.
* `Queued.precedes` — contexts are numbered level by level and by address: cousins as
  their parents, siblings by position.
* `Queued.levelOrder` — the order of the callbacks on the way.
* `breadthFirst_walks_go_level_by_level` — and in a walk from end to end.
-/
import Mathlib.Data.List.Permutation
import Topiary.Proofs.Children.Spread
import Topiary.Proofs.Walk.Alike
import Topiary.Proofs.Walk.Queue

namespace Topiary

variable {N D S : Type} {t : Traversal N D S} {roots : List N}
  {w : Worklist N D (List (Call N D) × S)}

/-! ## What the order says -/

namespace Queued

/-- The callbacks are made for distinct items. -/
theorem eq_of_item_eq (h : Queued t roots w) {a b : Call N D} (ha : a ∈ w.state.1)
    (hb : b ∈ w.state.1) (hitem : a.item = b.item) : a = b :=
  List.inj_on_of_nodup_map (List.nodup_append.1 h.nodup_items).1 ha hb hitem

/-- An item of lower rank is done before. -/
theorem exists_before (h : Queued t roots w) {y : Call N D} (hy : y ∈ w.state.1) {item : Work}
    (hitem : item ∈ w.items) (hlt : w.cells.rank item < w.cells.rank y.item) :
    ∃ v, [v, y].Sublist w.state.1 ∧ v.item = item := by
  obtain ⟨before, after, hsplit⟩ := List.append_of_mem hy
  have hsorted := h.sorted
  rw [Worklist.items, hsplit, List.map_append, List.map_cons, List.append_assoc,
    List.cons_append] at hsorted hitem
  rcases List.mem_append.1 hitem with hbefore | hafter
  · obtain ⟨v, hv, rfl⟩ := List.mem_map.1 hbefore
    refine ⟨v, ?_, rfl⟩
    rw [hsplit]
    exact (List.singleton_sublist.2 hv).append (List.singleton_sublist.2 (List.mem_cons_self ..))
  · -- what comes after the callback has its rank at least
    have hle := (List.pairwise_cons.1 (List.pairwise_append.1 hsorted).2.1).1
    rcases List.mem_cons.1 hafter with rfl | hafter
    · exact absurd hlt (Nat.lt_irrefl _)
    · exact absurd (hle item hafter) (Nat.not_le.2 hlt)

theorem rank_item (h : Queued t roots w) {v : Call N D} (hv : v ∈ w.state.1)
    (hvisit : v.isLeave = false) : w.cells.rank v.item
      = match v.parent? with | none => 0 | some p => 2 * p + 1 := by
  rw [Call.item_of_visit hvisit, Cells.rank_visit (h.recalled v hv).2]
  rfl

/-- Contexts whose visits come later have parents that are visited no earlier. -/
theorem rank_le_of_le (h : Queued t roots w) {a b : Nat} (hab : a < b) (hb : b < w.cells.size) :
    w.cells.rank (.visit a) ≤ w.cells.rank (.visit b) := by
  have hsorted : (w.items.filterMap Work.visit?).Pairwise fun a b =>
      w.cells.rank (.visit a) ≤ w.cells.rank (.visit b) := by
    refine h.sorted.filterMap _ fun item item' hle a ha b hb => ?_
    rw [Work.visit?_eq_some_iff] at ha hb
    rwa [← ha, ← hb]
  rw [h.visits, List.pairwise_iff_getElem] at hsorted
  have hget := hsorted a b (by simp; omega) (by simpa using hb) hab
  simpa using hget

/-- The visits in the order of their numbers. -/
theorem visits_ascend (h : Queued t roots w) :
    (w.state.1.filter fun c => !c.isLeave).Pairwise fun a b => a.id < b.id := by
  have hsorted : (w.items.filterMap Work.visit?).Pairwise (· < ·) :=
    h.visits ▸ List.pairwise_lt_range
  rw [Worklist.items, List.filterMap_append] at hsorted
  have hcalls := (List.pairwise_append.1 hsorted).1
  rw [List.filterMap_map, List.pairwise_filterMap] at hcalls
  refine List.pairwise_filter.2 (hcalls.imp fun {a b} hab ha hb => ?_)
  have hid : ∀ c : Call N D, (!c.isLeave) = true → (Work.visit? ∘ Call.item) c = some c.id := by
    intro c hc
    show c.item.visit? = _
    rw [Call.item_of_visit (by simpa using hc)]
    rfl
  exact hab a.id (hid a ha) b.id (hid b hb)

/-! ### Addresses -/

/-- The children of a node, as they are looked up in the journal. -/
theorem kidsOf_eq (h : Queued t roots w) {y : Call N D} (hy : y ∈ w.state.1)
    (hdescends : y.descends = true) :
    Call.kidsOf t.children w.state.1 y.id = y.kids t.children := by
  unfold Call.kidsOf
  cases hfind : w.state.1.find? fun c => c.descends && c.id == y.id with
  | none => exact absurd (List.find?_eq_none.1 hfind y hy) (by simp [hdescends])
  | some z =>
    have hz := List.find?_some hfind
    rw [Bool.and_eq_true, beq_iff_eq] at hz
    rw [h.eq_of_item_eq (List.mem_of_find?_eq_some hfind) hy (by
      rw [(Call.item_of_descends hz.1).1, (Call.item_of_descends hdescends).1, hz.2])]

/-- The position of a child is its place in the order of the numbers. -/
theorem position_eq (h : Queued t roots w) {y : Call N D} (hy : y ∈ w.state.1)
    (hdescends : y.descends = true) {i : Nat} {l : Location} {k : N}
    (hkid : (y.kids t.children)[i]? = some (l, k)) :
    Call.position t.children w.state.1 y.id l = i := by
  have hnodup : ((y.kids t.children).map Prod.fst).Nodup := by
    unfold Call.kids
    split
    · exact .nil
    · exact NamedChildren.nodup_map_fst_locations _
  have hget : ((y.kids t.children).map Prod.fst)[i]? = some l := by
    rw [List.getElem?_map, hkid]
    rfl
  obtain ⟨hi, rfl⟩ := List.getElem?_eq_some_iff.1 hget
  rw [Call.position, h.kidsOf_eq hy hdescends]
  exact hnodup.idxOf_getElem i hi

end Queued

theorem addressOf_cons (position : Nat → Location → Nat) (id p : Nat) (l : Location)
    (ids : List Nat) (path : List Location) : addressOf position id (p :: ids) (l :: path)
      = addressOf position p ids path ++ [position p l] := by
  rw [addressOf, addressOf, List.zipWith_cons_cons, List.reverse_cons, List.getLastD_cons,
    List.cons_append]

theorem length_addressOf {cells : Cells N D} {id : Nat} {ids : List Nat} {path : List Location}
    (h : cells.Lineage id ids path) (position : Nat → Location → Nat) :
    (addressOf position id ids path).length = ids.length + 1 := by
  induction h with
  | root => rfl
  | child _ _ _ ih => rw [addressOf_cons, List.length_append, ih]; rfl

/-- Of words of one length, what is put at the end does not matter if they differ. -/
theorem append_lt_append {xs ys : List Nat} (hlength : xs.length = ys.length) (h : xs < ys)
    (us vs : List Nat) : xs ++ us < ys ++ vs := by
  induction xs generalizing ys with
  | nil =>
    obtain rfl := List.length_eq_zero_iff.1 hlength.symm
    exact absurd h (List.lt_irrefl _)
  | cons a xs ih =>
    cases ys with
    | nil => cases hlength
    | cons b ys =>
      rw [List.cons_append, List.cons_append]
      rcases List.cons_lt_cons_iff.1 h with hab | ⟨rfl, htail⟩
      · exact List.cons_lt_cons_iff.2 (.inl hab)
      · exact List.cons_lt_cons_iff.2 (.inr ⟨rfl, ih (Nat.succ.inj hlength) htail⟩)

namespace Queued

/-- The children of one node, in the order of their positions. -/
theorem position_lt (h : Queued t roots w) {a b p : Nat} {l m : Location} {n n' : N} {d d' : Nat}
    (ha : w.cells.place? a = some ⟨some p, some l, d, n⟩)
    (hb : w.cells.place? b = some ⟨some p, some m, d', n'⟩) (hab : a < b) :
    Call.position t.children w.state.1 p l < Call.position t.children w.state.1 p m := by
  obtain ⟨y, hy, hdescends, rfl⟩ := h.parents b _ p hb rfl
  obtain ⟨made, hfamily⟩ := h.families y hy hdescends
  obtain ⟨i, rfl, hi⟩ := (hfamily a l n).1 ⟨d, ha⟩
  obtain ⟨j, rfl, hj⟩ := (hfamily b m n').1 ⟨d', hb⟩
  rw [h.position_eq hy hdescends hi, h.position_eq hy hdescends hj]
  exact Nat.lt_of_add_lt_add_left hab

/-- Contexts are numbered level by level, and in each level by address. -/
theorem precedes (h : Queued t roots w) {b : Nat} {ids' : List Nat} {path' : List Location}
    (hb : w.cells.Lineage b ids' path') {a : Nat} {ids : List Nat} {path : List Location}
    (ha : w.cells.Lineage a ids path) (hab : a < b) : ids.length < ids'.length
      ∨ ids.length = ids'.length
        ∧ addressOf (Call.position t.children w.state.1) a ids path
          < addressOf (Call.position t.children w.state.1) b ids' path' := by
  induction hb generalizing a ids path with
  | @root b node found =>
    have hrank := h.rank_le_of_le hab (Cells.lt_size_of_place found)
    cases ha with
    | root _ => exact .inr ⟨rfl, List.cons_lt_cons_iff.2 (.inl hab)⟩
    | child found' _ _ =>
      rw [Cells.rank_visit found, Cells.rank_visit found'] at hrank
      simp at hrank
  | @child b q m node' ids' path' found older rest ih =>
    have hrank := h.rank_le_of_le hab (Cells.lt_size_of_place found)
    cases ha with
    | root _ => exact .inl (Nat.succ_pos _)
    | @child _ p l node ids path found' older' rest' =>
      rw [Cells.rank_visit found, Cells.rank_visit found'] at hrank
      simp only at hrank
      rw [addressOf_cons, addressOf_cons, List.length_cons, List.length_cons]
      rcases Nat.lt_or_ge p q with hpq | hqp
      · -- cousins: the order of the parents decides
        rcases ih rest' hpq with hlevel | ⟨hlevel, haddress⟩
        · exact .inl (Nat.succ_lt_succ hlevel)
        · refine .inr ⟨congrArg (· + 1) hlevel, append_lt_append ?_ haddress _ _⟩
          rw [length_addressOf rest', length_addressOf rest, hlevel]
      · -- siblings: their positions do
        obtain rfl : p = q := by omega
        obtain ⟨rfl, rfl⟩ := rest.unique rest'
        exact .inr ⟨rfl, List.append_left_lt
          (List.cons_lt_cons_iff.2 (.inl (h.position_lt found' found hab)))⟩

/-- Every context that was made is visited in its turn. -/
theorem visited (h : Queued t roots w) {v : Call N D} (hv : v ∈ w.state.1) :
    (v.context.idsAbove = [] ∧ v.context.sight.path = [] ∧ roots[v.id]? = some v.frame.reached)
    ∨ ∃ y ∈ w.state.1, y.descends = true ∧ ∃ l, (l, v.frame.reached) ∈ y.kids t.children
      ∧ v.context.idsAbove = y.id :: y.context.idsAbove
      ∧ v.context.sight.path = l :: y.context.sight.path := by
  obtain ⟨hlineage, hplace⟩ := h.recalled v hv
  generalize v.context.idsAbove = ids, v.context.sight.path = path at hlineage ⊢
  cases hlineage with
  | root found =>
    have heq := Option.some.inj (hplace.symm.trans found)
    exact .inl ⟨rfl, rfl, h.roots v.id _ hplace (congrArg Place.parent heq)⟩
  | @child _ p l node ids path found older rest =>
    obtain ⟨y, hy, hdescends, rfl⟩ := h.parents v.id _ p found rfl
    obtain ⟨made, hfamily⟩ := h.families y hy hdescends
    obtain ⟨i, -, hkid⟩ := (hfamily v.id l node).1 ⟨_, found⟩
    obtain ⟨hids, hpath⟩ := rest.unique (h.recalled y hy).1
    have hreached : v.frame.reached = node :=
      congrArg Place.reached (Option.some.inj (hplace.symm.trans found))
    exact .inr ⟨y, hy, hdescends, l, hreached ▸ List.mem_of_getElem? hkid, by rw [hids],
      by rw [hpath]⟩

/-- The order of the callbacks. -/
theorem levelOrder (h : Queued t roots w) :
    LevelOrder t.children roots w.state.1 (w.pending.filterMap Work.leave?) where
  visited := fun v hv _ => h.visited hv
  once := (List.nodup_append.1 h.nodup_items).1
  visits := by
    refine h.visits_ascend.imp_of_mem fun {a b} ha hb hab => ?_
    have hrecalled := h.recalled a (List.mem_filter.1 ha).1
    have hrecalled' := h.recalled b (List.mem_filter.1 hb).1
    rw [hrecalled.depth_eq, hrecalled'.depth_eq]
    exact h.precedes hrecalled'.1 hrecalled.1 hab
  leaves := by
    rw [← h.leaves, Worklist.items, List.filterMap_append, Call.filterMap_leave?_items]
  childrenFirst := by
    intro x hx hdescends y hy hleave hid
    have hrank : w.cells.rank y.item = 2 * x.id + 2 := by
      rw [Call.item_of_isLeave hleave, hid, Cells.rank]
    constructor
    · intro i l k hkid
      obtain ⟨made, hfamily⟩ := h.families x hx hdescends
      obtain ⟨depth, hplace⟩ := (hfamily (made + i) l k).2 ⟨i, rfl, hkid⟩
      have hitem := h.visit_mem_iff.2 (Cells.lt_size_of_place hplace)
      obtain ⟨v, hbefore, hv⟩ := h.exists_before hy hitem (by
        rw [hrank, Cells.rank_visit hplace]
        exact Nat.lt_succ_self _)
      obtain ⟨hvisit, hvid⟩ := Call.item_eq_visit_iff.1 hv
      have heq := (h.recalled v (hbefore.subset (List.mem_cons_self ..))).2
      rw [hvid, hplace] at heq
      have heq := Option.some.inj heq.symm
      exact ⟨v, hbefore, hvisit, congrArg Place.parent heq, congrArg Place.location heq,
        congrArg Place.reached heq⟩
    · intro v hv hvisit hparent
      obtain ⟨v', hbefore, hitem⟩ := h.exists_before hy (mem_items_of_call hv) (by
        rw [hrank, h.rank_item hv hvisit, hparent]
        exact Nat.lt_succ_self _)
      rwa [h.eq_of_item_eq (hbefore.subset (List.mem_cons_self ..)) hv hitem] at hbefore
  nephewsLater := by
    intro x y v hxy hdescends hvisit hv hvvisit hparent
    have hx : x ∈ w.state.1 := hxy.subset (List.mem_cons_self ..)
    have hlt : x.id < y.id := by
      have hsub := hxy.filter fun c => !c.isLeave
      rw [List.filter_cons_of_pos (by simp [(Call.item_of_descends hdescends).2]),
        List.filter_cons_of_pos (by simp [hvisit])] at hsub
      exact (List.pairwise_cons.1 (h.visits_ascend.sublist hsub)).1 y (List.mem_cons_self ..)
    obtain ⟨z, hbefore, hitem⟩ := h.exists_before hv
      (h.leave_mem_iff.2 ⟨x, hx, hdescends, rfl⟩) (by
        rw [h.rank_item hv hvvisit, hparent, Cells.rank]
        simp only
        omega)
    obtain ⟨hleave, hid⟩ := Call.item_eq_leave_iff.1 hitem
    exact ⟨z, hbefore, hleave, hid⟩

end Queued

/-! ## Whole walks -/

section

variable [Identified N]

/-- Who asks to quit is the last one to be called. -/
theorem Traversal.journaled_quits {w x : Worklist N D (List (Call N D) × S)}
    (h : t.journaled.Reaches w x) (hcalls : w.state.1 = []) (hquit : w.quit = false) :
    (x.quit = true → ∃ c ∈ x.state.1, c.control = .quit)
      ∧ ∀ c ∈ x.state.1, c.control = .quit → x.quit = true ∧ x.state.1.getLast? = some c := by
  induction h with
  | refl => exact ⟨by simp [hquit], by simp [hcalls]⟩
  | @tail y x _ hnext ih =>
    obtain ⟨item, pending, -, hgoing, hcases⟩ := next_cases hnext
    rcases hcases with ⟨-, rfl⟩ | ⟨c, a, -, ha, hturn⟩
    · exact ih
    · -- there is a turn, so no callback before it has asked to quit
      have hearlier : ∀ z ∈ y.state.1, z.control ≠ .quit := fun z hz hcontrol =>
        Bool.false_ne_true (hgoing.symm.trans (ih.2 z hz hcontrol).1)
      rw [hturn.state_eq, answer_of_journaled ha, hturn.quit_eq, List.forall_mem_append,
        List.forall_mem_singleton]
      refine ⟨fun h => ⟨_, List.mem_append_right _ (List.mem_singleton_self _), beq_iff_eq.1 h⟩,
        fun z hz hcontrol => absurd hcontrol (hearlier z hz), fun hcontrol => ?_⟩
      exact ⟨beq_iff_eq.2 hcontrol, List.getLast?_concat⟩

/-- The order of the callbacks in a breadth-first walk, for any children, roots and visitor.
Nodes are visited level by level, and in each level by address; a node is left if it was
entered, is to be descended into, and its end mark came up, and nodes are left in the order
in which they were entered; all its children are visited before it is left, and it is left
before the child of any node that is visited after it.  If the walk comes to an end without
a callback that asks to quit, no end mark is left over; a callback that asks to quit is the
last one.  All this is so on the way, too, and writing the calls down has no influence on the
walk. -/
theorem breadthFirst_walks_go_level_by_level (t : Traversal N D S) (ht : t.order = .breadthFirst)
    (roots : List N) (state : S) :
    (∀ limit, t.walk limit roots state
      = Worklist.mapState Prod.snd <$> t.journaled.walk limit roots ([], state))
    ∧ (∀ w, t.journaled.Reaches (t.journaled.start roots ([], state)) w →
      LevelOrder t.children roots w.state.1 (w.pending.filterMap Work.leave?))
    ∧ ∀ limit w, t.journaled.walk limit roots ([], state) = .done w →
      LevelOrder t.children roots w.state.1 (w.pending.filterMap Work.leave?)
      ∧ ((∀ c ∈ w.state.1, c.control ≠ .quit) → w.pending = [])
      ∧ ∀ c ∈ w.state.1, c.control = .quit → w.state.1.getLast? = some c := by
  have horder : ∀ w, t.journaled.Reaches (t.journaled.start roots ([], state)) w →
      LevelOrder t.children roots w.state.1 (w.pending.filterMap Work.leave?) := fun w hw =>
    ((Queued.start t roots state).of_reaches ht hw).levelOrder
  refine ⟨fun limit => t.journaled_extends.walk limit roots ([], state), horder,
    fun limit w hw => ?_⟩
  have hreaches := Traversal.Reaches.of_run hw
  obtain ⟨hquit, hlast⟩ := Traversal.journaled_quits hreaches rfl rfl
  refine ⟨horder w hreaches, fun hgoing => ?_, fun c hc hcontrol => (hlast c hc hcontrol).2⟩
  rcases Traversal.quit_or_pending_of_run hw with hstopped | hpending
  · obtain ⟨c, hc, hcontrol⟩ := hquit hstopped
    exact absurd hcontrol (hgoing c hc)
  · exact hpending

end

/-- The journal of a breadth-first walk from two roots: one node is not descended into, one
is replaced, and below others there are nodes that repeat one above them. -/
theorem signposted_walk_goes_level_by_level :
    (signposted.walking .breadthFirst).order = .breadthFirst
    ∧ ∃ w, (signposted.walking .breadthFirst).journaled.walk 20 [⟨0⟩, ⟨1⟩] ([], 0) = .done w
      ∧ w.state.1.map (fun c => (c.frame.phase, c.address knotted w.state.1))
        = [(.enter, [0]), (.enter, [1]), (.backRef, [0, 0]), (.enter, [0, 1]), (.enter, [0, 2]),
          (.leave, [0]), (.enter, [1, 0]), (.leave, [1]), (.backRef, [0, 2, 0]), (.leave, [0, 2]),
          (.backRef, [1, 0, 0]), (.backRef, [1, 0, 1]), (.backRef, [1, 0, 2]), (.leave, [1, 0])]
      ∧ LevelOrder knotted [⟨0⟩, ⟨1⟩] w.state.1 [] := by
  have hwalk : (fun w => (w.state.1.map fun c => (c.frame.phase, c.address knotted w.state.1),
        w.pending))
      <$> (signposted.walking .breadthFirst).journaled.walk 20 [⟨0⟩, ⟨1⟩] ([], 0)
      = .done ([(.enter, [0]), (.enter, [1]), (.backRef, [0, 0]), (.enter, [0, 1]),
          (.enter, [0, 2]), (.leave, [0]), (.enter, [1, 0]), (.leave, [1]), (.backRef, [0, 2, 0]),
          (.leave, [0, 2]), (.backRef, [1, 0, 0]), (.backRef, [1, 0, 1]), (.backRef, [1, 0, 2]),
          (.leave, [1, 0])], []) := by cbv
  obtain ⟨w, hw, hcalls⟩ := (Run.map_eq_done_iff _ _ _).1 hwalk
  obtain ⟨hcalls, hpending⟩ := Prod.mk.inj hcalls
  have horder := ((breadthFirst_walks_go_level_by_level (signposted.walking .breadthFirst) rfl
    [⟨0⟩, ⟨1⟩] 0).2.2 20 w hw).1
  rw [hpending] at horder
  exact ⟨rfl, w, hw, hcalls, horder⟩

end Topiary
