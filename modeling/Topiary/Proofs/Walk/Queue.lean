/-
Topiary.Proofs.Walk.Queue — the work list of a breadth-first walk with what it has done.

New items go to the end of the list and items are taken off at its front, so the items
that are done and those that wait make up one list that only grows at its end: first the
visits of the roots, then for each node that is descended into, in the order of the
visits, those of its children and its end mark.

* `Worklist.items` — this list.
* `Cells.rank` — it is sorted by the node that brought an item.
* `Queued` — the invariant.
* `Advanced`, `Queued.advance`, `Queued.next` — one turn of the loop.
* `Queued.start`, `Queued.of_reaches` — the beginning, and all work lists on the way.
-/
import Topiary.Proofs.Walk.LevelOrder

namespace Topiary

variable {N D S : Type}

/-! ## Items -/

namespace Work

/-- The context that is to be visited. -/
def visit? : Work → Option Nat
  | .visit id => some id
  | .leave _ => none

/-- The context that is to be left. -/
def leave? : Work → Option Nat
  | .visit _ => none
  | .leave id => some id

theorem visit?_eq_some_iff {item : Work} {id : Nat} : item.visit? = some id ↔ item = .visit id := by
  cases item <;> simp [visit?]

theorem leave?_eq_some_iff {item : Work} {id : Nat} : item.leave? = some id ↔ item = .leave id := by
  cases item <;> simp [leave?]

theorem mem_filterMap_visit? {items : List Work} {id : Nat} :
    id ∈ items.filterMap visit? ↔ .visit id ∈ items := by
  simp [List.mem_filterMap, visit?_eq_some_iff]

theorem mem_filterMap_leave? {items : List Work} {id : Nat} :
    id ∈ items.filterMap leave? ↔ .leave id ∈ items := by
  simp [List.mem_filterMap, leave?_eq_some_iff]

theorem filterMap_visit?_inside (id made count : Nat) :
    (inside id made count).filterMap visit? = List.range' made count := by
  rw [inside, List.filterMap_append, List.filterMap_map]
  simp [visit?, Function.comp_def]

theorem filterMap_leave?_inside (id made count : Nat) :
    (inside id made count).filterMap leave? = [id] := by
  rw [inside, List.filterMap_append, List.filterMap_map]
  simp [leave?, Function.comp_def]

/-- Items are distinct if no context is visited twice and none is left twice. -/
theorem nodup_of_filterMap {items : List Work} (hvisits : (items.filterMap visit?).Nodup)
    (hleaves : (items.filterMap leave?).Nodup) : items.Nodup := by
  refine ((List.pairwise_filterMap.1 hvisits).and (List.pairwise_filterMap.1 hleaves)).imp ?_
  rintro a b ⟨hv, hl⟩ rfl
  cases a with
  | visit id => exact hv id rfl id rfl rfl
  | leave id => exact hl id rfl id rfl rfl

end Work

namespace Cells

/-- The items in the order in which they come up: the roots first, then for each node the
visits of its children and its end mark. -/
def rank (cells : Cells N D) : Work → Nat
  | .visit id =>
    match (cells.place? id).bind Place.parent with
    | none => 0
    | some p => 2 * p + 1
  | .leave id => 2 * id + 2

/-- The cells still tell what a callback has seen. -/
def Recalls (cells : Cells N D) (c : Call N D) : Prop :=
  cells.Lineage c.id c.context.idsAbove c.context.sight.path
    ∧ cells.place? c.id = some (c.frame.place c.parent?)

/-- These are the children of the context, numbered from `made` on. -/
def IsFamily (cells : Cells N D) (id : Nat) (kids : List (Location × N)) (made : Nat) : Prop :=
  ∀ j l k, (∃ depth, cells.place? j = some ⟨some id, some l, depth, k⟩)
    ↔ ∃ i : Nat, j = made + i ∧ kids[i]? = some (l, k)

variable {cells cells' : Cells N D}

theorem rank_congr {item : Work} (h : cells'.place? item.id = cells.place? item.id) :
    cells'.rank item = cells.rank item := by
  cases item with
  | visit id => rw [rank, rank, show cells'.place? id = cells.place? id from h]
  | leave id => rfl

theorem rank_visit {id : Nat} {place : Place N} (h : cells.place? id = some place) :
    cells.rank (.visit id) = match place.parent with | none => 0 | some p => 2 * p + 1 := by
  rw [rank, h]
  rfl

theorem Recalls.depth_eq {c : Call N D} (h : cells.Recalls c) :
    c.frame.depth = c.context.idsAbove.length := by
  obtain ⟨node, hplace⟩ := h.1.exists_place
  exact congrArg Place.depth (Option.some.inj (h.2.symm.trans hplace))

theorem Recalls.congr {c : Call N D} (h : cells.Recalls c)
    (hplaces : ∀ j < cells.size, cells'.place? j = cells.place? j) : cells'.Recalls c :=
  ⟨h.1.congr hplaces, (hplaces _ h.1.lt_size).trans h.2⟩

end Cells

/-! ### What a call brings -/

namespace Call

variable {c : Call N D}

theorem item_of_descends (h : c.descends = true) : c.item = .visit c.id ∧ c.isLeave = false := by
  rw [descends, Bool.and_eq_true, beq_iff_eq] at h
  obtain ⟨hitem, hleave, -⟩ := of_enter h.1
  exact ⟨hitem, hleave⟩

theorem item_of_visit (h : c.isLeave = false) : c.item = .visit c.id := by
  rw [item, h]
  rfl

theorem item_of_isLeave (h : c.isLeave = true) : c.item = .leave c.id := by
  rw [item, h]
  rfl

theorem item_eq_visit_iff {id : Nat} : c.item = .visit id ↔ c.isLeave = false ∧ c.id = id := by
  cases hleave : c.isLeave with
  | false => simp [item_of_visit hleave]
  | true => simp [item_of_isLeave hleave]

theorem item_eq_leave_iff {id : Nat} : c.item = .leave id ↔ c.isLeave = true ∧ c.id = id := by
  cases hleave : c.isLeave with
  | false => simp [item_of_visit hleave]
  | true => simp [item_of_isLeave hleave]

theorem filterMap_leave?_items (calls : List (Call N D)) :
    (calls.map item).filterMap Work.leave? = (calls.filter isLeave).map id := by
  induction calls with
  | nil => rfl
  | cons c calls ih =>
    rw [List.map_cons, List.filter_cons]
    cases hleave : c.isLeave with
    | false => rw [item_of_visit hleave]; exact ih
    | true => rw [item_of_isLeave hleave]; exact congrArg (c.id :: ·) ih

theorem getElem?_newFrames (t : Traversal N D S) (h : c.descends = true) (i : Nat) :
    (c.newFrames t)[i]? = ((c.kids t.children)[i]?).map fun located =>
      c.after.child located.1 located.2 t.fresh := by
  rw [newFrames, if_pos h, kidFrames_after, List.getElem?_map]

theorem newFrames_of_stays (t : Traversal N D S) (h : c.descends = false) : c.newFrames t = [] := by
  rw [newFrames, h]
  rfl

theorem filterMap_visit?_newWork (t : Traversal N D S) (made : Nat) (c : Call N D) :
    (c.newWork t made).filterMap Work.visit? = List.range' made (c.newFrames t).length := by
  rw [newWork]
  split
  · exact Work.filterMap_visit?_inside _ _ _
  · rename_i h
    rw [newFrames_of_stays t (Bool.eq_false_iff.2 h)]
    rfl

theorem filterMap_leave?_newWork (t : Traversal N D S) (made : Nat) (c : Call N D) :
    (c.newWork t made).filterMap Work.leave? = ([c].filter descends).map id := by
  rw [newWork, List.filter_cons]
  split
  · exact Work.filterMap_leave?_inside _ _ _
  · rfl

theorem mem_newWork_iff {t : Traversal N D S} {made : Nat} {item : Work} :
    item ∈ c.newWork t made ↔ c.descends = true
      ∧ ((∃ i < (c.newFrames t).length, item = .visit (made + i)) ∨ item = .leave c.id) := by
  rw [newWork]
  split
  · rename_i h
    simp only [h, true_and, Work.mem_inside_iff]
  · rename_i h
    simp [h]

end Call

/-! ## The invariant -/

/-- All items of a walk: those that are done, and then those that wait. -/
def Worklist.items (w : Worklist N D (List (Call N D) × S)) : List Work :=
  w.state.1.map Call.item ++ w.pending

/-- What has been done and what waits, as it came on the list. -/
structure Queued (t : Traversal N D S) (roots : List N)
    (w : Worklist N D (List (Call N D) × S)) : Prop where
  lineage : ∀ j < w.cells.size, ∃ ids path, w.cells.Lineage j ids path
  /-- Contexts are visited in the order of their numbers. -/
  visits : w.items.filterMap Work.visit? = List.range w.cells.size
  /-- A node that is descended into has an end mark, in the order of the visits. -/
  leaves : w.items.filterMap Work.leave? = (w.state.1.filter Call.descends).map Call.id
  sorted : w.items.Pairwise fun a b => w.cells.rank a ≤ w.cells.rank b
  recalled : ∀ c ∈ w.state.1, w.cells.Recalls c
  fresh : ∀ id cell, .visit id ∈ w.pending → w.cells[id]? = some cell → cell.frame.phase = .enter
  families : ∀ x ∈ w.state.1, x.descends = true →
    ∃ made, w.cells.IsFamily x.id (x.kids t.children) made
  parents : ∀ j place p, w.cells.place? j = some place → place.parent = some p →
    ∃ x ∈ w.state.1, x.descends = true ∧ x.id = p
  roots : ∀ j place, w.cells.place? j = some place → place.parent = none →
    roots[j]? = some place.reached

variable {t : Traversal N D S} {roots : List N} {w x : Worklist N D (List (Call N D) × S)}
  {call : Call N D}

namespace Queued

theorem visit_mem_iff (h : Queued t roots w) {j : Nat} :
    .visit j ∈ w.items ↔ j < w.cells.size := by
  rw [← Work.mem_filterMap_visit?, h.visits, List.mem_range]

theorem leave_mem_iff (h : Queued t roots w) {e : Nat} :
    .leave e ∈ w.items ↔ ∃ y ∈ w.state.1, y.descends = true ∧ y.id = e := by
  rw [← Work.mem_filterMap_leave?, h.leaves, List.mem_map]
  simp only [List.mem_filter, and_assoc]

theorem nodup_items (h : Queued t roots w) : w.items.Nodup := by
  have hids : (w.items.filterMap Work.visit?).Nodup := h.visits ▸ List.nodup_range
  refine Work.nodup_of_filterMap hids ?_
  -- the nodes that are descended into are some of those that are visited
  rw [h.leaves]
  have hsub : ((w.state.1.filter Call.descends).map Call.id).Sublist
      (w.items.filterMap Work.visit?) := by
    have hmap : (w.state.1.filter Call.descends).map Call.id
        = ((w.state.1.filter Call.descends).map Call.item).filterMap Work.visit? := by
      rw [List.filterMap_map, ← List.filterMap_eq_map]
      refine List.filterMap_congr fun c hc => ?_
      show some c.id = c.item.visit?
      rw [(Call.item_of_descends (List.mem_filter.1 hc).2).1]
      rfl
    rw [hmap, Worklist.items, List.filterMap_append]
    exact ((List.filter_sublist.map _).filterMap _).trans (List.sublist_append_left ..)
  exact hids.sublist hsub

theorem mem_items_of_call (hcall : call ∈ w.state.1) : call.item ∈ w.items :=
  List.mem_append_left _ (List.mem_map_of_mem hcall)

theorem lt_size (h : Queued t roots w) {item : Work} (hitem : item ∈ w.items) :
    item.id < w.cells.size := by
  cases item with
  | visit id => exact h.visit_mem_iff.1 hitem
  | leave id =>
    obtain ⟨y, hy, hdescends, rfl⟩ := h.leave_mem_iff.1 hitem
    exact h.visit_mem_iff.1 ((Call.item_of_descends hdescends).1 ▸ mem_items_of_call hy)

/-- What was visited before comes before what is visited next. -/
theorem id_lt (h : Queued t roots w) {id : Nat} {pending : List Work}
    (hpending : w.pending = .visit id :: pending) {y : Call N D} (hy : y ∈ w.state.1)
    (hvisit : y.isLeave = false) : y.id < id := by
  have hvisits := h.visits
  rw [Worklist.items, hpending, List.filterMap_append,
    List.filterMap_cons_some (show Work.visit? (.visit id) = some id from rfl)] at hvisits
  have hsorted : (List.range w.cells.size).Pairwise (· < ·) := List.pairwise_lt_range
  rw [← hvisits] at hsorted
  refine (List.pairwise_append.1 hsorted).2.2 y.id ?_ id (List.mem_cons_self ..)
  rw [Work.mem_filterMap_visit?, ← Call.item_of_visit hvisit]
  exact List.mem_map_of_mem hy

/-- What waits to be visited is another context than that of the item before. -/
theorem ne_of_waits (h : Queued t roots w) {pending : List Work}
    (hpending : w.pending = call.item :: pending) {id : Nat} (hid : .visit id ∈ pending) :
    id ≠ call.id := by
  rintro rfl
  have hnodup := h.nodup_items
  rw [Worklist.items, hpending] at hnodup
  cases hleave : call.isLeave with
  | false =>
    rw [Call.item_of_visit hleave] at hnodup
    exact (List.nodup_cons.1 (List.nodup_append.1 hnodup).2.1).1 hid
  | true =>
    -- the node was visited before it is left
    have hmem : .leave call.id ∈ w.items := by
      rw [Worklist.items, hpending, Call.item_of_isLeave hleave]
      simp
    obtain ⟨y, hy, hdescends, heq⟩ := h.leave_mem_iff.1 hmem
    refine (List.nodup_append.1 hnodup).2.2 y.item (List.mem_map_of_mem hy) (.visit call.id)
      (List.mem_cons_of_mem _ hid) ?_
    rw [(Call.item_of_descends hdescends).1, heq]

end Queued

/-! ### One turn -/

/-- The work list `x` is `w` after this call. -/
structure Advanced (t : Traversal N D S) (w x : Worklist N D (List (Call N D) × S))
    (call : Call N D) : Prop where
  state : x.state.1 = w.state.1 ++ [call]
  items : x.items = w.items ++ call.newWork t w.cells.size
  size : x.cells.size = w.cells.size + (call.newFrames t).length
  old : ∀ j < w.cells.size, x.cells.place? j = w.cells.place? j
  new : ∀ i, x.cells.place? (w.cells.size + i)
    = ((call.newFrames t)[i]?).map (Frame.place (some call.id))
  recalled : w.cells.Recalls call
  depth : call.after.depth = call.frame.depth
  /-- What was descended into before was visited before. -/
  earlier : call.descends = true → ∀ y ∈ w.state.1, y.descends = true → y.id < call.id

namespace Advanced

/-- What a context that was just made is given. -/
theorem place_new (h : Advanced t w x call) {i : Nat} {place : Place N}
    (hplace : x.cells.place? (w.cells.size + i) = some place) : call.descends = true
      ∧ ∃ l k, (call.kids t.children)[i]? = some (l, k)
        ∧ place = ⟨some call.id, some l, call.frame.depth + 1, k⟩ := by
  rw [h.new] at hplace
  cases hdescends : call.descends with
  | false =>
    rw [Call.newFrames_of_stays t hdescends] at hplace
    cases hplace
  | true =>
    rw [Call.getElem?_newFrames t hdescends, Option.map_map] at hplace
    obtain ⟨⟨l, k⟩, hkid, rfl⟩ := Option.map_eq_some_iff.1 hplace
    exact ⟨rfl, l, k, hkid, congrArg (Place.mk (some call.id) (some l) · k)
      (congrArg (· + 1) h.depth)⟩

/-- Either the context was there before, or it was made for a child. -/
theorem place_cases (h : Advanced t w x call) {j : Nat} {place : Place N}
    (hplace : x.cells.place? j = some place) : w.cells.place? j = some place
      ∨ call.descends = true ∧ ∃ i l k, j = w.cells.size + i
        ∧ (call.kids t.children)[i]? = some (l, k)
        ∧ place = ⟨some call.id, some l, call.frame.depth + 1, k⟩ := by
  rcases Nat.lt_or_ge j w.cells.size with hlt | hge
  · exact .inl (h.old j hlt ▸ hplace)
  · obtain ⟨i, rfl⟩ := Nat.exists_eq_add_of_le hge
    obtain ⟨hdescends, l, k, hkid, heq⟩ := h.place_new hplace
    exact .inr ⟨hdescends, i, l, k, rfl, hkid, heq⟩

theorem rank_old (h : Advanced t w x call) {item : Work} (hitem : item.id < w.cells.size) :
    x.cells.rank item = w.cells.rank item :=
  Cells.rank_congr (h.old _ hitem)

theorem rank_kid (h : Advanced t w x call) {i : Nat} (hi : i < (call.newFrames t).length) :
    x.cells.rank (.visit (w.cells.size + i)) = 2 * call.id + 1 := by
  have hplace := h.new i
  rw [List.getElem?_eq_getElem hi, Option.map_some] at hplace
  obtain ⟨-, l, k, -, heq⟩ := h.place_new hplace
  rw [Cells.rank_visit hplace, heq]

/-- The visits of the children come before the end mark. -/
theorem sorted_newWork (h : Advanced t w x call) :
    (call.newWork t w.cells.size).Pairwise fun a b => x.cells.rank a ≤ x.cells.rank b := by
  have hvisit : ∀ a ∈ (List.range' w.cells.size (call.newFrames t).length).map Work.visit,
      x.cells.rank a = 2 * call.id + 1 := by
    intro a ha
    obtain ⟨k, hk, rfl⟩ := List.mem_map.1 ha
    obtain ⟨i, hi, rfl⟩ := List.mem_range'.1 hk
    rw [Nat.one_mul, h.rank_kid hi]
  rw [Call.newWork]
  split
  · refine List.pairwise_append.2 ⟨List.pairwise_of_forall_mem_list fun a ha b hb => ?_,
      List.pairwise_singleton _ _, fun a ha b hb => ?_⟩
    · exact Nat.le_of_eq ((hvisit a ha).trans (hvisit b hb).symm)
    · obtain rfl := List.mem_singleton.1 hb
      rw [hvisit a ha]
      exact Nat.le_succ _
  · exact .nil

/-- An item that was there before was brought by a node that was visited before. -/
theorem rank_le (h : Advanced t w x call) (hw : Queued t roots w)
    (hdescends : call.descends = true) {a : Work} (ha : a ∈ w.items) :
    x.cells.rank a ≤ 2 * call.id + 1 := by
  rw [h.rank_old (hw.lt_size ha)]
  cases a with
  | visit j =>
    obtain ⟨ids, path, hlineage⟩ := hw.lineage j (hw.visit_mem_iff.1 ha)
    obtain ⟨node, hplace⟩ := hlineage.exists_place
    rw [Cells.rank_visit hplace]
    cases hp : ids.head? with
    | none => exact Nat.zero_le _
    | some p =>
      obtain ⟨y, hy, hdescends', rfl⟩ := hw.parents j _ p hplace hp
      have := h.earlier hdescends y hy hdescends'
      simp only
      omega
  | leave e =>
    obtain ⟨y, hy, hdescends', rfl⟩ := hw.leave_mem_iff.1 ha
    have := h.earlier hdescends y hy hdescends'
    simp only [Cells.rank]
    omega

/-- The items that are new come after all others. -/
theorem sorted (h : Advanced t w x call) (hw : Queued t roots w) :
    x.items.Pairwise fun a b => x.cells.rank a ≤ x.cells.rank b := by
  rw [h.items]
  refine List.pairwise_append.2 ⟨hw.sorted.imp_of_mem fun ha hb hab => ?_, h.sorted_newWork,
    fun a ha b hb => ?_⟩
  · rwa [h.rank_old (hw.lt_size ha), h.rank_old (hw.lt_size hb)]
  · obtain ⟨hdescends, ⟨i, hi, rfl⟩ | rfl⟩ := Call.mem_newWork_iff.1 hb
    · exact h.rank_kid hi ▸ h.rank_le hw hdescends ha
    · exact Nat.le_succ_of_le (h.rank_le hw hdescends ha)

/-- Old families stay, and the children of the node are a new one. -/
theorem families (h : Advanced t w x call) (hw : Queued t roots w) :
    ∀ y ∈ x.state.1, y.descends = true →
      ∃ made, x.cells.IsFamily y.id (y.kids t.children) made := by
  rw [h.state, List.forall_mem_append, List.forall_mem_singleton]
  constructor
  · intro y hy hdescends
    obtain ⟨made, hfamily⟩ := hw.families y hy hdescends
    refine ⟨made, fun j l k => ?_⟩
    rw [← hfamily j l k]
    constructor
    · rintro ⟨depth, hplace⟩
      rcases h.place_cases hplace with hold | ⟨hnew, _, _, _, -, -, heq⟩
      · exact ⟨depth, hold⟩
      · have hlt := h.earlier hnew y hy hdescends
        have := Option.some.inj (congrArg Place.parent heq)
        omega
    · rintro ⟨depth, hplace⟩
      exact ⟨depth, (h.old j (Cells.lt_size_of_place hplace)).trans hplace⟩
  · intro hdescends
    refine ⟨w.cells.size, fun j l k => ?_⟩
    constructor
    · rintro ⟨depth, hplace⟩
      rcases h.place_cases hplace with hold | ⟨-, i, l', k', rfl, hkid, heq⟩
      · obtain ⟨y, hy, hdescends', heq⟩ := hw.parents j _ call.id hold rfl
        have := h.earlier hdescends y hy hdescends'
        omega
      · obtain rfl := Option.some.inj (congrArg Place.location heq)
        obtain rfl := congrArg Place.reached heq
        exact ⟨i, rfl, hkid⟩
    · rintro ⟨i, rfl, hkid⟩
      refine ⟨call.after.depth + 1, ?_⟩
      rw [h.new, Call.getElem?_newFrames t hdescends, hkid]
      rfl

/-- The contexts that are new hang below the node. -/
theorem lineage (h : Advanced t w x call) (hw : Queued t roots w) :
    ∀ j < x.cells.size, ∃ ids path, x.cells.Lineage j ids path := by
  intro j hj
  rcases Nat.lt_or_ge j w.cells.size with hlt | hge
  · obtain ⟨ids, path, hlineage⟩ := hw.lineage j hlt
    exact ⟨ids, path, hlineage.congr h.old⟩
  · obtain ⟨i, rfl⟩ := Nat.exists_eq_add_of_le hge
    have hplace := h.new i
    rw [List.getElem?_eq_getElem (Nat.lt_of_add_lt_add_left (h.size ▸ hj)),
      Option.map_some] at hplace
    obtain ⟨-, l, k, -, heq⟩ := h.place_new hplace
    rw [heq, h.recalled.depth_eq] at hplace
    exact ⟨_, _, .child hplace (Nat.lt_add_right i h.recalled.1.lt_size) (h.recalled.1.congr h.old)⟩

end Advanced

/-- The loop keeps the order. -/
theorem Queued.advance (hw : Queued t roots w) (h : Advanced t w x call)
    (hfresh : ∀ id cell, .visit id ∈ x.pending → x.cells[id]? = some cell →
      cell.frame.phase = .enter) : Queued t roots x where
  lineage := h.lineage hw
  visits := by
    rw [h.items, List.filterMap_append, hw.visits, Call.filterMap_visit?_newWork, h.size,
      List.range_eq_range', List.range_eq_range', ← List.range'_append_1, Nat.zero_add]
  leaves := by
    rw [h.items, List.filterMap_append, hw.leaves, Call.filterMap_leave?_newWork, h.state,
      List.filter_append, List.map_append]
  sorted := h.sorted hw
  recalled := by
    rw [h.state, List.forall_mem_append, List.forall_mem_singleton]
    exact ⟨fun c hc => (hw.recalled c hc).congr h.old, h.recalled.congr h.old⟩
  fresh := hfresh
  families := h.families hw
  parents := by
    intro j place p hplace hp
    rw [h.state]
    rcases h.place_cases hplace with hold | ⟨hdescends, i, l, k, -, -, rfl⟩
    · obtain ⟨y, hy, hdescends, rfl⟩ := hw.parents j place p hold hp
      exact ⟨y, List.mem_append_left _ hy, hdescends, rfl⟩
    · exact ⟨call, List.mem_append_right _ (List.mem_singleton_self _), hdescends,
        Option.some.inj hp⟩
  roots := by
    intro j place hplace hp
    rcases h.place_cases hplace with hold | ⟨-, i, l, k, -, -, rfl⟩
    · exact hw.roots j place hold hp
    · cases hp

section

variable [Identified N]

/-- One turn of the loop. -/
theorem Queued.next (hw : Queued t roots w) (ht : t.order = .breadthFirst)
    (hnext : t.journaled.next? w = some x) : Queued t roots x := by
  obtain ⟨call, cell, pending, hpending, hcell, hcontext, hframe, hafter, hstate, hcells, hrest⟩ :=
    Traversal.journaled_cases ht hnext
      (fun item hitem => hw.lt_size (List.mem_append_right _ hitem)) hw.fresh
  have hlt : call.id < w.cells.size := (Array.getElem?_eq_some_iff.1 hcell).1
  have hrecalled : w.cells.Recalls call := by
    obtain ⟨ids, path, hlineage⟩ := hw.lineage call.id hlt
    obtain ⟨hparent, hlocation, -⟩ := hlineage.place_eq hcell
    obtain ⟨hids, hpath⟩ := hlineage.context t.rootData
      ((congrArg Place.location (hframe none)).trans hlocation)
    rw [← hcontext] at hids hpath
    rw [Cells.Recalls, Call.parent?, hids, hpath, Cells.place?_eq_of_cell hcell, ← hframe, hparent]
    exact ⟨hlineage, rfl⟩
  have hadvanced : Advanced t w x call := by
    refine ⟨hstate, ?_, ?_, fun j hj => ?_, fun i => ?_, hrecalled, ?_,
      fun hdescends y hy hy' => ?_⟩
    · rw [Worklist.items, Worklist.items, hstate, hrest, hpending]
      simp
    · rw [hcells, Cells.size_addAll, Cells.size_setFrame]
    · rw [hcells, Cells.place?_addAll_of_lt _ _ _ (by simpa using hj),
        Cells.place?_setFrame hcell hafter]
    · have hnew := Cells.place?_addAll_add (w.cells.setFrame call.id call.after) (some call.id)
        (call.newFrames t) i
      rwa [Cells.size_setFrame, ← hcells] at hnew
    · exact congrArg Place.depth ((hafter none).trans (hframe none).symm)
    · rw [(Call.item_of_descends hdescends).1] at hpending
      exact hw.id_lt hpending hy (Call.item_of_descends hy').2
  refine hw.advance hadvanced fun id own hmem hown => ?_
  rw [hrest] at hmem
  rw [hcells] at hown
  rcases List.mem_append.1 hmem with hold | hnew
  · have hwaits : .visit id ∈ w.pending := hpending ▸ List.mem_cons_of_mem _ hold
    have hid : id < w.cells.size := hw.visit_mem_iff.1 (List.mem_append_right _ hwaits)
    rw [Cells.getElem?_addAll_of_lt _ _ _ (by simpa using hid), Cells.getElem?_setFrame,
      if_neg (Ne.symm (hw.ne_of_waits hpending hold))] at hown
    exact hw.fresh id own hwaits hown
  · obtain ⟨hdescends, ⟨i, hi, heq⟩ | heq⟩ := Call.mem_newWork_iff.1 hnew
    · obtain rfl := Work.visit.inj heq
      have hget := Cells.getElem?_addAll_add (w.cells.setFrame call.id call.after) (some call.id)
        (call.newFrames t) i
      rw [Cells.size_setFrame, hown, Call.getElem?_newFrames t hdescends, Option.map_map] at hget
      obtain ⟨located, -, rfl⟩ := Option.map_eq_some_iff.1 hget.symm
      rfl
    · cases heq

theorem Queued.of_reaches (hw : Queued t roots w) (ht : t.order = .breadthFirst)
    (h : t.journaled.Reaches w x) : Queued t roots x := by
  induction h with
  | refl => exact hw
  | tail _ hnext ih => exact ih.next ht hnext

end

/-- In the beginning the roots wait to be visited. -/
theorem Queued.start (t : Traversal N D S) (roots : List N) (state : S) :
    Queued t roots (t.journaled.start roots ([], state)) := by
  have hsize : (t.journaled.start roots ([], state)).cells.size = roots.length := by
    simp [Traversal.start]
  have hitems : (t.journaled.start roots ([], state)).items
      = (List.range roots.length).map .visit :=
    List.nil_append _
  have hplace : ∀ j place, (t.journaled.start roots ([], state)).cells.place? j = some place →
      ∃ node, roots[j]? = some node ∧ place = ⟨none, none, 0, node⟩ := by
    intro j place h
    rw [Cells.place?, t.journaled.getElem?_start, Option.map_map] at h
    obtain ⟨node, hnode, rfl⟩ := Option.map_eq_some_iff.1 h
    exact ⟨node, hnode, rfl⟩
  constructor
  · intro j hj
    have hcell := Array.getElem?_eq_getElem hj
    obtain ⟨node, -, heq⟩ := hplace j _ (Cells.place?_eq_of_cell hcell)
    exact ⟨[], [], .root ((Cells.place?_eq_of_cell hcell).trans (congrArg some heq))⟩
  · rw [hitems, hsize, List.filterMap_map]
    exact List.filterMap_some
  · rw [hitems, List.filterMap_map]
    exact List.filterMap_eq_nil_iff.2 fun _ _ => rfl
  · have hrank : ∀ j, (t.journaled.start roots ([], state)).cells.rank (.visit j) = 0 := by
      intro j
      cases h : (t.journaled.start roots ([], state)).cells.place? j with
      | none => rw [Cells.rank, h, Option.bind_none]
      | some place =>
        obtain ⟨node, -, rfl⟩ := hplace j place h
        exact Cells.rank_visit h
    rw [hitems]
    refine List.pairwise_map.2 (List.pairwise_of_forall_mem_list fun a _ b _ => ?_)
    rw [hrank a]
    exact Nat.zero_le _
  · intro c hc
    cases hc
  · intro id cell _ hcell
    rw [t.journaled.getElem?_start] at hcell
    obtain ⟨node, -, rfl⟩ := Option.map_eq_some_iff.1 hcell
    rfl
  · intro c hc
    cases hc
  · intro j place p h hp
    obtain ⟨node, -, rfl⟩ := hplace j place h
    cases hp
  · intro j place h _
    obtain ⟨node, hnode, rfl⟩ := hplace j place h
    exact hnode

end Topiary
