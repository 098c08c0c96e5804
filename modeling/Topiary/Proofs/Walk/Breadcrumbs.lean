/-
Topiary.Proofs.Walk.Breadcrumbs — what callbacks see above a node is how it was reached.

A context is made when its parent is entered, and waits.  Until its last callback the
contexts above it are changed by no other one: a node that is entered or that repeats
one above it has nothing below it, and a node that is left has nothing below it that
still waits — depth first, because all of it is done, and breadth first, if the callback
`leave` leaves the node alone.

* `Frame.Hangs` — each frame was found below the node of the next one, as it stands.
* `Sight.Retraces` — what this says about the breadcrumbs.
* `Cells.Placed` — the same for contexts by number; `Cells.Apart` — a change that it
  does not depend on.
* `Traversal.InPlace` — the invariant of the work list: whatever waits is placed.
* `InPlace.answered`, `InPlace.expand`, `InPlace.next` — one callback, the new contexts,
  one turn of the loop.
* `InPlace.calling`, `InPlace.log_retraces` — the context that is handed over next, and
  all those that were handed over.
-/
import Topiary.Proofs.Children.Spread
import Topiary.Proofs.Walk.Lineage
import Topiary.Proofs.Walk.Turn

namespace Topiary

variable {N D S : Type}

/-! ## Frames and what is above them -/

/-- A frame with all frames above it: each lies one deeper than the next one, and its
node as it was reached is the child of the next one's node at its location. -/
inductive Frame.Hangs (children : N → NamedChildren N) : Frame N D → List (Frame N D) → Prop
  | root {frame : Frame N D} (location : frame.location = none) (depth : frame.depth = 0) :
    Hangs children frame []
  | child {frame parent : Frame N D} {above : List (Frame N D)} {l : Location}
    (location : frame.location = some l) (depth : frame.depth = parent.depth + 1)
    (found : (children parent.node).childAt l = .ok frame.reached)
    (rest : Hangs children parent above) : Hangs children frame (parent :: above)

/-- The frames above a frame and its breadcrumbs are the way on which it was reached. -/
structure Sight.Retraces (children : N → NamedChildren N) (s : Sight N D) : Prop where
  depth : s.above.length = s.frame.depth
  length_crumbs : s.crumbs.length = s.frame.depth
  length_nodesAbove : s.nodesAbove.length = s.frame.depth
  location : s.frame.location = none ↔ s.isRoot = true
  /-- The breadcrumbs hold the nodes above as they stand. -/
  nodes : s.crumbs.map Breadcrumb.node = s.nodesAbove
  /-- The first breadcrumb leads to the node itself, each further one to the node of the
  breadcrumb before it, all as they were reached. -/
  found : ∀ (i : Nat) (crumb : Breadcrumb N), s.crumbs[i]? = some crumb →
    ∃ f : Frame N D, (s.frame :: s.above)[i]? = some f
      ∧ (children crumb.node).childAt crumb.location = .ok f.reached

namespace Frame.Hangs

variable {children : N → NamedChildren N} {frame : Frame N D} {above : List (Frame N D)}

/-- Callbacks at the frame itself do not matter. -/
theorem congr (h : frame.Hangs children above) {frame' : Frame N D}
    (hlocation : frame'.location = frame.location) (hdepth : frame'.depth = frame.depth)
    (hreached : frame'.reached = frame.reached) : frame'.Hangs children above := by
  cases h with
  | root location depth => exact .root (hlocation.trans location) (hdepth.trans depth)
  | child location depth found rest =>
    exact .child (hlocation.trans location) (hdepth.trans depth) (hreached ▸ found) rest

theorem length_above (h : frame.Hangs children above) : above.length = frame.depth := by
  induction h with
  | root _ depth => exact depth.symm
  | child _ depth _ _ ih => rw [List.length_cons, ih, depth]

theorem nodes_crumbsBelow (h : frame.Hangs children above) :
    (Sight.crumbsBelow frame above).map Breadcrumb.node = above.map Frame.node := by
  induction h with
  | root => rfl
  | @child frame parent above l location _ _ _ ih =>
    simp only [Sight.crumbsBelow, location, List.map_cons, ih]

/-- Each breadcrumb leads to the frame below it. -/
theorem found_crumbsBelow (h : frame.Hangs children above) {i : Nat} {crumb : Breadcrumb N}
    (hcrumb : (Sight.crumbsBelow frame above)[i]? = some crumb) :
    ∃ f, (frame :: above)[i]? = some f
      ∧ (children crumb.node).childAt crumb.location = .ok f.reached := by
  induction h generalizing i with
  | root => simp [Sight.crumbsBelow] at hcrumb
  | @child frame parent above l location _ found _ ih =>
    simp only [Sight.crumbsBelow, location] at hcrumb
    cases i with
    | zero =>
      obtain rfl := Option.some.inj hcrumb
      exact ⟨frame, rfl, found⟩
    | succ i => exact ih hcrumb

theorem retraces (h : frame.Hangs children above) (rootData : D) :
    (Sight.mk frame above rootData).Retraces children where
  depth := h.length_above
  length_crumbs := by
    have hlength := congrArg List.length h.nodes_crumbsBelow
    rw [List.length_map, List.length_map, h.length_above] at hlength
    exact hlength
  length_nodesAbove := (List.length_map _).trans h.length_above
  location := by
    cases h with
    | root location _ => exact ⟨fun _ => rfl, fun _ => location⟩
    | child location _ _ _ => simp [location, Sight.isRoot]
  nodes := h.nodes_crumbsBelow
  found := fun _ _ => h.found_crumbsBelow

end Frame.Hangs

/-! ## Contexts by number -/

namespace Cells

/-- The node of a context, as it was reached, is the child of its parent's node, as that
stands, at its location.  At a root there is nothing to say. -/
def Linked (children : N → NamedChildren N) (cells : Cells N D) (id : Nat) : Prop :=
  ∀ cell p, cells[id]? = some cell → cell.parent = some p → ∃ l parent,
    cell.frame.location = some l ∧ cells[p]? = some parent
      ∧ (children parent.frame.node).childAt l = .ok cell.frame.reached

/-- From the context up to its root every one is linked to its parent. -/
def Placed (children : N → NamedChildren N) (cells : Cells N D) (id : Nat) : Prop :=
  ∃ ids path, cells.Lineage id ids path ∧ ∀ j ∈ id :: ids, cells.Linked children j

/-- The one context is not above the other. -/
def Apart (cells : Cells N D) (id j : Nat) : Prop :=
  ∃ ids path, cells.Lineage j ids path ∧ id ∉ ids

/-- Following the parents leads from a context to its root, over the contexts that its
callbacks see above it. -/
def Leads (cells : Cells N D) (c : Context N D) : Prop :=
  ∃ cell above, cells[c.id]? = some cell ∧ cells.Links c.id cell.parent above
    ∧ c.sight.above = above.map Prod.snd ∧ c.idsAbove = above.map Prod.fst

variable {children : N → NamedChildren N} {cells : Cells N D} {id j : Nat}

/-! ### Callbacks -/

/-- A context is linked as before if its parent's node is. -/
theorem Linked.setFrame (h : cells.Linked children j) {cell : Cell N D}
    (hcell : cells[id]? = some cell) {frame : Frame N D}
    (hlocation : frame.location = cell.frame.location)
    (hreached : frame.reached = cell.frame.reached)
    (hnode : frame.node = cell.frame.node ∨ ∀ own, cells[j]? = some own → own.parent ≠ some id) :
    (cells.setFrame id frame).Linked children j := by
  intro own' p hown' hp
  -- the cell before the callback
  obtain ⟨own, hown, hparent, hl, hr⟩ : ∃ own, cells[j]? = some own ∧ own.parent = own'.parent
      ∧ own.frame.location = own'.frame.location ∧ own.frame.reached = own'.frame.reached := by
    rw [getElem?_setFrame] at hown'
    split at hown'
    · rename_i hj
      subst hj
      rw [hcell] at hown'
      obtain rfl := Option.some.inj hown'
      exact ⟨cell, hcell, rfl, hlocation.symm, hreached.symm⟩
    · exact ⟨own', hown', rfl, rfl, rfl⟩
  obtain ⟨l, parent, hlink, hup, hfound⟩ := h own p hown (hparent.trans hp)
  rw [hl] at hlink
  rw [hr] at hfound
  by_cases hid : id = p
  · subst hid
    rcases hnode with hnode | hnode
    · obtain rfl := Option.some.inj (hcell.symm.trans hup)
      refine ⟨l, ⟨frame, cell.parent⟩, hlink, ?_, hnode ▸ hfound⟩
      rw [getElem?_setFrame, if_pos rfl, hcell]
      rfl
    · exact absurd (hparent.trans hp) (hnode own hown)
  · exact ⟨l, parent, hlink, by rw [getElem?_setFrame, if_neg hid, hup], hfound⟩

/-- A context that is not above another one is the parent of none on its way up. -/
theorem Lineage.ne_of_parent {ids : List Nat} {path : List Location}
    (h : cells.Lineage j ids path) (hid : id ∉ ids) {k : Nat} (hk : k ∈ j :: ids) :
    ∀ own, cells[k]? = some own → own.parent ≠ some id := by
  induction h with
  | root found =>
    obtain rfl := List.mem_singleton.1 hk
    intro own hown hparent
    have hup := parent_of_place found
    rw [hown, Option.bind_some, hparent] at hup
    cases hup
  | child found _ _ ih =>
    rcases List.mem_cons.1 hk with rfl | hk
    · intro own hown hparent
      have hup := parent_of_place found
      rw [hown, Option.bind_some, hparent] at hup
      exact hid (Option.some.inj hup ▸ List.mem_cons_self ..)
    · exact ih (fun hmem => hid (List.mem_cons_of_mem _ hmem)) hk

/-- A callback leaves a context in its place if it leaves the node alone, or is made at a
context that is not above it. -/
theorem Placed.setFrame (h : cells.Placed children j) {cell : Cell N D}
    (hcell : cells[id]? = some cell) {frame : Frame N D}
    (hplace : ∀ parent, frame.place parent = cell.frame.place parent)
    (hnode : frame.node = cell.frame.node ∨ cells.Apart id j) :
    (cells.setFrame id frame).Placed children j := by
  obtain ⟨ids, path, hlineage, hlinked⟩ := h
  refine ⟨ids, path, hlineage.congr fun k _ => place?_setFrame hcell hplace k, fun k hk =>
    (hlinked k hk).setFrame hcell (congrArg Place.location (hplace none))
      (congrArg Place.reached (hplace none)) (hnode.imp_right fun hapart => ?_)⟩
  obtain ⟨ids', path', hlineage', hid⟩ := hapart
  obtain ⟨rfl, rfl⟩ := hlineage.unique hlineage'
  exact hlineage'.ne_of_parent hid hk

theorem Apart.setFrame {k : Nat} (h : cells.Apart k j) {cell : Cell N D}
    (hcell : cells[id]? = some cell) {frame : Frame N D}
    (hplace : ∀ parent, frame.place parent = cell.frame.place parent) :
    (cells.setFrame id frame).Apart k j := by
  obtain ⟨ids, path, hlineage, hid⟩ := h
  exact ⟨ids, path, hlineage.congr fun k _ => place?_setFrame hcell hplace k, hid⟩

/-- A context with nothing below it is above no other one. -/
theorem Placed.apart_of_childless (h : cells.Placed children j) (hid : cells.Childless id) :
    cells.Apart id j := by
  obtain ⟨ids, path, hlineage, -⟩ := h
  refine ⟨ids, path, hlineage, ?_⟩
  induction hlineage with
  | root => exact List.not_mem_nil
  | child found _ _ ih =>
    obtain ⟨own, hown, heq⟩ := Option.map_eq_some_iff.1 found
    rw [List.mem_cons, not_or]
    exact ⟨fun h => hid _ _ (congrArg (Option.map _) hown)
      ((congrArg Place.parent heq).trans (congrArg some h.symm)), ih⟩

/-! ### New contexts -/

theorem Placed.lt_size (h : cells.Placed children id) : id < cells.size := by
  obtain ⟨ids, path, hlineage, -⟩ := h
  exact hlineage.lt_size

theorem Linked.addAll (h : cells.Linked children j) (hj : j < cells.size) (parent : Option Nat)
    (frames : List (Frame N D)) : (cells.addAll parent frames).Linked children j := by
  intro own p hown hp
  rw [getElem?_addAll_of_lt _ _ _ hj] at hown
  obtain ⟨l, up, hl, hup, hfound⟩ := h own p hown hp
  exact ⟨l, up, hl, by rw [getElem?_addAll_of_lt _ _ _ (Array.getElem?_eq_some_iff.1 hup).1, hup],
    hfound⟩

theorem Placed.addAll (h : cells.Placed children j) (parent : Option Nat)
    (frames : List (Frame N D)) : (cells.addAll parent frames).Placed children j := by
  obtain ⟨ids, path, hlineage, hlinked⟩ := h
  refine ⟨ids, path, hlineage.addAll _ _, fun k hk => (hlinked k hk).addAll ?_ _ _⟩
  rcases List.mem_cons.1 hk with rfl | hk
  · exact hlineage.lt_size
  · exact Nat.lt_trans (hlineage.lt_of_mem hk) hlineage.lt_size

theorem Apart.addAll {k : Nat} (h : cells.Apart k j) (parent : Option Nat)
    (frames : List (Frame N D)) : (cells.addAll parent frames).Apart k j := by
  obtain ⟨ids, path, hlineage, hid⟩ := h
  exact ⟨ids, path, hlineage.addAll _ _, hid⟩

/-- A context that was not there yet is above none that was. -/
theorem Placed.apart_new (h : cells.Placed children j) (hid : cells.size ≤ id) :
    cells.Apart id j := by
  obtain ⟨ids, path, hlineage, -⟩ := h
  refine ⟨ids, path, hlineage, fun hmem => ?_⟩
  have := hlineage.lt_of_mem hmem
  have := hlineage.lt_size
  omega

/-- The contexts for the children of a node. -/
theorem Placed.kid (h : cells.Placed children id) {cell : Cell N D} (hcell : cells[id]? = some cell)
    {frames : List (Frame N D)} {i : Nat} {l : Location} {node : N} {data : D}
    (hframe : frames[i]? = some (cell.frame.child l node data))
    (hfound : (children cell.frame.node).childAt l = .ok node) :
    (cells.addAll (some id) frames).Placed children (cells.size + i)
      ∧ ∀ k, cells.size ≤ k → (cells.addAll (some id) frames).Apart k (cells.size + i) := by
  have hplaced := h.addAll (some id) frames
  obtain ⟨ids, path, hlineage, hlinked⟩ := h
  have hkid := hlineage.kid hframe rfl (congrArg (· + 1) (hlineage.place_eq hcell).2.2)
  refine ⟨⟨_, _, hkid, ?_⟩, fun k hk => ⟨_, _, hkid, fun hmem => ?_⟩⟩
  · obtain ⟨ids', path', hlineage', hlinked'⟩ := hplaced
    obtain ⟨rfl, rfl⟩ := (hlineage.addAll (some id) frames).unique hlineage'
    refine List.forall_mem_cons.2 ⟨fun new p hnew hp => ?_, hlinked'⟩
    rw [getElem?_addAll_add, hframe] at hnew
    obtain rfl := Option.some.inj hnew
    obtain rfl := Option.some.inj hp
    exact ⟨l, cell, rfl, by rw [getElem?_addAll_of_lt _ _ _ hlineage.lt_size, hcell], hfound⟩
  · have := hlineage.lt_size
    rcases List.mem_cons.1 hmem with rfl | hmem
    · omega
    · have := hlineage.lt_of_mem hmem
      omega

/-! ### What callbacks see -/

/-- Where the links hold, callbacks see them. -/
theorem Lineage.hangs {ids : List Nat} {path : List Location} (h : cells.Lineage id ids path)
    (hlinked : ∀ j ∈ id :: ids, cells.Linked children j) {cell : Cell N D}
    (hcell : cells[id]? = some cell) :
    cell.frame.Hangs children ((cells.above id).map Prod.snd) := by
  induction h generalizing cell with
  | root found =>
    obtain ⟨-, hlocation, hdepth⟩ := Lineage.place_eq (.root found) hcell
    rw [above_of_root (parent_of_place found)]
    exact .root hlocation hdepth
  | child found older rest ih =>
    obtain ⟨hself, hlinked⟩ := List.forall_mem_cons.1 hlinked
    obtain ⟨hup, -, hdepth⟩ := Lineage.place_eq (.child found older rest) hcell
    obtain ⟨l, parent, hl, hparent, hfound⟩ := hself _ _ hcell hup
    rw [above_of_parent (parent_of_place found) older hparent]
    exact .child hl (hdepth.trans (congrArg (· + 1) (rest.place_eq hparent).2.2.symm)) hfound
      (ih hlinked hparent)

theorem Placed.hangs (h : cells.Placed children id) {cell : Cell N D}
    (hcell : cells[id]? = some cell) :
    cell.frame.Hangs children ((cells.above id).map Prod.snd) := by
  obtain ⟨ids, path, hlineage, hlinked⟩ := h
  exact hlineage.hangs hlinked hcell

end Cells

/-! ## The work list -/

namespace Traversal

/-- Whatever waits is in its place; what is to be visited has nothing below it as yet, and
depth first no item waits for one that comes after it. -/
structure InPlace (t : Traversal N D S) (w : Worklist N D S) : Prop where
  aged : w.cells.Aged
  placed : ∀ item ∈ w.pending, w.cells.Placed t.children item.id
  childless : ∀ id, .visit id ∈ w.pending → w.cells.Childless id
  distinct : (w.pending.map Work.id).Nodup
  apart : t.order = .depthFirst → w.pending.Pairwise fun a b => w.cells.Apart a.id b.id

/-- The callback `leave` leaves the node alone. -/
def LeavesNodes (t : Traversal N D S) : Prop :=
  ∀ c s a, c.sight.frame.phase = .leave → t.visitor c s = .ok a → a.node = c.sight.frame.node

variable {t : Traversal N D S} {w x : Worklist N D S} {item : Work} {c : Context N D}
  {a : Answer N D S}

/-- A callback at the first item, which is taken off. -/
theorem InPlace.answered (h : t.InPlace w) {pending : List Work}
    (hpending : w.pending = item :: pending) {cell : Cell N D}
    (hcell : w.cells[item.id]? = some cell) (frame : Frame N D)
    (hplace : ∀ parent, frame.place parent = cell.frame.place parent)
    (hnode : frame.node = cell.frame.node ∨ ∀ other ∈ pending, w.cells.Apart item.id other.id)
    (y : Worklist N D S) (hy : y.cells = w.cells.setFrame item.id frame)
    (hrest : y.pending = pending) : t.InPlace y := by
  have hin : ∀ other ∈ pending, other ∈ w.pending := fun other hother =>
    hpending ▸ List.mem_cons_of_mem _ hother
  have hdistinct := h.distinct
  rw [hpending] at hdistinct
  constructor
  · exact hy ▸ h.aged.setFrame _ _
  · intro other hother
    rw [hrest] at hother
    rw [hy]
    exact (h.placed other (hin other hother)).setFrame hcell hplace
      (hnode.imp_right fun hall => hall other hother)
  · intro id hid
    rw [hrest] at hid
    exact hy ▸ (h.childless id (hin _ hid)).setFrame _ _
  · exact hrest ▸ (List.nodup_cons.1 hdistinct).2
  · intro horder
    have hapart := h.apart horder
    rw [hpending] at hapart
    rw [hrest, hy]
    exact (List.pairwise_cons.1 hapart).2.imp fun hab => hab.setFrame hcell hplace

/-- The contexts for the children of a node that was taken off the list. -/
theorem InPlace.expand (h : t.InPlace w) {id : Nat} (hplaced : w.cells.Placed t.children id)
    (hid : id ∉ w.pending.map Work.id)
    (hapart : t.order = .depthFirst → ∀ other ∈ w.pending, w.cells.Apart id other.id) :
    t.InPlace (t.expand w id) := by
  obtain ⟨cell, hcell⟩ : ∃ cell, w.cells[id]? = some cell :=
    ⟨_, Array.getElem?_eq_getElem hplaced.lt_size⟩
  have hlt : ∀ other ∈ w.pending, other.id < w.cells.size := fun other hother =>
    (h.placed other hother).lt_size
  -- the children, whose frames are those of the listing
  have hkid : ∀ i, i < (t.kidFrames cell.frame).length →
      (w.cells.addAll (some id) (t.kidFrames cell.frame)).Placed t.children (w.cells.size + i)
        ∧ ∀ k, w.cells.size ≤ k →
          (w.cells.addAll (some id) (t.kidFrames cell.frame)).Apart k (w.cells.size + i) := by
    intro i hi
    have hframe := List.getElem?_eq_getElem hi
    have hkids := t.getElem?_kidFrames cell.frame i
    rw [hframe] at hkids
    split at hkids
    · cases hkids
    · obtain ⟨located, hlocated, hnew⟩ := Option.map_eq_some_iff.1 hkids.symm
      rw [← hnew] at hframe
      exact hplaced.kid hcell hframe
        (((t.children _).mem_locations_iff _ _).1 (List.mem_of_getElem? hlocated))
  have hmem : ∀ new, new ∈ Work.inside id w.cells.size (t.kidFrames cell.frame).length
      ++ w.pending ↔ new ∈ t.order.put
        (Work.inside id w.cells.size (t.kidFrames cell.frame).length) w.pending := fun new =>
    (t.order.put_perm _ _).mem_iff.symm
  rw [t.expand_eq_kids hcell]
  constructor
  · exact h.aged.addAll hplaced.lt_size _
  · intro new hnew
    rcases List.mem_append.1 ((hmem new).2 hnew) with hnew | hnew
    · rcases Work.mem_inside_iff.1 hnew with ⟨i, hi, rfl⟩ | rfl
      · exact (hkid i hi).1
      · exact hplaced.addAll _ _
    · exact (h.placed new hnew).addAll _ _
  · intro new hnew
    rcases List.mem_append.1 ((hmem _).2 hnew) with hnew | hnew
    · rcases Work.mem_inside_iff.1 hnew with ⟨i, hi, heq⟩ | heq
      · obtain rfl := Work.visit.inj heq
        exact h.aged.childless hplaced.lt_size _ i
      · cases heq
    · exact (h.childless new hnew).addAll (fun heq => hid (List.mem_map.2 ⟨_, hnew, heq⟩)) _
  · exact Work.nodup_put t.order hplaced.lt_size hid hlt h.distinct _
  · intro horder
    rw [horder]
    have hold : ∀ new ∈ Work.inside id w.cells.size (t.kidFrames cell.frame).length,
        ∀ other ∈ w.pending,
          (w.cells.addAll (some id) (t.kidFrames cell.frame)).Apart new.id other.id := by
      intro new hnew other hother
      rcases Work.mem_inside_iff.1 hnew with ⟨i, -, rfl⟩ | rfl
      · exact ((h.placed other hother).apart_new (Nat.le_add_right _ i)).addAll _ _
      · exact (hapart horder other hother).addAll _ _
    refine List.pairwise_append.2 ⟨List.pairwise_append.2 ⟨?_, List.pairwise_singleton _ _, ?_⟩,
      (h.apart horder).imp fun hab => hab.addAll _ _, hold⟩
    · refine List.pairwise_map.2 (List.pairwise_iff_getElem.2 fun i j hi hj _ => ?_)
      simp only [List.length_range', List.getElem_range', Nat.one_mul] at hi hj ⊢
      exact (hkid j hj).2 _ (Nat.le_add_right _ i)
    · intro new hnew last hlast
      obtain ⟨k, hk, rfl⟩ := List.mem_map.1 hnew
      obtain rfl := List.mem_singleton.1 hlast
      exact (hplaced.apart_new (List.mem_range'_1.1 hk).1).addAll _ _

variable [Identified N]

/-- An item's callback, if it is one of those that `setFrame` allows for. -/
theorem InPlace.called (h : t.InPlace w) {pending : List Work}
    (hpending : w.pending = item :: pending) (hhanded : t.handed? w.cells item = some c)
    (hnode : a.node = c.sight.frame.node ∨ ∀ other ∈ pending, w.cells.Apart item.id other.id)
    (y : Worklist N D S) (hy : y.cells = w.cells.setFrame c.id (c.sight.frame.update a))
    (hrest : y.pending = pending) : t.InPlace y := by
  obtain ⟨cell, hcell, rfl⟩ := exists_cell_of_handed hhanded
  obtain ⟨phase, visited, hframe⟩ := t.shownFrame_eq w.cells cell.frame item
  simp only [Cells.context, hframe] at hy hnode
  exact h.answered hpending hcell (Frame.update { cell.frame with phase, visited } a) (fun _ => rfl)
    hnode y hy hrest

/-- One turn of the loop. -/
theorem InPlace.turn (h : t.InPlace w) (ht : t.order = .depthFirst ∨ t.LeavesNodes)
    {pending : List Work} (hpending : w.pending = item :: pending)
    (hhanded : t.handed? w.cells item = some c) (ha : t.visitor c w.state = .ok a)
    (hturn : t.Turn { w with pending } item c a x) : t.InPlace x := by
  have hplaced : ∀ other ∈ pending, w.cells.Placed t.children other.id := fun other hother =>
    h.placed other (hpending ▸ List.mem_cons_of_mem _ hother)
  have hdistinct := h.distinct
  rw [hpending] at hdistinct
  have hself := h.placed item (hpending ▸ List.mem_cons_self ..)
  have hchildless : ∀ id, item = .visit id → ∀ other, w.cells.Placed t.children other →
      w.cells.Apart id other := by
    rintro id rfl other hother
    exact hother.apart_of_childless (h.childless id (hpending ▸ List.mem_cons_self ..))
  have hwaiting : ∀ id, item = .visit id → ∀ other ∈ pending, w.cells.Apart id other.id :=
    fun id hid other hother => hchildless id hid _ (hplaced other hother)
  cases hturn with
  | @leave id _ _ phase =>
    refine h.called hpending hhanded ?_ _ rfl rfl
    rcases ht with hfirst | hleaves
    · have hapart := h.apart hfirst
      rw [hpending] at hapart
      exact .inr (List.pairwise_cons.1 hapart).1
    · exact .inl (hleaves c _ a phase ha)
  | @backRef id _ _ phase =>
    exact h.called hpending hhanded (.inr (hwaiting id rfl)) _ rfl rfl
  | @halt id _ _ found control =>
    exact h.called hpending hhanded (.inr (hwaiting id rfl)) _ rfl rfl
  | @descend id _ _ found control =>
    have hcalled := h.called hpending hhanded (.inr (hwaiting id rfl))
      { Worklist.answered { w with pending } c a with entered := w.entered + 1 } rfl rfl
    obtain ⟨cell, hcell, rfl⟩ := exists_cell_of_handed hhanded
    obtain ⟨phase, visited, hframe⟩ := t.shownFrame_eq w.cells cell.frame (.visit id)
    have hplace : ∀ parent, ((t.shownFrame w.cells cell.frame (.visit id)).update a).place parent
        = cell.frame.place parent := fun parent => by rw [hframe]; rfl
    refine hcalled.expand ?_ (List.nodup_cons.1 hdistinct).1 fun _ other hother => ?_
    · exact hself.setFrame hcell hplace (.inr (hchildless id rfl id hself))
    · exact (hwaiting id rfl other hother).setFrame hcell hplace

omit [Identified N] in
/-- In the beginning the roots wait. -/
theorem InPlace.start (t : Traversal N D S) (roots : List N) (state : S) :
    t.InPlace (t.start roots state) := by
  have hcell : ∀ (i : Nat) (cell : Cell N D), (t.start roots state).cells[i]? = some cell →
      ∃ node, cell = ⟨.root node t.fresh, none⟩ := by
    intro i cell h
    rw [t.getElem?_start] at h
    obtain ⟨node, -, rfl⟩ := Option.map_eq_some_iff.1 h
    exact ⟨node, rfl⟩
  have hspot : ∀ j spot, (t.start roots state).cells.spot? j = some spot → spot.parent = none := by
    intro j spot h
    obtain ⟨cell, hj, rfl⟩ := Option.map_eq_some_iff.1 h
    obtain ⟨node, rfl⟩ := hcell j cell hj
    rfl
  have hplaced : ∀ i < roots.length, (t.start roots state).cells.Placed t.children i
      ∧ ∀ k, (t.start roots state).cells.Apart k i := by
    intro i hi
    have hget := t.getElem?_start roots state i
    rw [List.getElem?_eq_getElem hi] at hget
    have hlineage : (t.start roots state).cells.Lineage i [] [] :=
      .root (Cells.place?_eq_of_cell hget)
    refine ⟨⟨[], [], hlineage, List.forall_mem_singleton.2 fun cell p hj hp => ?_⟩,
      fun k => ⟨[], [], hlineage, List.not_mem_nil⟩⟩
    obtain ⟨node, rfl⟩ := hcell i cell hj
    cases hp
  have hitem : ∀ item ∈ (t.start roots state).pending, item.id < roots.length := by
    intro item hitem
    obtain ⟨i, hi, rfl⟩ := List.mem_map.1 hitem
    exact List.mem_range.1 hi
  refine ⟨fun j spot h p hp => ?_, fun item h => (hplaced _ (hitem item h)).1,
    fun id _ j spot h hp => ?_, ?_, fun _ => ?_⟩
  · cases (hspot j spot h).symm.trans hp
  · cases (hspot j spot h).symm.trans hp
  · simp only [Traversal.start, List.map_map]
    exact (List.map_id _).symm ▸ List.nodup_range
  · exact List.pairwise_of_forall_mem_list fun a _ b hb => (hplaced _ (hitem b hb)).2 _

/-- The loop keeps everything that waits in its place. -/
theorem InPlace.next (h : t.InPlace w) (ht : t.order = .depthFirst ∨ t.LeavesNodes)
    (hnext : t.next? w = some x) : t.InPlace x := by
  obtain ⟨item, pending, hpending, -, hcases⟩ := next_cases hnext
  rcases hcases with ⟨hnone, -⟩ | ⟨c, a, hhanded, ha, hturn⟩
  · have hlt := (h.placed item (hpending ▸ List.mem_cons_self ..)).lt_size
    exact absurd hnone (by simp [hlt])
  · exact h.turn ht hpending hhanded ha hturn

theorem InPlace.of_reaches (h : t.InPlace w) (ht : t.order = .depthFirst ∨ t.LeavesNodes)
    (hreaches : t.Reaches w x) : t.InPlace x := by
  induction hreaches with
  | refl => exact h
  | tail _ hnext ih => exact ih.next ht hnext

/-- The context that is handed over next. -/
theorem InPlace.calling (h : t.InPlace w) (hcalling : t.calling? w = some c) :
    w.cells.Leads c ∧ c.sight.Retraces t.children := by
  obtain ⟨item, hitem, hhanded⟩ : ∃ item ∈ w.pending, t.handed? w.cells item = some c := by
    unfold calling? at hcalling
    split at hcalling
    · cases hcalling
    · obtain ⟨item, hhead, hhanded⟩ := Option.bind_eq_some_iff.1 hcalling
      exact ⟨item, List.mem_of_head? hhead, hhanded⟩
  obtain ⟨cell, hcell, rfl⟩ := exists_cell_of_handed hhanded
  obtain ⟨phase, visited, hframe⟩ := t.shownFrame_eq w.cells cell.frame item
  have hplaced := h.placed item hitem
  constructor
  · obtain ⟨ids, path, hlineage, -⟩ := hplaced
    exact ⟨cell, _, hcell, hlineage.links hcell, rfl, rfl⟩
  · have hshown : Frame.Hangs t.children { cell.frame with phase, visited }
        ((w.cells.above item.id).map Prod.snd) := (hplaced.hangs hcell).congr rfl rfl rfl
    rw [hframe]
    exact hshown.retraces t.rootData

/-! ### Writing the callbacks down -/

omit [Identified N] in
theorem LeavesNodes.logged (h : t.LeavesNodes) : t.logged.LeavesNodes := by
  intro c s a hphase ha
  cases hvisit : t.visitor c s.2 with
  | error f => simp [Traversal.logged, hvisit, bind, Except.bind] at ha
  | ok b =>
    simp only [Traversal.logged, hvisit, bind, Except.bind, pure, Except.pure,
      Except.ok.injEq] at ha
    rw [← ha]
    exact h c s.2 b hphase hvisit

omit [Identified N] in
theorem state_of_logged {s : List (Context N D) × S} {b : Answer N D (List (Context N D) × S)}
    (h : t.logged.visitor c s = .ok b) : b.state.1 = s.1 ++ [c] := by
  cases hvisit : t.visitor c s.2 with
  | error f => simp [Traversal.logged, hvisit, bind, Except.bind] at h
  | ok a =>
    simp only [Traversal.logged, hvisit, bind, Except.bind, pure, Except.pure, Except.ok.injEq] at h
    rw [← h]

/-- All contexts that were written down. -/
theorem InPlace.log_retraces {y z : Worklist N D (List (Context N D) × S)}
    (h : t.logged.InPlace y) (ht : t.logged.order = .depthFirst ∨ t.logged.LeavesNodes)
    (hlog : ∀ c ∈ y.state.1, c.sight.Retraces t.children) (hreaches : t.logged.Reaches y z) :
    ∀ c ∈ z.state.1, c.sight.Retraces t.children := by
  induction hreaches with
  | refl => exact hlog
  | @tail z x hz hnext ih =>
    obtain ⟨item, pending, hpending, hquit, hcases⟩ := next_cases hnext
    rcases hcases with ⟨-, rfl⟩ | ⟨c, b, hhanded, hb, hturn⟩
    · exact ih
    · have hcalling : t.logged.calling? z = some c := by
        rw [calling?, hquit, hpending]
        exact hhanded
      rw [hturn.state_eq, state_of_logged hb, List.forall_mem_append, List.forall_mem_singleton]
      exact ⟨ih, ((h.of_reaches ht hz).calling hcalling).2⟩

end Traversal

end Topiary
