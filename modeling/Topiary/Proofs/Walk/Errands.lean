/-
Topiary.Proofs.Walk.Errands — a work list runs the errands of a plan.

A visitor may put another node in the place of one that it enters.  Nothing stands
below a node that is yet to be entered, so no other item of the list looks at the
node that is replaced; and once a node is entered it stays what it is.  Hence each
item of the list carries an errand of the plan from the moment it is put there, and
a turn of the loop is a turn of the agenda.

* `Cells.Childless` — no context lies below this one.
* `Cells.Stands.setFrame`, `Cells.Stands.setNode` — what a callback moves.
* `Cells.Holds` — a context is that of an occurrence.
* `Tour.Carries` — an item of the list is for an errand.
* `Attends` — the invariant: the list carries these errands.
* `Attends.work`, `Attends.run` — one turn of the loop, and all of them.
* `Traversal.Follows.walk` — a walk in either order runs the errands of its plan.
-/
import Mathlib.Data.List.Forall2
import Topiary.Proofs.Walk.Exploration
import Topiary.Proofs.Walk.Tour

namespace Topiary

/-! ## What stands where -/

/-- The crumbs lead over the frames above, nearest first. -/
theorem Sight.crumbsBelow_prefix_above {N D : Type} (frame : Frame N D)
    (above : List (Frame N D)) :
    (crumbsBelow frame above).map Breadcrumb.node <+: above.map Frame.node := by
  induction above generalizing frame with
  | nil => exact List.prefix_refl _
  | cons parent above ih =>
    rw [crumbsBelow]
    cases frame.location with
    | none => exact List.nil_prefix
    | some location => exact (List.prefix_cons_inj parent.node).2 (ih parent)

/-- The locations of the crumbs and the nodes above make up the crumbs, if they are
equally many. -/
theorem Sight.crumbs_eq {N D : Type} {s : Sight N D} {crumbs : List (Breadcrumb N)}
    (hpath : s.path = crumbs.map Breadcrumb.location)
    (hnodes : s.nodesAbove = crumbs.map Breadcrumb.node) : s.crumbs = crumbs := by
  have hzip : ∀ crumbs : List (Breadcrumb N), List.zipWith Breadcrumb.mk
      (crumbs.map Breadcrumb.node) (crumbs.map Breadcrumb.location) = crumbs := by
    intro crumbs
    induction crumbs with
    | nil => rfl
    | cons crumb crumbs ih => exact congrArg (crumb :: ·) ih
  have hall : s.crumbs.map Breadcrumb.node = s.nodesAbove := by
    refine (crumbsBelow_prefix_above s.frame s.above).eq_of_length ?_
    have hlength := congrArg List.length hpath
    have hlength' := congrArg List.length hnodes
    rw [path, List.length_map, List.length_map] at hlength
    rw [nodesAbove, List.length_map, List.length_map] at hlength'
    rw [List.length_map, List.length_map, hlength']
    exact hlength
  calc s.crumbs
      = List.zipWith Breadcrumb.mk (s.crumbs.map Breadcrumb.node) s.path := (hzip _).symm
    _ = crumbs := by rw [hall, hnodes, hpath, hzip]

namespace Cells

variable {N D : Type} {cells cells' : Cells N D} {id j root : Nat} {way : Way N}

/-- No context has this one for its parent. -/
def Childless (cells : Cells N D) (id : Nat) : Prop :=
  ∀ j spot, cells.spot? j = some spot → spot.parent ≠ some id

/-- Parents are older than their children. -/
def Aged (cells : Cells N D) : Prop :=
  ∀ j spot, cells.spot? j = some spot → ∀ parent, spot.parent = some parent → parent < j

/-- Where nothing lies below a context, a change to it moves no other one. -/
theorem Stands.of_childless (h : cells.Stands j root way) (hchildless : cells.Childless id)
    (hne : j ≠ id) (hsame : ∀ k, k ≠ id → cells'.spot? k = cells.spot? k) :
    cells'.Stands j root way := by
  induction h with
  | root hspot => exact .root ((hsame _ hne).trans hspot)
  | child hspot hlt _ ih =>
    have hparent := fun heq => hchildless _ _ hspot (congrArg some heq)
    exact .child ((hsame _ hne).trans hspot) hlt (ih hparent)

theorem spot?_setFrame_of_ne (frame : Frame N D) (hne : j ≠ id) :
    (cells.setFrame id frame).spot? j = cells.spot? j := by
  rw [spot?, spot?, getElem?_setFrame, if_neg (Ne.symm hne)]

theorem spot?_setFrame_self {cell : Cell N D} (hcell : cells[id]? = some cell)
    (frame : Frame N D) : (cells.setFrame id frame).spot? id
      = some ⟨frame.node, frame.location, cell.parent, frame.deleted⟩ := by
  simp [spot?, getElem?_setFrame, hcell]

/-- A callback moves no other context, if it leaves the node alone or there is nothing
below it. -/
theorem Stands.setFrame (h : cells.Stands j root way) {cell : Cell N D}
    (hcell : cells[id]? = some cell) {frame : Frame N D}
    (hlocation : frame.location = cell.frame.location)
    (hdeleted : frame.deleted = cell.frame.deleted) (hne : j ≠ id)
    (hnode : frame.node = cell.frame.node ∨ cells.Childless id) :
    (cells.setFrame id frame).Stands j root way := by
  rcases hnode with hnode | hchildless
  · exact h.congr fun k _ => spot?_setFrame hcell hnode hlocation hdeleted k
  · exact h.of_childless hchildless hne fun k hk => spot?_setFrame_of_ne frame hk

/-- With another node a context stands at the end of the same path. -/
theorem Stands.setNode {path : List Location} {node : N} {above : List N}
    (h : cells.Stands id root ⟨path, node :: above⟩) {cell : Cell N D}
    (hcell : cells[id]? = some cell) {frame : Frame N D}
    (hlocation : frame.location = cell.frame.location)
    (hdeleted : frame.deleted = cell.frame.deleted)
    (hnode : frame.node = cell.frame.node ∨ cells.Childless id) :
    (cells.setFrame id frame).Stands id root ⟨path, frame.node :: above⟩ := by
  have hself := spot?_setFrame_self hcell frame
  have hspot : cells.spot? id
      = some ⟨cell.frame.node, frame.location, cell.parent, frame.deleted⟩ := by
    rw [spot?, hcell, hlocation, hdeleted]
    rfl
  cases h with
  | root hroot =>
    obtain ⟨-, hloc, hparent, hdel⟩ := Spot.mk.inj (Option.some.inj (hspot.symm.trans hroot))
    rw [hloc, hparent, hdel] at hself
    exact .root hself
  | child hchild hlt hup =>
    obtain ⟨-, hloc, hparent, hdel⟩ := Spot.mk.inj (Option.some.inj (hspot.symm.trans hchild))
    rw [hloc, hparent, hdel] at hself
    exact .child hself hlt (hup.setFrame hcell hlocation hdeleted (Nat.ne_of_lt hlt) hnode)

/-- A callback leaves the parents alone. -/
theorem spot?_of_setFrame {frame : Frame N D} {spot : Spot N}
    (h : (cells.setFrame id frame).spot? j = some spot) :
    ∃ spot', cells.spot? j = some spot' ∧ spot'.parent = spot.parent := by
  by_cases hne : j = id
  · subst hne
    rw [spot?, getElem?_setFrame, if_pos rfl, Option.map_map, Option.map_eq_some_iff] at h
    obtain ⟨cell, hcell, rfl⟩ := h
    exact ⟨_, congrArg (Option.map _) hcell, rfl⟩
  · exact ⟨spot, (spot?_setFrame_of_ne frame hne).symm.trans h, rfl⟩

/-- New contexts have the one parent that they are made for. -/
theorem spot?_of_addAll {parent : Option Nat} {frames : List (Frame N D)} {spot : Spot N}
    (h : (cells.addAll parent frames).spot? j = some spot) :
    cells.spot? j = some spot ∨ cells.size ≤ j ∧ spot.parent = parent := by
  rcases Nat.lt_or_ge j cells.size with hlt | hge
  · exact .inl ((spot?_addAll_of_lt cells parent frames hlt).symm.trans h)
  · obtain ⟨i, rfl⟩ := Nat.exists_eq_add_of_le hge
    rw [spot?, getElem?_addAll_add, Option.map_map, Option.map_eq_some_iff] at h
    obtain ⟨frame, -, rfl⟩ := h
    exact .inr ⟨hge, rfl⟩

theorem Aged.setFrame (h : cells.Aged) (id : Nat) (frame : Frame N D) :
    (cells.setFrame id frame).Aged := by
  intro j spot hspot parent hparent
  obtain ⟨spot', hspot', heq⟩ := spot?_of_setFrame hspot
  exact h j spot' hspot' parent (heq.trans hparent)

theorem Childless.setFrame (h : cells.Childless j) (id : Nat) (frame : Frame N D) :
    (cells.setFrame id frame).Childless j := by
  intro k spot hspot
  obtain ⟨spot', hspot', heq⟩ := spot?_of_setFrame hspot
  exact heq ▸ h k spot' hspot'

theorem Aged.addAll (h : cells.Aged) (hid : id < cells.size) (frames : List (Frame N D)) :
    (cells.addAll (some id) frames).Aged := by
  intro j spot hspot parent hparent
  rcases spot?_of_addAll hspot with hold | ⟨hge, hnew⟩
  · exact h j spot hold parent hparent
  · obtain rfl := Option.some.inj (hnew.symm.trans hparent)
    exact Nat.lt_of_lt_of_le hid hge

theorem Childless.addAll (h : cells.Childless j) (hne : j ≠ id) (frames : List (Frame N D)) :
    (cells.addAll (some id) frames).Childless j := by
  intro k spot hspot heq
  rcases spot?_of_addAll hspot with hold | ⟨-, hnew⟩
  · exact h k spot hold heq
  · exact hne (Option.some.inj (heq.symm.trans hnew))

/-- Nothing lies below a context that was just made. -/
theorem Aged.childless (h : cells.Aged) (hid : id < cells.size) (frames : List (Frame N D))
    (i : Nat) : (cells.addAll (some id) frames).Childless (cells.size + i) := by
  intro k spot hspot heq
  rcases spot?_of_addAll hspot with hold | ⟨-, hnew⟩
  · have hlt := lt_size_of_spot hold
    have hle := h k spot hold _ heq
    omega
  · have := Option.some.inj (heq.symm.trans hnew)
    omega

/-! ### Occurrences -/

/-- The context is that of the occurrence, and this node stands there. -/
structure Holds (cells : Cells N D) (id : Nat) (o : Occurrence N) (node : N) : Prop where
  stands : ∃ root, cells.Stands id root ⟨o.path, node :: o.above⟩
  cell : ∃ cell, cells[id]? = some cell ∧ cell.frame.reached = o.reached
    ∧ cell.frame.depth = o.crumbs.length ∧ cell.frame.location = o.path.head?

variable {o : Occurrence N} {node : N}

theorem Holds.lt_size (h : cells.Holds id o node) : id < cells.size := by
  obtain ⟨root, hstands⟩ := h.stands
  exact hstands.lt_size

/-- Callbacks are shown the occurrence. -/
theorem Holds.shows (h : cells.Holds id o node) (rootData : D) {cell : Cell N D}
    (hcell : cells[id]? = some cell) :
    cell.frame.deleted = false ∧ (cells.context rootData id cell.frame).sight.Shows o node := by
  obtain ⟨root, hstands⟩ := h.stands
  obtain ⟨cell', hcell', hreached, hdepth, hlocation⟩ := h.cell
  obtain rfl : cell' = cell := Option.some.inj (hcell'.symm.trans hcell)
  obtain ⟨cell'', hcell'', hdeleted, -⟩ := hstands.exists_cell
  obtain rfl : cell'' = cell' := Option.some.inj (hcell''.symm.trans hcell)
  obtain ⟨hmark, hnodes⟩ := hstands.context rootData hcell cell''.frame rfl rfl
  obtain ⟨hnode, habove⟩ := List.cons.inj hnodes
  exact ⟨hdeleted, hnode, hreached, hdepth, hlocation,
    Sight.crumbs_eq (congrArg Mark.path hmark) habove, habove⟩

/-- A callback at another context, as far as `Stands.setFrame` allows for it. -/
theorem Holds.setFrame (h : cells.Holds j o node) {cell : Cell N D}
    (hcell : cells[id]? = some cell) {frame : Frame N D}
    (hlocation : frame.location = cell.frame.location)
    (hdeleted : frame.deleted = cell.frame.deleted) (hne : j ≠ id)
    (hnode : frame.node = cell.frame.node ∨ cells.Childless id) :
    (cells.setFrame id frame).Holds j o node := by
  obtain ⟨⟨root, hstands⟩, own, hown, hfields⟩ := h
  refine ⟨⟨root, hstands.setFrame hcell hlocation hdeleted hne hnode⟩, own, ?_, hfields⟩
  rw [getElem?_setFrame, if_neg (Ne.symm hne), hown]

/-- A callback at the context itself. -/
theorem Holds.setNode (h : cells.Holds id o node) {cell : Cell N D}
    (hcell : cells[id]? = some cell) (frame : Frame N D)
    (hreached : frame.reached = cell.frame.reached) (hdepth : frame.depth = cell.frame.depth)
    (hlocation : frame.location = cell.frame.location)
    (hdeleted : frame.deleted = cell.frame.deleted)
    (hnode : frame.node = cell.frame.node ∨ cells.Childless id) :
    (cells.setFrame id frame).Holds id o frame.node := by
  obtain ⟨⟨root, hstands⟩, own, hown, hreached', hdepth', hlocation'⟩ := h
  obtain rfl : own = cell := Option.some.inj (hown.symm.trans hcell)
  refine ⟨⟨root, hstands.setNode hcell hlocation hdeleted hnode⟩, ⟨frame, own.parent⟩, ?_,
    hreached.trans hreached', hdepth.trans hdepth', hlocation.trans hlocation'⟩
  rw [getElem?_setFrame, if_pos rfl, hcell]
  rfl

theorem Holds.addAll (h : cells.Holds j o node) (parent : Option Nat)
    (frames : List (Frame N D)) : (cells.addAll parent frames).Holds j o node := by
  have hlt := h.lt_size
  obtain ⟨⟨root, hstands⟩, own, hown, hfields⟩ := h
  refine ⟨⟨root, hstands.congr fun k hk => spot?_addAll_of_lt cells parent frames hk⟩, own, ?_,
    hfields⟩
  rw [getElem?_addAll_of_lt _ _ _ hlt, hown]

/-- A context that was just made for a child. -/
theorem Holds.kid {tour : Tour N} (h : cells.Holds id o (tour.standing o)) {cell : Cell N D}
    (hcell : cells[id]? = some cell) (data : D) {i : Nat} {located : Location × N}
    (hget : (tour.children (tour.standing o)).locations[i]? = some located) :
    (cells.addAll (some id) (cell.frame.kids (tour.children (tour.standing o)) data)).Holds
      (cells.size + i) (tour.kid o located) located.2 := by
  obtain ⟨⟨root, hstands⟩, own, hown, -, hdepth, -⟩ := h
  obtain rfl : own = cell := Option.some.inj (hown.symm.trans hcell)
  obtain ⟨hkid, hstands'⟩ := hstands.kid own.frame _ data hget
  exact ⟨⟨root, hstands'⟩, _, hkid, rfl, congrArg (· + 1) hdepth, rfl⟩

end Cells

/-! ## Items and errands -/

/-- The item of the list is for the errand.  One that is to be visited has nothing below
it as yet. -/
inductive Tour.Carries {N D : Type} (tour : Tour N) (cells : Cells N D) : Work → Errand N → Prop
  | visit {id : Nat} {o : Occurrence N} (holds : cells.Holds id o o.reached)
    (childless : cells.Childless id)
    (fresh : ∀ cell, cells[id]? = some cell → cell.frame.phase = .enter) :
    Carries tour cells (.visit id) (.visit o)
  | leave {id : Nat} {o : Occurrence N} (holds : cells.Holds id o (tour.standing o)) :
    Carries tour cells (.leave id) (.leave o)

namespace Tour.Carries

variable {N D : Type} {tour : Tour N} {cells : Cells N D} {item : Work} {errand : Errand N}
  {id : Nat}

theorem lt_size (h : tour.Carries cells item errand) : item.id < cells.size := by
  cases h with
  | visit holds _ _ => exact holds.lt_size
  | leave holds => exact holds.lt_size

/-- A callback at the context of another item. -/
theorem setFrame (h : tour.Carries cells item errand) {cell : Cell N D}
    (hcell : cells[id]? = some cell) {frame : Frame N D}
    (hlocation : frame.location = cell.frame.location)
    (hdeleted : frame.deleted = cell.frame.deleted) (hne : item.id ≠ id)
    (hnode : frame.node = cell.frame.node ∨ cells.Childless id) :
    tour.Carries (cells.setFrame id frame) item errand := by
  cases h with
  | @visit id' o holds childless fresh =>
    refine .visit (holds.setFrame hcell hlocation hdeleted hne hnode)
      (childless.setFrame id frame) ?_
    rw [Cells.getElem?_setFrame, if_neg (show id ≠ id' from Ne.symm hne)]
    exact fresh
  | leave holds => exact .leave (holds.setFrame hcell hlocation hdeleted hne hnode)

/-- New contexts below that of another item. -/
theorem addAll (h : tour.Carries cells item errand) (hne : item.id ≠ id)
    (frames : List (Frame N D)) : tour.Carries (cells.addAll (some id) frames) item errand := by
  cases h with
  | visit holds childless fresh =>
    refine .visit (holds.addAll _ _) (childless.addAll hne frames) ?_
    rw [Cells.getElem?_addAll_of_lt _ _ _ holds.lt_size]
    exact fresh
  | leave holds => exact .leave (holds.addAll _ _)

end Tour.Carries

/-- What takes the place of a visit, as items and as errands. -/
theorem Tour.carries_inside {N D : Type} {tour : Tour N} {cells : Cells N D} {id : Nat}
    {o : Occurrence N} (h : cells.Holds id o (tour.standing o)) (haged : cells.Aged)
    {cell : Cell N D} (hcell : cells[id]? = some cell) (data : D) :
    List.Forall₂ (tour.Carries
        (cells.addAll (some id) (cell.frame.kids (tour.children (tour.standing o)) data)))
      (Work.inside id cells.size (tour.children (tour.standing o)).locations.length)
      (tour.inside o) := by
  refine List.rel_append ?_ (.cons (.leave (h.addAll _ _)) .nil)
  refine List.forall₂_iff_get.2 ⟨by simp [kids], fun i hi hi' => ?_⟩
  rw [List.length_map, List.length_range'] at hi
  have hget := List.getElem?_eq_getElem hi
  have hholds := h.kid hcell data hget
  have hkid : tour.Carries
      (cells.addAll (some id) (cell.frame.kids (tour.children (tour.standing o)) data))
      (.visit (cells.size + i))
      (.visit (tour.kid o (tour.children (tour.standing o)).locations[i])) := by
    refine .visit hholds (haged.childless h.lt_size _ i) ?_
    rw [Cells.getElem?_addAll_add, Frame.kids, List.getElem?_map, hget]
    rintro _ ⟨⟩
    rfl
  simpa [kids] using hkid

/-! ## The invariant -/

variable {N D S : Type} [Identified N] {tour : Tour N} {t : Traversal N D S}

/-- The list carries these errands, one for each item, and nothing has stopped it. -/
structure Attends (tour : Tour N) (w : Worklist N D (List (Context N D) × S))
    (errands : List (Errand N)) : Prop where
  quit : w.quit = false
  /-- Each context has one item of work at most. -/
  distinct : (w.pending.map Work.id).Nodup
  aged : w.cells.Aged
  carries : List.Forall₂ (tour.Carries w.cells) w.pending errands

/-- The work list `w'` is `w` after a callback that saw this, and carries these errands. -/
structure Advances (tour : Tour N) (w w' : Worklist N D (List (Context N D) × S))
    (seen : Glimpse N) (errands : List (Errand N)) : Prop where
  attends : Attends tour w' errands
  log : w'.state.1.map (fun c => c.sight.glimpse) = w.state.1.map (fun c => c.sight.glimpse) ++ [seen]
  entered : w'.entered = w.entered + if seen.phase = .enter then 1 else 0

omit [Identified N] in
/-- A callback that does not quit. -/
theorem Traversal.logged_call (t : Traversal N D S) (w : Worklist N D (List (Context N D) × S))
    (id : Nat) (frame : Frame N D) {control : Control} (hcontrol : control ≠ .quit) {node : N}
    {data : D} {state : S}
    (hanswer : t.visitor (w.cells.context t.rootData id frame) w.state.2
      = .ok ⟨control, node, false, data, state⟩) :
    t.logged.call w id frame = .ok (control,
      { w with
        cells := w.cells.setFrame id { frame with node, data }
        state := (w.state.1 ++ [w.cells.context t.rootData id frame], state)
        quit := false }) := by
  have hlogged : t.logged.visitor (w.cells.context t.logged.rootData id frame) w.state
      = .ok ⟨control, node, false, data,
        (w.state.1 ++ [w.cells.context t.rootData id frame], state)⟩ := by
    simp only [logged, hanswer, bind, Except.bind, pure, Except.pure]
  simp only [call, hlogged, bind, Except.bind, pure, Except.pure, Frame.update, Bool.or_false,
    beq_eq_false_iff_ne.2 hcontrol]

omit [Identified N] in
/-- The other items still carry their errands after a callback. -/
theorem Attends.callback {w : Worklist N D (List (Context N D) × S)} {item : Work}
    {pending : List Work} {errand : Errand N} {errands : List (Errand N)}
    (h : Attends tour w (errand :: errands)) (w' : Worklist N D (List (Context N D) × S))
    (hpending : w.pending = item :: pending)
    {cell : Cell N D} (hcell : w.cells[item.id]? = some cell) (frame : Frame N D)
    (hlocation : frame.location = cell.frame.location)
    (hdeleted : frame.deleted = cell.frame.deleted)
    (hnode : frame.node = cell.frame.node ∨ w.cells.Childless item.id)
    (hcells : w'.cells = w.cells.setFrame item.id frame) (hpending' : w'.pending = pending)
    (hquit : w'.quit = false) :
    Attends tour w' errands ∧ item.id ∉ w'.pending.map Work.id := by
  obtain ⟨-, hdistinct, haged, hcarries⟩ := h
  rw [hpending, List.map_cons, List.nodup_cons] at hdistinct
  rw [hpending, List.forall₂_cons] at hcarries
  have hothers : ∀ other ∈ pending, other.id ≠ item.id := fun other hother heq =>
    hdistinct.1 (heq ▸ List.mem_map_of_mem hother)
  refine ⟨⟨hquit, hpending' ▸ hdistinct.2, hcells ▸ haged.setFrame item.id frame, ?_⟩,
    hpending' ▸ hdistinct.1⟩
  rw [hcells, hpending']
  refine ((List.forall₂_and_left _ _).2 ⟨hothers, hcarries.2⟩).imp fun other errand hboth => ?_
  exact hboth.2.setFrame hcell hlocation hdeleted hboth.1 hnode

/-- The items that take the place of a visit are put on the list as the order says. -/
theorem schedule_eq_put (order : TraversalOrder) (id made count : Nat) (pending : List Work) :
    Traversal.schedule order id (List.range' made count) pending
      = order.put (Work.inside id made count) pending := by
  cases order <;> simp [Traversal.schedule, TraversalOrder.put, Work.inside]

theorem TraversalOrder.forall₂_put {α β : Type} {R : α → β → Prop} (order : TraversalOrder)
    {fresh pending : List α} {fresh' pending' : List β} (hfresh : List.Forall₂ R fresh fresh')
    (hpending : List.Forall₂ R pending pending') :
    List.Forall₂ R (order.put fresh pending) (order.put fresh' pending') := by
  cases order with
  | depthFirst => exact List.rel_append hfresh hpending
  | breadthFirst => exact List.rel_append hpending hfresh

/-- An item that is taken off the list and what it brings, which is put on it: no context
comes to have two items. -/
theorem Work.nodup_put (order : TraversalOrder) {pending : List Work} {id made : Nat}
    (hid : id < made) (hnew : id ∉ pending.map Work.id) (hold : ∀ item ∈ pending, item.id < made)
    (hdistinct : (pending.map Work.id).Nodup) (count : Nat) :
    ((order.put (inside id made count) pending).map Work.id).Nodup := by
  rw [((order.put_perm _ _).map Work.id).nodup_iff, List.map_append, List.nodup_append]
  refine ⟨nodup_inside hid count, hdistinct, fun a ha b hb hab => ?_⟩
  obtain ⟨new, hmem, rfl⟩ := List.mem_map.1 ha
  obtain ⟨other, hother, rfl⟩ := List.mem_map.1 hb
  rcases mem_inside_iff.1 hmem with ⟨i, -, rfl⟩ | rfl
  · exact absurd (hold other hother) (Nat.not_lt.2 (hab ▸ Nat.le_add_right _ i))
  · exact hnew (List.mem_map.2 ⟨other, hother, hab.symm⟩)

omit [Identified N] in
/-- The children of a node that was entered and its end mark go on the list. -/
theorem Attends.expand {w : Worklist N D (List (Context N D) × S)} {errands : List (Errand N)}
    (ht : t.children = tour.children) (h : Attends tour w errands) {id : Nat} {o : Occurrence N}
    (hholds : w.cells.Holds id o (tour.standing o)) (hid : id ∉ w.pending.map Work.id) :
    Attends tour (t.logged.expand w id) (t.order.put (tour.inside o) errands) := by
  obtain ⟨cell, hcell, -⟩ := hholds.cell
  obtain ⟨hdeleted, hshows⟩ := hholds.shows t.rootData hcell
  have hnode : cell.frame.node = tour.standing o := hshows.node
  have hold : ∀ other ∈ w.pending, other.id < w.cells.size :=
    ((List.forall₂_and_left _ _).1 (h.carries.imp fun _ _ hcarries => ⟨hcarries.lt_size, hcarries⟩)).1
  have hothers : ∀ other ∈ w.pending, other.id ≠ id := fun other hother heq =>
    hid (heq ▸ List.mem_map_of_mem hother)
  rw [t.logged.expand_eq hcell hdeleted, schedule_eq_put]
  show Attends tour { w with
    cells := w.cells.addAll (some id) (cell.frame.kids (t.children cell.frame.node) t.fresh)
    pending := t.order.put (Work.inside id w.cells.size
      (t.children cell.frame.node).locations.length) w.pending } _
  rw [ht, hnode]
  refine ⟨h.quit, Work.nodup_put t.order hholds.lt_size hid hold h.distinct _,
    h.aged.addAll hholds.lt_size _, ?_⟩
  refine t.order.forall₂_put (Tour.carries_inside hholds h.aged hcell t.fresh) ?_
  exact ((List.forall₂_and_left _ _).2 ⟨hothers, h.carries⟩).imp
    fun other errand hboth => hboth.2.addAll hboth.1 _

/-! ## One turn -/

section

variable {w : Worklist N D (List (Context N D) × S)} {errand : Errand N}
  {errands : List (Errand N)} {pending : List Work} {o : Occurrence N} {id : Nat}

/-- A callback other than `enter`: it changes nothing and is the item's last. -/
theorem Attends.last (ht : t.Follows tour) (h : Attends tour w (errand :: errands)) {item : Work}
    (hpending : w.pending = item :: pending) {node : N} (hholds : w.cells.Holds item.id o node)
    {cell : Cell N D} (hcell : w.cells[item.id]? = some cell) (phase : Phase)
    (hphase : phase ≠ .enter) (visited : Bool)
    (hseen : tour.glimpse errand = o.glimpse phase node) :
    ∃ control w', t.logged.call { w with pending } item.id { cell.frame with phase, visited }
        = .ok (control, w')
      ∧ Advances tour w w' (tour.glimpse errand) errands := by
  obtain ⟨-, hshows⟩ := hholds.shows t.rootData hcell
  have hseen' := (hshows.update { cell.frame with phase, visited } rfl rfl rfl).glimpse
  obtain ⟨control, data, state, hcontrol, hvisit⟩ := ht.others
    (w.cells.context t.rootData item.id { cell.frame with phase, visited }) w.state.2 hphase
  refine ⟨control, _, t.logged_call { w with pending } item.id _ hcontrol hvisit, ?_, ?_, ?_⟩
  · exact (h.callback _ hpending hcell { cell.frame with phase, visited, data } rfl rfl (.inl rfl)
      rfl rfl rfl).1
  · rw [List.map_append, List.map_singleton, hseen]
    exact congrArg (_ ++ [·]) (hseen'.trans (congrArg _ hshows.node))
  · rw [hseen, if_neg (show (o.glimpse phase node).phase ≠ .enter from hphase)]
    rfl

/-- The callback `enter`: the node that is to stand there is put in its place. -/
theorem Attends.first (ht : t.Follows tour) (h : Attends tour w (.visit o :: errands))
    (hpending : w.pending = .visit id :: pending) (hholds : w.cells.Holds id o o.reached)
    (hchildless : w.cells.Childless id) {cell : Cell N D} (hcell : w.cells[id]? = some cell)
    (hphase : cell.frame.phase = .enter) (hrep : o.repeatsAbove = false) :
    ∃ w', t.logged.call { w with pending, entered := w.entered + 1 } id cell.frame
        = .ok ((tour.advice o).control, w')
      ∧ Advances tour w w' (tour.glimpse (.visit o)) errands
      ∧ w'.cells.Holds id o (tour.standing o) ∧ id ∉ w'.pending.map Work.id := by
  obtain ⟨-, hshows⟩ := hholds.shows t.rootData hcell
  have hseen : tour.glimpse (.visit o) = o.glimpse .enter o.reached := by
    rw [Tour.glimpse, hrep]
    rfl
  obtain ⟨data, state, hvisit⟩ :=
    ht.enter (w.cells.context t.rootData id cell.frame) w.state.2 hphase
  have hnode : (w.cells.context t.rootData id cell.frame).sight.frame.node = o.reached :=
    hshows.node
  rw [hshows.occurrence, hnode] at hvisit
  have hcontrol : (tour.advice o).control ≠ .quit := by
    rw [Advice.control]
    split <;> simp
  obtain ⟨hattends, hothers⟩ := h.callback
    { w with
      pending
      cells := w.cells.setFrame id { cell.frame with node := tour.standing o, data }
      entered := w.entered + 1
      state := (w.state.1 ++ [w.cells.context t.rootData id cell.frame], state)
      quit := false }
    hpending hcell { cell.frame with node := tour.standing o, data } rfl rfl (.inr hchildless)
    rfl rfl rfl
  refine ⟨_, t.logged_call { w with pending, entered := w.entered + 1 } id _ hcontrol hvisit,
    ⟨hattends, ?_, ?_⟩, ?_, hothers⟩
  · rw [List.map_append, List.map_singleton, hseen]
    refine congrArg (_ ++ [·]) (hshows.glimpse.trans ?_)
    exact congrArg (o.glimpse · o.reached) hphase
  · rw [hseen]
    rfl
  · exact hholds.setNode hcell { cell.frame with node := tour.standing o, data } rfl rfl rfl rfl
      (.inr hchildless)

/-- The end mark of a node: it is left. -/
theorem Attends.work_leave (ht : t.Follows tour) (h : Attends tour w (.leave o :: errands))
    (hpending : w.pending = .leave id :: pending) (hholds : w.cells.Holds id o (tour.standing o)) :
    ∃ w', t.logged.work { w with pending } (.leave id) = .ok w'
      ∧ Advances tour w w' (tour.glimpse (.leave o)) errands := by
  obtain ⟨cell, hcell, -⟩ := hholds.cell
  obtain ⟨control, w', hcall, hadvances⟩ := h.last ht hpending hholds hcell
    .leave (by simp) cell.frame.visited rfl
  refine ⟨w', ?_, hadvances⟩
  simp only [Traversal.work, hcell]
  rw [show t.logged.call _ id _ = _ from hcall]
  rfl

/-- The visit of a node that repeats one above it: its back reference. -/
theorem Attends.work_repeats (ht : t.Follows tour) (h : Attends tour w (.visit o :: errands))
    (hpending : w.pending = .visit id :: pending) (hholds : w.cells.Holds id o o.reached)
    (hrep : o.repeatsAbove = true) :
    ∃ w', t.logged.work { w with pending } (.visit id) = .ok w'
      ∧ Advances tour w w' (tour.glimpse (.visit o)) errands := by
  obtain ⟨cell, hcell, -⟩ := hholds.cell
  obtain ⟨-, hshows⟩ := hholds.shows t.logged.rootData hcell
  obtain ⟨control, w', hcall, hadvances⟩ := h.last ht hpending hholds hcell
    .backRef (by simp) true (by rw [Tour.glimpse, if_pos hrep])
  refine ⟨w', ?_, hadvances⟩
  simp only [Traversal.work, hcell, hshows.repeatsAbove, hrep, if_true]
  rw [show t.logged.call _ id _ = _ from hcall]
  rfl

/-- The visit of any other node: it is entered, and if it is to be descended into, its
children and its end mark go on the list. -/
theorem Attends.work_simple (ht : t.Follows tour) (h : Attends tour w (.visit o :: errands))
    (hpending : w.pending = .visit id :: pending) (hholds : w.cells.Holds id o o.reached)
    (hchildless : w.cells.Childless id)
    (hfresh : ∀ cell, w.cells[id]? = some cell → cell.frame.phase = .enter)
    (hrep : o.repeatsAbove = false) :
    ∃ w', t.logged.work { w with pending } (.visit id) = .ok w'
      ∧ Advances tour w w' (tour.glimpse (.visit o))
          (t.order.put (tour.next (.visit o)) errands) := by
  obtain ⟨cell, hcell, -⟩ := hholds.cell
  obtain ⟨-, hshows⟩ := hholds.shows t.logged.rootData hcell
  obtain ⟨w', hcall, hadvances, hholds', hothers⟩ :=
    h.first ht hpending hholds hchildless hcell (hfresh cell hcell) hrep
  have hwork : t.logged.work { w with pending } (.visit id)
      = .ok (if (tour.advice o).control = .proceed then t.logged.expand w' id else w') := by
    simp only [Traversal.work, hcell, hshows.repeatsAbove, hrep, Bool.false_eq_true, if_false]
    rw [show t.logged.call _ id _ = _ from hcall]
    rfl
  rw [hwork, Advice.control, Tour.next, hrep]
  cases (tour.advice o).descends with
  | false => exact ⟨w', rfl, by cases t.order <;> simpa [TraversalOrder.put] using hadvances⟩
  | true =>
    have hcells : (t.logged.expand w' id).state = w'.state
        ∧ (t.logged.expand w' id).entered = w'.entered := by
      rw [Traversal.expand]
      split <;> exact ⟨rfl, rfl⟩
    refine ⟨t.logged.expand w' id, rfl, hadvances.attends.expand ht.children hholds' hothers,
      ?_, ?_⟩
    · rw [hcells.1]
      exact hadvances.log
    · exact hcells.2.trans hadvances.entered

/-- Each turn runs the first errand and takes up what it brings up. -/
theorem Attends.work (ht : t.Follows tour) (h : Attends tour w (errand :: errands)) :
    ∃ item pending w', w.pending = item :: pending ∧ t.logged.work { w with pending } item = .ok w'
      ∧ Advances tour w w' (tour.glimpse errand) (t.order.put (tour.next errand) errands) := by
  cases hpending : w.pending with
  | nil =>
    have hcarries := h.carries
    rw [hpending] at hcarries
    cases hcarries
  | cons item pending =>
    refine ⟨item, pending, ?_⟩
    have hcarries := h.carries
    rw [hpending, List.forall₂_cons] at hcarries
    have hnone : t.order.put [] errands = errands := by
      cases t.order <;> simp [TraversalOrder.put]
    cases hcarries.1 with
    | leave hholds =>
      obtain ⟨w', hwork, hadvances⟩ := h.work_leave ht hpending hholds
      exact ⟨w', rfl, hwork, by rwa [Tour.next, hnone]⟩
    | @visit id o hholds hchildless hfresh =>
      cases hrep : o.repeatsAbove with
      | true =>
        obtain ⟨w', hwork, hadvances⟩ := h.work_repeats ht hpending hholds hrep
        exact ⟨w', rfl, hwork, by rwa [Tour.next, hrep, Bool.true_or, if_pos rfl, hnone]⟩
      | false =>
        obtain ⟨w', hwork, hadvances⟩ :=
          h.work_simple ht hpending hholds hchildless hfresh hrep
        exact ⟨w', rfl, hwork, hadvances⟩

/-! ## Whole walks -/

/-- The loop takes a turn for each item that the agenda takes, and comes to an end with
it. -/
theorem Attends.run (h : Attends tour w errands) (ht : t.Follows tour) (limit : Nat) :
    (agenda tour.next t.order limit errands = .unfinished ∧ t.logged.run limit w = .unfinished)
      ∨ ∃ taken w', agenda tour.next t.order limit errands = .done taken
        ∧ t.logged.run limit w = .done w' ∧ w'.quit = false
        ∧ w'.state.1.map (fun c => c.sight.glimpse)
          = w.state.1.map (fun c => c.sight.glimpse) ++ taken.map tour.glimpse
        ∧ w'.entered = w.entered + (taken.map tour.glimpse).countP (·.phase = .enter) := by
  have hquit : ¬ w.quit = true := by simp [h.quit]
  induction limit generalizing w errands with
  | zero =>
    cases errands with
    | nil =>
      have hpending : w.pending = [] := List.forall₂_nil_right_iff.1 h.carries
      exact .inr ⟨[], w, rfl, by simp [Traversal.run, hpending], h.quit, by simp, rfl⟩
    | cons errand errands =>
      obtain ⟨item, pending, -, hpending, -⟩ := h.work ht
      exact .inl ⟨rfl, by simp [Traversal.run, hpending, h.quit]⟩
  | succ limit ih =>
    cases errands with
    | nil =>
      have hpending : w.pending = [] := List.forall₂_nil_right_iff.1 h.carries
      exact .inr ⟨[], w, rfl, by simp [Traversal.run, hpending], h.quit, by simp, rfl⟩
    | cons errand errands =>
      obtain ⟨item, pending, w₁, hpending, hwork, hattends, hlog, hentered⟩ := h.work ht
      have hrun : t.logged.run (limit + 1) w = t.logged.run limit w₁ := by
        rw [Traversal.run, if_neg hquit, hpending]
        simp only [hwork]
      rw [hrun, agenda_cons]
      rcases ih hattends (by simp [hattends.quit]) with
        ⟨htaken, hw⟩ | ⟨taken, w', htaken, hw, hquit', hlog', hentered'⟩
      · exact .inl ⟨by rw [htaken]; rfl, hw⟩
      · refine .inr ⟨errand :: taken, w', by rw [htaken]; rfl, hw, hquit', ?_, ?_⟩
        · rw [hlog', hlog, List.append_assoc]
          rfl
        · rw [hentered', hentered, List.map_cons, List.countP_cons]
          simp only [decide_eq_true_eq]
          omega

end

omit [Identified N] in
/-- At the beginning the root is to be visited. -/
theorem Attends.start (t : Traversal N D S) (root : N) (state : S) :
    Attends tour (t.logged.start [root] ([], state)) [.visit (.root root)] := by
  have hspot : ∀ j spot, (t.logged.start [root] ([], state)).cells.spot? j = some spot →
      spot.parent = none := by
    intro j spot hspot
    rcases Cells.spot?_of_addAll hspot with hold | ⟨-, hparent⟩
    · simp [Cells.spot?] at hold
    · exact hparent
  have hcell : (t.logged.start [root] ([], state)).cells[0]? = some ⟨.root root t.fresh, none⟩ := rfl
  refine ⟨rfl, List.nodup_singleton 0, fun j spot h parent hparent => ?_, .cons (.visit ⟨⟨0, ?_⟩,
    _, hcell, rfl, rfl, rfl⟩ (fun j spot h hparent => ?_) ?_) .nil⟩
  · rw [hspot j spot h] at hparent
    cases hparent
  · exact .root (congrArg (Option.map _) hcell)
  · rw [hspot j spot h] at hparent
    cases hparent
  · intro cell h
    obtain rfl := Option.some.inj (hcell.symm.trans h)
    rfl

/-- What a walk from one root comes to if all that comes of its visit ends: it makes the
callbacks of the plan, in some order. -/
theorem Traversal.Follows.walk (ht : t.Follows tour) {levels : Nat} {root : N}
    (hends : Ends tour.next levels (.visit (.root root))) (state : S) :
    ∃ w, Run.Settles (fun limit => t.logged.walk limit [root] ([], state)) (.done w)
      ∧ w.quit = false
      ∧ (w.state.1.map fun c => c.sight.glimpse).Perm
          ((unroll tour.next levels (.visit (.root root))).map tour.glimpse)
      ∧ w.entered
        = (w.state.1.map fun c => c.sight.glimpse).countP fun g => g.phase = .enter := by
  obtain ⟨taken, htaken, hperm⟩ := agenda_of_ends t.order
    (List.forall_mem_singleton.2 hends) (Nat.le_refl _)
  rw [List.flatMap_singleton] at hperm
  rcases (Attends.start t root state).run ht _ with
    ⟨hunfinished, -⟩ | ⟨taken', w, htaken', hw, hquit, hlog, hentered⟩
  · exact absurd (htaken.symm.trans hunfinished) (by simp)
  · obtain rfl := Run.done.inj (htaken.symm.trans htaken')
    rw [show (t.logged.start [root] ([], state)).state.1 = [] from rfl, List.map_nil,
      List.nil_append] at hlog
    refine ⟨w, ⟨by simp, _, hw⟩, hquit, hlog ▸ hperm.map _, ?_⟩
    rw [hentered, hlog]
    exact Nat.zero_add _

/-- If a walk from one root comes to an end, all that comes of the root's visit ends. -/
theorem Traversal.Follows.ends (ht : t.Follows tour) {root : N} {state : S} {limit : Nat}
    (h : t.walk limit [root] state ≠ .unfinished) :
    ∃ levels, Ends tour.next levels (.visit (.root root)) := by
  rw [t.walk_unlogged, Run.map_ne_unfinished] at h
  have hagenda : agenda tour.next t.order limit [.visit (.root root)] ≠ .unfinished := by
    intro hunfinished
    rcases (Attends.start t root state).run ht limit with ⟨-, hrun⟩ | ⟨taken, w, htaken, -⟩
    · exact h hrun
    · exact absurd (htaken.symm.trans hunfinished) (by simp)
  exact ends_of_agenda hagenda _ (List.mem_singleton_self _)

end Topiary
