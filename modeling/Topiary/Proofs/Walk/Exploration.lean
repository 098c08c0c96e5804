/-
Topiary.Proofs.Walk.Exploration — what a work list explores, in either order.

A visitor that leaves the nodes alone and always goes on changes nothing about where
the contexts stand.  So the callbacks that an item of the work list will bring about
are known as soon as the item is on the list, and each turn of the loop makes the
first of those of one item.  The order in which the items are taken does not matter.

* `Cells.Stands` — the root above a context, the path and the nodes between them; no
  callback moves it.
* `Traversal.Passive` — visitors that leave the nodes alone and go on.
* `Traversal.owed` — the callbacks that an item of the work list will bring about.
* `Progress` — the invariant: the callbacks made and those owed are the ones of the
  graph.
* `Progress.advance`, `Progress.last`, `Progress.work` — one item of work makes one
  callback.
* `Progress.run`, `explores_walk` — the list is worked off.
-/
import Topiary.Proofs.Walk.Cells
import Topiary.Proofs.Walk.SimplePath

namespace Topiary

/-! ## Where a context stands -/

/-- What a visitor that leaves the nodes alone cannot change of a context. -/
structure Spot (N : Type) where
  node : N
  location : Option Location
  parent : Option Nat
  deleted : Bool

/-- The place at which a context is shown, for its phase. -/
def Context.mark {N D : Type} (c : Context N D) : Mark :=
  ⟨c.idsAbove.getLastD c.id, c.sight.path, c.sight.frame.phase⟩

/-- The context that an item of work is about. -/
def Work.id : Work → Nat
  | .visit id => id
  | .leave id => id

/-- The items that take the place of a visit: the children's visits, `count` of them
numbered from `made` on, and the end mark. -/
def Work.inside (id made count : Nat) : List Work :=
  (List.range' made count).map .visit ++ [.leave id]

theorem Work.nodup_inside {id made : Nat} (h : id < made) (count : Nat) :
    ((inside id made count).map Work.id).Nodup := by
  have hids : (inside id made count).map Work.id = List.range' made count ++ [id] := by
    rw [inside, List.map_append, List.map_map]
    exact congrArg (· ++ [id]) (List.map_id _)
  rw [hids, List.nodup_append]
  refine ⟨List.nodup_range', List.nodup_singleton _, fun a ha b hb => ?_⟩
  rw [List.mem_range'_1] at ha
  rw [List.mem_singleton] at hb
  omega

theorem Work.mem_inside_iff {id made count : Nat} {item : Work} :
    item ∈ inside id made count
      ↔ (∃ i < count, item = .visit (made + i)) ∨ item = .leave id := by
  simp only [inside, List.mem_append, List.mem_map, List.mem_range'_1, List.mem_singleton]
  constructor
  · rintro (⟨j, ⟨hle, hlt⟩, rfl⟩ | rfl)
    · exact .inl ⟨j - made, by omega, by rw [Nat.add_sub_cancel' hle]⟩
    · exact .inr rfl
  · rintro (⟨i, hi, rfl⟩ | rfl)
    · exact .inl ⟨made + i, by omega, rfl⟩
    · exact .inr rfl

/-- The nodes of a sight, nearest first. -/
def Sight.nodes {N D : Type} (s : Sight N D) : List N := s.frame.node :: s.nodesAbove

namespace Cells

variable {N D : Type}

/-- The spot of a context. -/
def spot? (cells : Cells N D) (id : Nat) : Option (Spot N) :=
  (cells[id]?).map fun cell =>
    ⟨cell.frame.node, cell.frame.location, cell.parent, cell.frame.deleted⟩

/-- The context stands at the end of a way from a root, and nothing on this way is
marked as deleted. -/
inductive Stands (cells : Cells N D) : (id root : Nat) → Way N → Prop
  | root {id : Nat} {node : N} : cells.spot? id = some ⟨node, none, none, false⟩ →
    Stands cells id id (.root node)
  | child {id parent root : Nat} {path : List Location} {nodes : List N} {location : Location}
      {child : N} : cells.spot? id = some ⟨child, some location, some parent, false⟩ →
    parent < id → Stands cells parent root ⟨path, nodes⟩ →
    Stands cells id root ⟨location :: path, child :: nodes⟩

variable {cells cells' : Cells N D} {id root : Nat} {w : Way N}

theorem lt_size_of_spot {spot : Spot N} (h : cells.spot? id = some spot) : id < cells.size := by
  rw [spot?, Option.map_eq_some_iff] at h
  obtain ⟨cell, hcell, -⟩ := h
  exact (Array.getElem?_eq_some_iff.1 hcell).1

theorem Stands.lt_size (h : cells.Stands id root w) : id < cells.size := by
  cases h with
  | root hspot => exact lt_size_of_spot hspot
  | child hspot _ _ => exact lt_size_of_spot hspot

/-- A context stands where it stood as long as no spot changes. -/
theorem Stands.congr (h : cells.Stands id root w)
    (hspots : ∀ j < cells.size, cells'.spot? j = cells.spot? j) : cells'.Stands id root w := by
  induction h with
  | root hspot => exact .root ((hspots _ (lt_size_of_spot hspot)).trans hspot)
  | child hspot hlt _ ih => exact .child ((hspots _ (lt_size_of_spot hspot)).trans hspot) hlt ih

/-- The cell of a context that stands somewhere, and what lies above it. -/
theorem Stands.exists_cell (h : cells.Stands id root w) :
    ∃ cell, cells[id]? = some cell ∧ cell.frame.deleted = false
      ∧ w.nodes = cell.frame.node :: (cells.above id).map (fun p => p.2.node)
      ∧ ((cells.above id).map Prod.fst).getLastD id = root
      ∧ ∀ frame : Frame N D, frame.location = cell.frame.location →
        (Sight.crumbsBelow frame ((cells.above id).map Prod.snd)).map Breadcrumb.location
          = w.path := by
  induction h with
  | @root id node hspot =>
    rw [spot?, Option.map_eq_some_iff] at hspot
    obtain ⟨⟨frame, parent⟩, hcell, heq⟩ := hspot
    simp only [Spot.mk.injEq] at heq
    obtain ⟨rfl, hlocation, rfl, hdeleted⟩ := heq
    have habove : cells.above id = [] := by
      rw [above]
      simp [hcell]
    exact ⟨_, hcell, hdeleted, by simp [habove, Way.root], by simp [habove],
      fun frame _ => by simp [habove, Sight.crumbsBelow, Way.root]⟩
  | @child id parent root path nodes location child hspot hlt _ ih =>
    rw [spot?, Option.map_eq_some_iff] at hspot
    obtain ⟨⟨frame, parent'⟩, hcell, heq⟩ := hspot
    simp only [Spot.mk.injEq] at heq
    obtain ⟨rfl, hlocation, rfl, hdeleted⟩ := heq
    obtain ⟨⟨up, upParent⟩, hup, -, hnodes, hroot, hpath⟩ := ih
    have habove : cells.above id = (parent, up) :: cells.above parent := by
      rw [above]
      simp [hcell, hlt, hup]
    refine ⟨_, hcell, hdeleted, ?_, ?_, fun frame hframe => ?_⟩
    · rw [habove, List.map_cons]
      exact congrArg (frame.node :: ·) hnodes
    · rw [habove, List.map_cons, List.getLastD_cons, hroot]
    · rw [hlocation] at hframe
      rw [habove, List.map_cons, Sight.crumbsBelow, hframe]
      simp [hpath up rfl]

/-- What callbacks see of a context that stands somewhere, whatever its data and
phase. -/
theorem Stands.context (h : cells.Stands id root w) (rootData : D) {cell : Cell N D}
    (hcell : cells[id]? = some cell) (frame : Frame N D)
    (hnode : frame.node = cell.frame.node) (hlocation : frame.location = cell.frame.location) :
    (cells.context rootData id frame).mark = ⟨root, w.path, frame.phase⟩
      ∧ (cells.context rootData id frame).sight.nodes = w.nodes := by
  obtain ⟨cell', hcell', -, hnodes, hroot, hpath⟩ := h.exists_cell
  rw [hcell, Option.some.injEq] at hcell'
  subst hcell'
  constructor
  · simp only [Context.mark, Cells.context, Sight.path, Sight.crumbs, hroot, hpath frame hlocation]
  · simp only [Sight.nodes, Sight.nodesAbove, Cells.context, List.map_map, hnodes, hnode]
    rfl

theorem Stands.repeatsAbove_iff [Identified N] {path : List Location} {node : N} {above : List N}
    (h : cells.Stands id root ⟨path, node :: above⟩) (rootData : D) {cell : Cell N D}
    (hcell : cells[id]? = some cell) :
    (cells.context rootData id cell.frame).sight.repeatsAbove = true
      ↔ nodeId node ∈ above.map nodeId := by
  obtain ⟨hnode, habove⟩ := List.cons.inj (h.context rootData hcell cell.frame rfl rfl).2
  rw [← any_sameId_iff, ← hnode, ← habove, Sight.nodesAbove, List.any_map]
  rfl

/-! ### What callbacks and new contexts leave alone -/

theorem spot?_setFrame {cell : Cell N D} (hcell : cells[id]? = some cell) {frame : Frame N D}
    (hnode : frame.node = cell.frame.node) (hlocation : frame.location = cell.frame.location)
    (hdeleted : frame.deleted = cell.frame.deleted) (j : Nat) :
    (cells.setFrame id frame).spot? j = cells.spot? j := by
  rw [spot?, spot?, getElem?_setFrame]
  by_cases hj : id = j
  · subst hj
    simp [hcell, hnode, hlocation, hdeleted]
  · rw [if_neg hj]

theorem spot?_addAll_of_lt (cells : Cells N D) (parent : Option Nat) (frames : List (Frame N D))
    {j : Nat} (hj : j < cells.size) : (cells.addAll parent frames).spot? j = cells.spot? j := by
  rw [spot?, spot?, getElem?_addAll_of_lt _ _ _ hj]

/-- One callback, with or without new contexts: only the frame of one context changes,
and no spot. -/
structure Unmoved (id : Nat) (cells cells' : Cells N D) : Prop extends Kept [id] cells cells' where
  spots : ∀ j < cells.size, cells'.spot? j = cells.spot? j

theorem unmoved_setFrame {cell : Cell N D} (hcell : cells[id]? = some cell) {frame : Frame N D}
    (hnode : frame.node = cell.frame.node) (hlocation : frame.location = cell.frame.location)
    (hdeleted : frame.deleted = cell.frame.deleted) : Unmoved id cells (cells.setFrame id frame) :=
  ⟨.setFrame cells id frame, fun j _ => spot?_setFrame hcell hnode hlocation hdeleted j⟩

theorem Unmoved.addAll (h : Unmoved id cells cells') (parent : Option Nat)
    (frames : List (Frame N D)) : Unmoved id cells (cells'.addAll parent frames) :=
  ⟨h.toKept.trans (.addAll [id] cells' parent frames) fun _ _ hj => hj, fun j hj =>
    (spot?_addAll_of_lt _ _ _ (Nat.lt_of_lt_of_le hj h.size_le)).trans (h.spots j hj)⟩

/-- A context that was just made for a child stands one step further down. -/
theorem Stands.kid {path : List Location} {nodes : List N}
    (h : cells.Stands id root ⟨path, nodes⟩) (parent : Frame N D) (children : NamedChildren N)
    (data : D) {i : Nat} {location : Location} {child : N}
    (hget : children.locations[i]? = some (location, child)) :
    (cells.addAll (some id) (parent.kids children data))[cells.size + i]?
        = some ⟨parent.child location child data, some id⟩
      ∧ (cells.addAll (some id) (parent.kids children data)).Stands (cells.size + i) root
          ⟨location :: path, child :: nodes⟩ := by
  have hcell : (cells.addAll (some id) (parent.kids children data))[cells.size + i]?
      = some ⟨parent.child location child data, some id⟩ := by
    rw [getElem?_addAll_add, Frame.kids, List.getElem?_map, hget]
    rfl
  refine ⟨hcell, .child ?_ (Nat.lt_of_lt_of_le h.lt_size (Nat.le_add_right _ _))
    (h.congr fun j hj => spot?_addAll_of_lt _ _ _ hj)⟩
  rw [spot?, hcell]
  rfl

end Cells

/-! ## Passive visitors -/

namespace Traversal

variable {N D S : Type}

/-- The visitor changes and deletes no node and always goes on. -/
def Passive (t : Traversal N D S) : Prop :=
  ∀ c s, ∃ data state, t.visitor c s = .ok ⟨.proceed, c.sight.frame.node, false, data, state⟩

/-- The work list after a callback of a passive visitor: the callback is written down,
and nothing else changes but data and state. -/
structure Called (t : Traversal N D S) (w : Worklist N D (List (Context N D) × S)) (id : Nat)
    (frame : Frame N D) (w' : Worklist N D (List (Context N D) × S)) : Prop where
  cells : ∃ data, w'.cells = w.cells.setFrame id { frame with data }
  pending : w'.pending = w.pending
  log : w'.state.1 = w.state.1 ++ [w.cells.context t.rootData id frame]
  entered : w'.entered = w.entered
  quit : w'.quit = false

theorem Passive.call {t : Traversal N D S} (ht : t.Passive)
    (w : Worklist N D (List (Context N D) × S)) (id : Nat) (frame : Frame N D) :
    ∃ w', t.logged.call w id frame = .ok (.proceed, w') ∧ t.Called w id frame w' := by
  obtain ⟨data, state, hvisit⟩ := ht (w.cells.context t.rootData id frame) w.state.2
  have hlogged : t.logged.visitor (w.cells.context t.logged.rootData id frame) w.state
      = .ok ⟨.proceed, frame.node, false, data,
        (w.state.1 ++ [w.cells.context t.rootData id frame], state)⟩ := by
    simp only [logged, hvisit, bind, Except.bind, pure, Except.pure]
    rfl
  refine ⟨{ w with
      cells := w.cells.setFrame id { frame with data }
      state := (w.state.1 ++ [w.cells.context t.rootData id frame], state)
      quit := false }, ?_, ⟨data, rfl⟩, rfl, rfl, rfl, rfl⟩
  simp only [Traversal.call, hlogged, bind, Except.bind, pure, Except.pure, Frame.update,
    Bool.or_false]
  rfl

variable [Identified N]

/-- The callbacks that an item of the work list will bring about, in a graph with `n`
identities. -/
def owed (t : Traversal N D S) (n : Nat) (cells : Cells N D) : Work → List Mark
  | .visit id =>
    match cells[id]? with
    | none => []
    | some cell =>
      let c := cells.context t.rootData id cell.frame
      unfolding t.children c.mark.root (n + 1 - c.sight.nodesAbove.length) c.mark.path
        c.sight.nodesAbove cell.frame.node
  | .leave id =>
    match cells[id]? with
    | none => []
    | some cell =>
      let c := cells.context t.rootData id cell.frame
      [⟨c.mark.root, c.mark.path, .leave⟩]

theorem owed_visit (t : Traversal N D S) (n : Nat) {cells : Cells N D} {id root : Nat}
    {path : List Location} {node : N} {above : List N}
    (h : cells.Stands id root ⟨path, node :: above⟩) :
    t.owed n cells (.visit id)
      = unfolding t.children root (n + 1 - above.length) path above node := by
  obtain ⟨cell, hcell, -⟩ := h.exists_cell
  obtain ⟨hmark, hnodes⟩ := h.context t.rootData hcell cell.frame rfl rfl
  obtain ⟨hnode, habove⟩ := List.cons.inj hnodes
  simp only [owed, hcell, hmark, habove]
  rw [← hnode]
  rfl

/-- A node that repeats one above it is owed its back reference. -/
theorem owed_visit_of_repeats (t : Traversal N D S) {n : Nat} {cells : Cells N D} {id root : Nat}
    {path : List Location} {node : N} {above : List N}
    (h : cells.Stands id root ⟨path, node :: above⟩) (hlength : above.length ≤ n)
    (hrep : nodeId node ∈ above.map nodeId) :
    t.owed n cells (.visit id) = [⟨root, path, .backRef⟩] := by
  rw [owed_visit t n h, Nat.succ_sub hlength, unfolding, if_pos ((any_sameId_iff above node).2 hrep)]

/-- Any other node is owed what the callbacks at it and below it are. -/
theorem owed_visit_of_simple (t : Traversal N D S) {n : Nat} {cells : Cells N D} {id root : Nat}
    {path : List Location} {node : N} {above : List N}
    (h : cells.Stands id root ⟨path, node :: above⟩) (hlength : above.length ≤ n)
    (hrep : nodeId node ∉ above.map nodeId) :
    t.owed n cells (.visit id) = ⟨root, path, .enter⟩
      :: (t.children node).locations.flatMap (fun located =>
        unfolding t.children root (n + 1 - (node :: above).length) (located.1 :: path)
          (node :: above) located.2)
      ++ [⟨root, path, .leave⟩] := by
  rw [owed_visit t n h, Nat.succ_sub hlength, unfolding,
    if_neg (mt (any_sameId_iff above node).1 hrep), List.length_cons, Nat.add_sub_add_right]

theorem owed_leave (t : Traversal N D S) (n : Nat) {cells : Cells N D} {id root : Nat}
    {w : Way N} (h : cells.Stands id root w) :
    t.owed n cells (.leave id) = [⟨root, w.path, .leave⟩] := by
  obtain ⟨cell, hcell, -⟩ := h.exists_cell
  obtain ⟨hmark, -⟩ := h.context t.rootData hcell cell.frame rfl rfl
  simp only [owed, hcell, hmark]

/-! ## The invariant -/

/-- An item of the work list: its context stands somewhere; one that waits for its
visit was not handed to the visitor and stands below a simple path, and one that is to
be left was entered. -/
def Waits (t : Traversal N D S) (roots : List N) (cells : Cells N D) (marks : List Mark) :
    Work → Prop
  | .visit id => ∃ root path node above, cells.Stands id root ⟨path, node :: above⟩
    ∧ Descends t.children roots root ⟨path, node :: above⟩ ∧ (above.map nodeId).Nodup
    ∧ ∀ cell ∈ cells[id]?, cell.frame.phase = .enter
  | .leave id => ∃ root w, cells.Stands id root w ∧ Descends t.children roots root w
    ∧ ⟨root, w.path, .enter⟩ ∈ marks

variable {t : Traversal N D S} {ids : List NodeId} {roots : List N} {cells cells' : Cells N D}
  {w w' : Worklist N D (List (Context N D) × S)}

theorem Waits.lt_size {marks : List Mark} {item : Work} (h : t.Waits roots cells marks item) :
    item.id < cells.size := by
  cases item with
  | visit id =>
    obtain ⟨root, path, node, above, hstands, -⟩ := h
    exact hstands.lt_size
  | leave id =>
    obtain ⟨root, w, hstands, -⟩ := h
    exact hstands.lt_size

/-- A callback on another context changes nothing for an item. -/
theorem Waits.unmoved {marks : List Mark} {item : Work} (h : t.Waits roots cells marks item)
    {id : Nat} (hcells : Cells.Unmoved id cells cells') (hne : item.id ≠ id) (n : Nat)
    (more : List Mark) :
    t.Waits roots cells' (marks ++ more) item ∧ t.owed n cells' item = t.owed n cells item := by
  have hlt := h.lt_size
  cases item with
  | visit id' =>
    obtain ⟨root, path, node, above, hstands, hdown, hnodup, hphase⟩ := h
    have hstands' := hstands.congr hcells.spots
    have hsame : cells'[id']? = cells[id']? := hcells.same id' hlt (by simpa [Work.id] using hne)
    refine ⟨⟨root, path, node, above, hstands', hdown, hnodup, hsame ▸ hphase⟩, ?_⟩
    rw [t.owed_visit n hstands, t.owed_visit n hstands']
  | leave id' =>
    obtain ⟨root, w, hstands, hdown, hmem⟩ := h
    have hstands' := hstands.congr hcells.spots
    refine ⟨⟨root, w, hstands', hdown, List.mem_append_left _ hmem⟩, ?_⟩
    rw [t.owed_leave n hstands, t.owed_leave n hstands']

omit [Identified N] in
/-- What is done for each of the items numbered from `n` on. -/
theorem flatMap_range' {α β : Type} {f : Nat → List β} {g : α → List β} {xs : List α} {n : Nat}
    (h : ∀ i x, xs[i]? = some x → f (n + i) = g x) :
    (List.range' n xs.length).flatMap f = xs.flatMap g := by
  have hnumbers : List.range' n xs.length = (xs.zipIdx n).map Prod.snd :=
    (List.zipIdx_map_snd n xs).symm
  have hmembers : xs = (xs.zipIdx n).map Prod.fst := (List.zipIdx_map_fst n xs).symm
  rw [hnumbers]
  conv_rhs => rw [hmembers]
  rw [List.flatMap_map, List.flatMap_map]
  refine List.flatMap_congr fun p hp => ?_
  obtain ⟨x, i⟩ := p
  rw [List.mk_mem_zipIdx_iff_le_and_getElem?_sub] at hp
  obtain ⟨j, rfl⟩ := Nat.exists_eq_add_of_le hp.1
  rw [Nat.add_sub_cancel_left] at hp
  exact h j x hp.2

/-- The children of a simple path wait for their visit as soon as they are made. -/
theorem waits_kid {id root : Nat} {path : List Location} {node : N} {above : List N}
    (h : cells.Stands id root ⟨path, node :: above⟩)
    (hdown : Descends t.children roots root ⟨path, node :: above⟩)
    (hnodup : ((node :: above).map nodeId).Nodup) (parent : Frame N D) (n : Nat)
    (marks : List Mark) {i : Nat} {located : Location × N}
    (hget : (t.children node).locations[i]? = some located)
    (hcells : cells' = cells.addAll (some id) (parent.kids (t.children node) t.fresh)) :
    t.Waits roots cells' marks (.visit (cells.size + i))
      ∧ t.owed n cells' (.visit (cells.size + i))
        = unfolding t.children root (n + 1 - (node :: above).length) (located.1 :: path)
            (node :: above) located.2 := by
  subst hcells
  obtain ⟨hcell, hstands⟩ := h.kid parent (t.children node) t.fresh hget
  obtain ⟨start, hstart, hsteps⟩ := hdown
  have hstep : Way.Step t.children ⟨path, node :: above⟩
      ⟨located.1 :: path, located.2 :: node :: above⟩ := .down (List.mem_of_getElem? hget)
  refine ⟨⟨root, _, _, _, hstands, ⟨start, hstart, hsteps.tail hstep⟩, hnodup, ?_⟩,
    t.owed_visit n hstands⟩
  rw [hcell]
  rintro _ ⟨⟩
  rfl

/-- A node that was entered leaves what it is still owed to the items that take its
place. -/
theorem waits_inside {id root : Nat} {path : List Location} {node : N} {above : List N}
    (h : cells.Stands id root ⟨path, node :: above⟩)
    (hdown : Descends t.children roots root ⟨path, node :: above⟩)
    (hnodup : ((node :: above).map nodeId).Nodup) (parent : Frame N D) (n : Nat)
    {marks : List Mark} (hmark : ⟨root, path, .enter⟩ ∈ marks)
    (hcells : cells' = cells.addAll (some id) (parent.kids (t.children node) t.fresh)) :
    (∀ item ∈ Work.inside id cells.size (t.children node).locations.length,
        t.Waits roots cells' marks item)
      ∧ (Work.inside id cells.size (t.children node).locations.length).flatMap (t.owed n cells')
        = (t.children node).locations.flatMap (fun located =>
            unfolding t.children root (n + 1 - (node :: above).length) (located.1 :: path)
              (node :: above) located.2)
          ++ [⟨root, path, .leave⟩] := by
  have hkid : ∀ i located, (t.children node).locations[i]? = some located → _ :=
    fun i located hget => waits_kid h hdown hnodup parent n marks hget hcells
  have hstands : cells'.Stands id root ⟨path, node :: above⟩ :=
    hcells ▸ h.congr fun j hj => Cells.spot?_addAll_of_lt _ _ _ hj
  constructor
  · intro item hitem
    rcases Work.mem_inside_iff.1 hitem with ⟨i, hi, rfl⟩ | rfl
    · exact (hkid i _ (List.getElem?_eq_getElem hi)).1
    · exact ⟨root, _, hstands, hdown, hmark⟩
  · rw [Work.inside, List.flatMap_append, List.flatMap_map, List.flatMap_singleton,
      t.owed_leave n hstands]
    exact congrArg (· ++ _) (flatMap_range' fun i located hget => (hkid i located hget).2)

/-- The callbacks that were made and those that are owed are together the callbacks of
the graph. -/
structure Progress (t : Traversal N D S) (ids : List NodeId) (roots : List N)
    (w : Worklist N D (List (Context N D) × S)) : Prop where
  quit : w.quit = false
  /-- Each context has one item of work at most. -/
  distinct : (w.pending.map Work.id).Nodup
  waits : ∀ item ∈ w.pending, t.Waits roots w.cells (w.state.1.map Context.mark) item
  /-- The visitor saw the nodes along the paths. -/
  sees : ∀ c ∈ w.state.1, Descends t.children roots c.mark.root ⟨c.mark.path, c.sight.nodes⟩
  perm : (w.state.1.map Context.mark ++ w.pending.flatMap (t.owed ids.length w.cells)).Perm
    (unfoldings t.children ids.length roots)
  entered : w.entered = (w.state.1.map Context.mark).countP fun mark => mark.phase = .enter
  later : ∀ i path, ⟨i, path, .leave⟩ ∈ w.state.1.map Context.mark →
    [⟨i, path, .enter⟩, ⟨i, path, .leave⟩].Sublist (w.state.1.map Context.mark)

/-- An item makes its first callback and leaves the others to new items, which go
anywhere on the list. -/
theorem Progress.advance (h : Progress t ids roots w) {item : Work} {pending fresh : List Work}
    {c : Context N D} (hpending : w.pending = item :: pending)
    (hcells : Cells.Unmoved item.id w.cells w'.cells) (hlog : w'.state.1 = w.state.1 ++ [c])
    (hquit : w'.quit = false)
    (hentered : w'.entered = w.entered + if c.mark.phase = .enter then 1 else 0)
    (horder : w'.pending.Perm (fresh ++ pending)) (hids : (fresh.map Work.id).Nodup)
    (hnew : ∀ new ∈ fresh, new.id = item.id ∨ w.cells.size ≤ new.id)
    (hfresh : ∀ new ∈ fresh, t.Waits roots w'.cells (w'.state.1.map Context.mark) new)
    (howed : t.owed ids.length w.cells item
      = c.mark :: fresh.flatMap (t.owed ids.length w'.cells))
    (hsees : Descends t.children roots c.mark.root ⟨c.mark.path, c.sight.nodes⟩)
    (hlater : c.mark.phase = .leave →
      ⟨c.mark.root, c.mark.path, .enter⟩ ∈ w.state.1.map Context.mark) :
    Progress t ids roots w' := by
  have hdistinct := h.distinct
  rw [hpending, List.map_cons, List.nodup_cons] at hdistinct
  have hmarks : w'.state.1.map Context.mark = w.state.1.map Context.mark ++ [c.mark] := by
    rw [hlog, List.map_append, List.map_singleton]
  have hothers : ∀ other ∈ pending, other.id < w.cells.size
      ∧ t.Waits roots w'.cells (w'.state.1.map Context.mark) other
      ∧ t.owed ids.length w'.cells other = t.owed ids.length w.cells other := by
    intro other hother
    have hwaits := h.waits other (hpending ▸ List.mem_cons_of_mem _ hother)
    have hne : other.id ≠ item.id := fun he => hdistinct.1 (he ▸ List.mem_map_of_mem hother)
    rw [hmarks]
    exact ⟨hwaits.lt_size, hwaits.unmoved hcells hne _ _⟩
  refine ⟨hquit, ?_, fun other hother => ?_, fun d hd => ?_, ?_, ?_, ?_⟩
  · rw [(horder.map Work.id).nodup_iff, List.map_append, List.nodup_append]
    refine ⟨hids, hdistinct.2, fun a ha b hb hab => ?_⟩
    obtain ⟨new, hnew', rfl⟩ := List.mem_map.1 ha
    obtain ⟨other, hother, rfl⟩ := List.mem_map.1 hb
    rcases hnew new hnew' with hitem | hsize
    · exact hdistinct.1 (hitem ▸ hab ▸ hb)
    · exact absurd (hothers other hother).1 (Nat.not_lt.2 (hab ▸ hsize))
  · rcases List.mem_append.1 (horder.mem_iff.1 hother) with hnew' | hold
    · exact hfresh other hnew'
    · exact (hothers other hold).2.1
  · rw [hlog, List.mem_append, List.mem_singleton] at hd
    rcases hd with hd | rfl
    · exact h.sees d hd
    · exact hsees
  · have hperm := h.perm
    rw [hpending, List.flatMap_cons, howed] at hperm
    have hrest : (w'.pending.flatMap (t.owed ids.length w'.cells)).Perm
        (fresh.flatMap (t.owed ids.length w'.cells)
          ++ pending.flatMap (t.owed ids.length w.cells)) := by
      have hsame : pending.flatMap (t.owed ids.length w'.cells)
          = pending.flatMap (t.owed ids.length w.cells) :=
        List.flatMap_congr fun other hother => (hothers other hother).2.2
      rw [← hsame, ← List.flatMap_append]
      exact horder.flatMap_right _
    rw [hmarks, List.append_assoc, List.singleton_append]
    exact (List.Perm.append_left _ (hrest.cons _)).trans hperm
  · rw [hentered, hmarks, List.countP_append, h.entered, List.countP_singleton]
    simp
  · intro i path hmem
    rw [hmarks] at hmem ⊢
    rcases List.mem_append.1 hmem with hmem | hmem
    · exact (h.later i path hmem).trans (List.sublist_append_left ..)
    · rw [List.mem_singleton] at hmem
      rw [← hmem] at hlater ⊢
      exact (List.singleton_sublist.2 (hlater rfl)).append (List.Sublist.refl _)

/-! ## One item of work -/

omit [Identified N] in
/-- The new items of a node that was entered, and where they are put. -/
theorem expand_eq (t : Traversal N D S) {w : Worklist N D S} {id : Nat} {cell : Cell N D}
    (hcell : w.cells[id]? = some cell) (hdeleted : cell.frame.deleted = false) :
    t.expand w id
      = { w with
          cells := w.cells.addAll (some id)
            (cell.frame.kids (t.children cell.frame.node) t.fresh)
          pending := schedule t.order id (List.range' w.cells.size
            (t.children cell.frame.node).locations.length) w.pending } := by
  simp [expand, hcell, hdeleted, Frame.kids]

omit [Identified N] in
/-- In either order the new items are added to those that wait. -/
theorem schedule_perm (order : TraversalOrder) (id made count : Nat) (pending : List Work) :
    (schedule order id (List.range' made count) pending).Perm
      (Work.inside id made count ++ pending) := by
  cases order with
  | depthFirst => simp [schedule, Work.inside]
  | breadthFirst =>
    rw [schedule, List.append_assoc pending]
    exact List.perm_append_comm

/-- An item that is owed one callback and is done with it. -/
theorem Progress.last (h : Progress t ids roots w) {item : Work} {pending : List Work}
    (hpending : w.pending = item :: pending) {root : Nat} {way : Way N}
    (hstands : w.cells.Stands item.id root way) (hdown : Descends t.children roots root way)
    {cell : Cell N D} (hcell : w.cells[item.id]? = some cell) {frame : Frame N D}
    (hcalled : t.Called { w with pending } item.id frame w')
    (hnode : frame.node = cell.frame.node) (hlocation : frame.location = cell.frame.location)
    (hdeleted : frame.deleted = cell.frame.deleted) (hphase : frame.phase ≠ .enter)
    (howed : t.owed ids.length w.cells item = [⟨root, way.path, frame.phase⟩])
    (hlater : frame.phase = .leave →
      ⟨root, way.path, .enter⟩ ∈ w.state.1.map Context.mark) :
    Progress t ids roots w' := by
  obtain ⟨data, hcells⟩ := hcalled.cells
  obtain ⟨hmark, hnodes⟩ := hstands.context t.rootData hcell frame hnode hlocation
  have horder : w'.pending.Perm ([] ++ pending) := .of_eq hcalled.pending
  refine h.advance hpending
    (hcells ▸ Cells.unmoved_setFrame hcell hnode hlocation hdeleted) hcalled.log
    hcalled.quit ?_ horder List.nodup_nil (List.forall_mem_nil _) (List.forall_mem_nil _) ?_ ?_ ?_
  · rw [hmark, if_neg hphase]
    exact hcalled.entered
  · rw [howed, hmark, List.flatMap_nil]
  · rw [hmark, hnodes]
    exact hdown
  · rw [hmark]
    exact hlater

/-- The end mark of a node: it is left. -/
theorem Progress.work_leave (h : Progress t ids roots w) (ht : t.Passive) {id : Nat}
    {pending : List Work} (hpending : w.pending = .leave id :: pending) :
    ∃ w', t.logged.work { w with pending } (.leave id) = .ok w' ∧ Progress t ids roots w'
      ∧ w'.state.1.length = w.state.1.length + 1 := by
  obtain ⟨root, way, hstands, hdown, hentered⟩ :=
    h.waits (.leave id) (hpending ▸ List.mem_cons_self ..)
  obtain ⟨cell, hcell, -⟩ := hstands.exists_cell
  obtain ⟨w', hcall, hcalled⟩ :=
    ht.call { w with pending } id { cell.frame with phase := .leave }
  have howed := t.owed_leave ids.length hstands
  refine ⟨w', ?_, ?_, by simp [hcalled.log]⟩
  · simp only [work, hcell, hcall]
    rfl
  · exact h.last hpending hstands hdown hcell hcalled rfl rfl rfl (by simp) howed
      fun _ => hentered

/-- The visit of a node that repeats one above it: its back reference. -/
theorem Progress.work_repeats (h : Progress t ids roots w) (ht : t.Passive) {id root : Nat}
    {path : List Location} {node : N} {above : List N} {pending : List Work}
    (hpending : w.pending = .visit id :: pending)
    (hstands : w.cells.Stands id root ⟨path, node :: above⟩)
    (hdown : Descends t.children roots root ⟨path, node :: above⟩)
    (hlength : above.length ≤ ids.length) (hrep : nodeId node ∈ above.map nodeId) :
    ∃ w', t.logged.work { w with pending } (.visit id) = .ok w' ∧ Progress t ids roots w'
      ∧ w'.state.1.length = w.state.1.length + 1 := by
  obtain ⟨cell, hcell, -⟩ := hstands.exists_cell
  obtain ⟨w', hcall, hcalled⟩ :=
    ht.call { w with pending } id { cell.frame with visited := true, phase := .backRef }
  have habove : (w.cells.context t.logged.rootData id cell.frame).sight.repeatsAbove = true :=
    (hstands.repeatsAbove_iff t.rootData hcell).2 hrep
  have howed := t.owed_visit_of_repeats hstands hlength hrep
  refine ⟨w', ?_, ?_, by simp [hcalled.log]⟩
  · simp only [work, hcell, habove, if_true, hcall]
    rfl
  · exact h.last hpending hstands hdown hcell hcalled rfl rfl rfl (by simp) howed
      fun hphase => absurd hphase (by simp)

/-- The visit of any other node: it is entered, and its children and its end mark go on
the list. -/
theorem Progress.work_simple (h : Progress t ids roots w) (ht : t.Passive) {id root : Nat}
    {path : List Location} {node : N} {above : List N} {pending : List Work}
    (hpending : w.pending = .visit id :: pending)
    (hstands : w.cells.Stands id root ⟨path, node :: above⟩)
    (hdown : Descends t.children roots root ⟨path, node :: above⟩)
    (hlength : above.length ≤ ids.length) (hnodup : (above.map nodeId).Nodup)
    (hphase : ∀ cell ∈ w.cells[id]?, cell.frame.phase = .enter)
    (hrep : nodeId node ∉ above.map nodeId) :
    ∃ w', t.logged.work { w with pending } (.visit id) = .ok w' ∧ Progress t ids roots w'
      ∧ w'.state.1.length = w.state.1.length + 1 := by
  obtain ⟨cell, hcell, hdeleted, hnode, -⟩ := hstands.exists_cell
  obtain rfl : node = cell.frame.node := (List.cons.inj hnode).1
  obtain ⟨w', hcall, hcalled⟩ :=
    ht.call { w with pending, entered := w.entered + 1 } id cell.frame
  obtain ⟨data, hcells⟩ := hcalled.cells
  obtain ⟨hmark, hnodes⟩ := hstands.context t.rootData hcell cell.frame rfl rfl
  rw [hphase cell hcell] at hmark
  have hcell' : w'.cells[id]? = some ⟨{ cell.frame with data }, cell.parent⟩ := by
    rw [hcells, Cells.getElem?_setFrame, if_pos rfl, hcell]
    rfl
  have hunmoved : Cells.Unmoved id w.cells w'.cells :=
    hcells ▸ Cells.unmoved_setFrame hcell rfl rfl rfl
  have hstands' : w'.cells.Stands id root ⟨path, cell.frame.node :: above⟩ :=
    hstands.congr hunmoved.spots
  refine ⟨t.logged.expand w' id, ?_, ?_, ?_⟩
  · have habove : ¬ (w.cells.context t.logged.rootData id cell.frame).sight.repeatsAbove = true :=
      mt (hstands.repeatsAbove_iff t.rootData hcell).1 hrep
    simp only [work, hcell, if_neg habove, hcall]
    rfl
  · rw [t.logged.expand_eq hcell' hdeleted]
    have hentered : ⟨root, path, .enter⟩ ∈ w'.state.1.map Context.mark := by
      rw [hcalled.log, List.map_append, List.map_singleton, hmark]
      exact List.mem_append_right _ (List.mem_singleton_self _)
    obtain ⟨hinside, howed⟩ := waits_inside hstands' hdown (List.nodup_cons.2 ⟨hrep, hnodup⟩)
      { cell.frame with data } ids.length hentered rfl
    refine h.advance hpending (hunmoved.addAll _ _) hcalled.log hcalled.quit ?_
      ((schedule_perm ..).trans (.of_eq (congrArg _ hcalled.pending)))
      (Work.nodup_inside hstands'.lt_size _) ?_ hinside ?_ ?_ ?_
    · rw [hmark]
      exact hcalled.entered
    · intro new hnew
      rcases Work.mem_inside_iff.1 hnew with ⟨i, -, rfl⟩ | rfl
      · exact .inr (Nat.le_trans hunmoved.size_le (Nat.le_add_right _ _))
      · exact .inl rfl
    · rw [t.owed_visit_of_simple hstands hlength hrep, hmark]
      exact congrArg (_ :: ·) howed.symm
    · rw [hmark, hnodes]
      exact hdown
    · rw [hmark]
      exact fun hphase => absurd hphase (by simp)
  · rw [t.logged.expand_eq hcell' hdeleted]
    simp [hcalled.log]

/-- Each item of work makes one callback. -/
theorem Progress.work (h : Progress t ids roots w) (ht : t.Passive)
    (hids : StaysIn t.children ids) (hroots : ∀ root ∈ roots, nodeId root ∈ ids) {item : Work}
    {pending : List Work} (hpending : w.pending = item :: pending) :
    ∃ w', t.logged.work { w with pending } item = .ok w' ∧ Progress t ids roots w'
      ∧ w'.state.1.length = w.state.1.length + 1 := by
  cases item with
  | leave id => exact h.work_leave ht hpending
  | visit id =>
    obtain ⟨root, path, node, above, hstands, hdown, hnodup, hphase⟩ :=
      h.waits (.visit id) (hpending ▸ List.mem_cons_self ..)
    have hlength : above.length ≤ ids.length := length_le_of_nodup hnodup fun m hm =>
      hdown.mem_ids hids hroots m (List.mem_cons_of_mem _ hm)
    by_cases hrep : nodeId node ∈ above.map nodeId
    · exact h.work_repeats ht hpending hstands hdown hlength hrep
    · exact h.work_simple ht hpending hstands hdown hlength hnodup hphase hrep

/-! ## Whole walks -/

/-- At the beginning nothing was called and each root is owed what is below it. -/
theorem Progress.start (t : Traversal N D S) (ids : List NodeId) (roots : List N) (state : S) :
    Progress t ids roots (t.logged.start roots ([], state)) := by
  have hcell : ∀ (i : Nat) (root : N), roots[i]? = some root →
      (t.logged.start roots ([], state)).cells[i]? = some (⟨.root root t.fresh, none⟩ : Cell N D) := by
    intro i root hroot
    have hget := Cells.getElem?_addAll_add (#[] : Cells N D) none
      (roots.map fun node => Frame.root node t.fresh) i
    simpa [Traversal.start, logged, hroot] using hget
  have hstands : ∀ (i : Nat) (root : N), roots[i]? = some root →
      (t.logged.start roots ([], state)).cells.Stands i i ⟨[], [root]⟩ := by
    intro i root hroot
    refine .root ?_
    rw [Cells.spot?, hcell i root hroot]
    rfl
  refine ⟨rfl, ?_, fun item hitem => ?_, List.forall_mem_nil _, ?_, rfl,
    fun i path hmem => absurd hmem List.not_mem_nil⟩
  · have hpending : ((t.logged.start roots ([], state)).pending.map Work.id)
        = List.range roots.length := by
      rw [Traversal.start, List.map_map]
      exact List.map_id _
    rw [hpending]
    exact List.nodup_range
  · obtain ⟨i, hi, rfl⟩ := List.mem_map.1 hitem
    obtain ⟨root, hroot⟩ : ∃ root, roots[i]? = some root :=
      ⟨_, List.getElem?_eq_getElem (List.mem_range.1 hi)⟩
    refine ⟨i, _, _, _, hstands i _ hroot, ⟨_, hroot, .refl⟩, List.nodup_nil, ?_⟩
    rw [hcell i _ hroot]
    rintro _ ⟨⟩
    rfl
  · have howed : ∀ (i : Nat) (p : N × Nat), roots.zipIdx[i]? = some p →
        t.owed ids.length (t.logged.start roots ([], state)).cells (.visit (0 + i))
          = unfolding t.children p.2 (ids.length + 1) [] [] p.1 := by
      intro i p hp
      rw [List.getElem?_zipIdx, Option.map_eq_some_iff] at hp
      obtain ⟨root, hroot, rfl⟩ := hp
      rw [Nat.zero_add, t.owed_visit _ (hstands i root hroot)]
      rfl
    have hpending : (t.logged.start roots ([], state)).pending
        = (List.range' 0 roots.zipIdx.length).map .visit := by
      rw [List.length_zipIdx, ← List.range_eq_range']
      rfl
    refine .of_eq ?_
    rw [hpending, List.flatMap_map]
    exact flatMap_range' howed

/-- The list is worked off with as many turns as there are callbacks left. -/
theorem Progress.run (ht : t.Passive) (hids : StaysIn t.children ids)
    (hroots : ∀ root ∈ roots, nodeId root ∈ ids) {limit : Nat}
    (h : Progress t ids roots w)
    (hlimit : (unfoldings t.children ids.length roots).length ≤ w.state.1.length + limit) :
    ∃ w', t.logged.run limit w = .done w' ∧ Progress t ids roots w' ∧ w'.pending = [] := by
  have hnext : ∀ {w : Worklist N D (List (Context N D) × S)}, Progress t ids roots w →
      w.pending = [] ∨ ∃ item pending w', w.pending = item :: pending
        ∧ t.logged.work { w with pending } item = .ok w' ∧ Progress t ids roots w'
        ∧ w'.state.1.length = w.state.1.length + 1 := by
    intro w h
    cases hpending : w.pending with
    | nil => exact .inl rfl
    | cons item pending =>
      obtain ⟨w', hwork⟩ := h.work ht hids hroots hpending
      exact .inr ⟨item, pending, w', rfl, hwork⟩
  induction limit generalizing w with
  | zero =>
    rcases hnext h with hpending | ⟨item, pending, w', -, -, h', hlength⟩
    · exact ⟨w, by simp [Traversal.run, hpending], h, hpending⟩
    · -- no more callbacks than the graph has
      have hall := h'.perm.length_eq
      rw [List.length_append, List.length_map] at hall
      omega
  | succ limit ih =>
    rcases hnext h with hpending | ⟨item, pending, w', hpending, hwork, h', hlength⟩
    · exact ⟨w, by simp [Traversal.run, hpending], h, hpending⟩
    · obtain ⟨w'', hrun, hprogress⟩ := ih h' (by omega)
      refine ⟨w'', ?_, hprogress⟩
      rw [Traversal.run, if_neg (by simp [h.quit]), hpending]
      simp only [hwork]
      exact hrun

/-- A passive visitor is called exactly for the callbacks of the graph, in either order
of the work list, and sees the nodes along the paths. -/
theorem explores_walk (ht : t.Passive) (hids : StaysIn t.children ids)
    (hroots : ∀ root ∈ roots, nodeId root ∈ ids) (state : S) :
    ∃ w, Run.Settles (fun limit => t.logged.walk limit roots ([], state)) (.done w)
      ∧ w.quit = false
      ∧ Explores t.children roots (w.state.1.map Context.mark) w.entered
      ∧ ∀ c ∈ w.state.1, Descends t.children roots c.mark.root ⟨c.mark.path, c.sight.nodes⟩ := by
  obtain ⟨w, hrun, h, hpending⟩ := Progress.run ht hids hroots (Progress.start t ids roots state)
    (Nat.le_add_left _ _)
  have hperm := h.perm
  rw [hpending, List.flatMap_nil, List.append_nil] at hperm
  have hexplores := explores_of_perm hids hroots hperm h.later
  rw [← h.entered] at hexplores
  exact ⟨w, ⟨by simp, _, hrun⟩, h.quit, hexplores, h.sees⟩

end Traversal

end Topiary
