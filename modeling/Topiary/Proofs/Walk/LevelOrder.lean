/-
Topiary.Proofs.Walk.LevelOrder — what it means for callbacks to come breadth first.

* `Call`, `Traversal.journaled` — a callback with its answer, and the walk that writes
  all of them down.
* `Call.address` — where a node lies: the position of its root, then position by position
  down, group by group and index by index among the children of each node as they were
  when it was entered.
* `LevelOrder` — the order of the callbacks.
* `Traversal.journaled_cases` — a breadth-first turn: the call it writes down and what it
  leaves behind.
-/
import Topiary.Proofs.Walk.Lineage
import Topiary.Proofs.Walk.Turn

namespace Topiary

variable {N D S : Type}

/-! ## Calls -/

/-- A callback: the context it was given, how it says to go on, and the frame as it left
it. -/
structure Call (N D : Type) where
  context : Context N D
  control : Control
  after : Frame N D
deriving DecidableEq, Repr

namespace Call

def id (c : Call N D) : Nat := c.context.id

/-- The frame that the callback was shown. -/
def frame (c : Call N D) : Frame N D := c.context.sight.frame

/-- The number of the parent. -/
def parent? (c : Call N D) : Option Nat := c.context.idsAbove.head?

/-- The callback is `leave`, and not a visit. -/
def isLeave (c : Call N D) : Bool := c.frame.phase == .leave

/-- A node was entered that is to be descended into. -/
def descends (c : Call N D) : Bool := c.frame.phase == .enter && c.control == .proceed

/-- The item of work that the callback is made for. -/
def item (c : Call N D) : Work := if c.isLeave then .leave c.id else .visit c.id

/-- The children of the node as the callback left it; there are none if it was deleted. -/
def kids (children : N → NamedChildren N) (c : Call N D) : List (Location × N) :=
  if c.after.deleted then [] else (children c.after.node).locations

/-- The children of the node with this number, as they were when it was entered. -/
def kidsOf (children : N → NamedChildren N) (calls : List (Call N D)) (id : Nat) :
    List (Location × N) :=
  match calls.find? fun c => c.descends && c.id == id with
  | some c => c.kids children
  | none => []

/-- The position of a child among the children of the node with this number. -/
def position (children : N → NamedChildren N) (calls : List (Call N D)) (id : Nat)
    (l : Location) : Nat :=
  ((kidsOf children calls id).map Prod.fst).idxOf l

end Call

/-- The number of the root above, and the positions on the way down from it, if `position`
tells them from the number of the parent and the location. -/
def addressOf (position : Nat → Location → Nat) (id : Nat) (ids : List Nat)
    (path : List Location) : List Nat :=
  ids.getLastD id :: (List.zipWith position ids path).reverse

/-- Where the node of a callback lies: the position of its root, then the position of each
node on the way down among the children of the one before. -/
def Call.address (children : N → NamedChildren N) (calls : List (Call N D)) (c : Call N D) :
    List Nat :=
  addressOf (Call.position children calls) c.id c.context.idsAbove c.context.sight.path

/-- The order of the callbacks in a breadth-first walk, where the end marks of `waiting` are
still on the list. -/
structure LevelOrder (children : N → NamedChildren N) (roots : List N) (calls : List (Call N D))
    (waiting : List Nat) : Prop where
  /-- What is visited is a root, numbered by its position, or a child of a node that was
  descended into. -/
  visited : ∀ v ∈ calls, v.isLeave = false →
    (v.context.idsAbove = [] ∧ v.context.sight.path = [] ∧ roots[v.id]? = some v.frame.reached)
    ∨ ∃ x ∈ calls, x.descends = true ∧ ∃ l, (l, v.frame.reached) ∈ x.kids children
      ∧ v.context.idsAbove = x.id :: x.context.idsAbove
      ∧ v.context.sight.path = l :: x.context.sight.path
  /-- No node is visited twice, none is left twice. -/
  once : (calls.map Call.item).Nodup
  /-- Visits come level by level, and in each level by address. -/
  visits : (calls.filter fun c => !c.isLeave).Pairwise fun a b => a.frame.depth < b.frame.depth
    ∨ a.frame.depth = b.frame.depth ∧ a.address children calls < b.address children calls
  /-- The nodes that were descended into are left in the order of their visits, but for the
  last ones, whose end marks wait. -/
  leaves : (calls.filter Call.descends).map Call.id
    = (calls.filter Call.isLeave).map Call.id ++ waiting
  /-- All children of a node are visited before it is left. -/
  childrenFirst : ∀ x ∈ calls, x.descends = true → ∀ y ∈ calls, y.isLeave = true → y.id = x.id →
    (∀ (i : Nat) l k, (x.kids children)[i]? = some (l, k) → ∃ v, [v, y].Sublist calls
      ∧ v.isLeave = false ∧ v.parent? = some x.id ∧ v.frame.location = some l ∧ v.frame.reached = k)
    ∧ ∀ v ∈ calls, v.isLeave = false → v.parent? = some x.id → [v, y].Sublist calls
  /-- A node is left before the children of any node that is visited after it. -/
  nephewsLater : ∀ x y v, [x, y].Sublist calls → x.descends = true → y.isLeave = false →
    v ∈ calls → v.isLeave = false → v.parent? = some y.id →
    ∃ z, [z, v].Sublist calls ∧ z.isLeave = true ∧ z.id = x.id

/-! ### Calls by phase -/

namespace Call

variable {c : Call N D}

theorem of_leave (h : c.frame.phase = .leave) :
    c.item = .leave c.id ∧ c.isLeave = true ∧ c.descends = false := by
  simp [item, isLeave, descends, h]

theorem of_backRef (h : c.frame.phase = .backRef) :
    c.item = .visit c.id ∧ c.isLeave = false ∧ c.descends = false := by
  simp [item, isLeave, descends, h]

theorem of_enter (h : c.frame.phase = .enter) :
    c.item = .visit c.id ∧ c.isLeave = false ∧ c.descends = (c.control == .proceed) := by
  simp [item, isLeave, descends, h]

end Call

/-! ## Writing calls down -/

namespace Traversal

/-- The same walk, with its callbacks and their answers written down. -/
def journaled (t : Traversal N D S) : Traversal N D (List (Call N D) × S) where
  children := t.children
  order := t.order
  visitor := fun c s => do
    let a ← t.visitor c s.2
    let call : Call N D := ⟨c, a.control, c.sight.frame.update a⟩
    return ⟨a.control, a.node, a.deleted, a.data, (s.1 ++ [call], a.state)⟩
  fresh := t.fresh
  rootData := t.rootData

/-- Writing a callback down changes nothing else. -/
theorem journaled_extends (t : Traversal N D S) : t.journaled.Extends t Prod.snd where
  children := rfl
  order := rfl
  fresh := rfl
  rootData := rfl
  visitor := fun c s => by
    simp only [journaled]
    cases t.visitor c s.2 <;> rfl

/-- The call that is written down tells what the callback has answered. -/
theorem answer_of_journaled {t : Traversal N D S} {c : Context N D} {s : List (Call N D) × S}
    {a : Answer N D (List (Call N D) × S)} (h : t.journaled.visitor c s = .ok a) :
    a.state.1 = s.1 ++ [⟨c, a.control, c.sight.frame.update a⟩] := by
  cases hvisit : t.visitor c s.2 with
  | error f => simp [journaled, hvisit, bind, Except.bind] at h
  | ok b =>
    simp only [journaled, hvisit, bind, Except.bind, pure, Except.pure, Except.ok.injEq] at h
    rw [← h]
    rfl

end Traversal

/-! ## What a call brings about -/

namespace Call

variable (t : Traversal N D S)

/-- The frames of the children for which contexts are made. -/
def newFrames (c : Call N D) : List (Frame N D) :=
  if c.descends then t.kidFrames c.after else []

/-- The items that are put on the list, if so many contexts were made before. -/
def newWork (made : Nat) (c : Call N D) : List Work :=
  if c.descends then Work.inside c.id made (c.newFrames t).length else []

theorem kidFrames_after (c : Call N D) : t.kidFrames c.after
    = (c.kids t.children).map fun located => c.after.child located.1 located.2 t.fresh := by
  rw [Traversal.kidFrames, Frame.kids, kids]
  cases c.after.deleted <;> rfl

end Call

/-- The call of a turn is made for its item.  If it does not descend, only its own frame is
another one; otherwise the node is expanded. -/
theorem Traversal.Turn.call_cases {t : Traversal N D S} {w x : Worklist N D S} {item : Work}
    {c : Context N D} {a : Answer N D S} (h : t.Turn w item c a x) (hid : c.id = item.id)
    (hfresh : ∀ id cell, item = .visit id → w.cells[id]? = some cell → cell.frame.phase = .enter)
    {call : Call N D} (hcall : call = ⟨c, a.control, c.sight.frame.update a⟩) :
    call.item = item
      ∧ (call.descends = false ∧ x.cells = w.cells.setFrame c.id call.after ∧ x.pending = w.pending
        ∨ call.descends = true
          ∧ x = t.expand { w.answered c a with entered := w.entered + 1 } c.id) := by
  subst hcall
  cases h with
  | @leave id _ _ phase =>
    obtain ⟨hitem, -, hdescends⟩ :=
      Call.of_leave (c := ⟨c, a.control, c.sight.frame.update a⟩) phase
    exact ⟨hitem.trans (congrArg Work.leave hid), .inl ⟨hdescends, rfl, rfl⟩⟩
  | @backRef id _ _ phase =>
    obtain ⟨hitem, -, hdescends⟩ :=
      Call.of_backRef (c := ⟨c, a.control, c.sight.frame.update a⟩) phase
    exact ⟨hitem.trans (congrArg Work.visit hid), .inl ⟨hdescends, rfl, rfl⟩⟩
  | @halt id _ _ found control =>
    obtain ⟨parent, hfound⟩ := found
    obtain ⟨hitem, -, hdescends⟩ := Call.of_enter (c := ⟨c, a.control, c.sight.frame.update a⟩)
      (hfresh id _ rfl hfound)
    exact ⟨hitem.trans (congrArg Work.visit hid),
      .inl ⟨hdescends.trans (beq_eq_false_iff_ne.2 control), rfl, rfl⟩⟩
  | @descend id _ _ found control =>
    obtain ⟨parent, hfound⟩ := found
    obtain ⟨hitem, -, hdescends⟩ := Call.of_enter (c := ⟨c, a.control, c.sight.frame.update a⟩)
      (hfresh id _ rfl hfound)
    exact ⟨hitem.trans (congrArg Work.visit hid),
      .inr ⟨hdescends.trans (beq_iff_eq.2 control), rfl⟩⟩

/-- A turn of a breadth-first walk: what the callback was shown, the call that is written
down, and the work list after it.  What waits to be visited is yet to be entered. -/
theorem Traversal.journaled_cases [Identified N] {t : Traversal N D S}
    (ht : t.order = .breadthFirst) {w x : Worklist N D (List (Call N D) × S)}
    (hnext : t.journaled.next? w = some x) (hmade : ∀ item ∈ w.pending, item.id < w.cells.size)
    (hfresh : ∀ id cell, .visit id ∈ w.pending → w.cells[id]? = some cell →
      cell.frame.phase = .enter) :
    ∃ (call : Call N D) (cell : Cell N D) (pending : List Work),
      w.pending = call.item :: pending ∧ w.cells[call.id]? = some cell
      ∧ call.context = w.cells.context t.rootData call.id call.frame
      ∧ (∀ parent, call.frame.place parent = cell.frame.place parent)
      ∧ (∀ parent, call.after.place parent = cell.frame.place parent)
      ∧ x.state.1 = w.state.1 ++ [call]
      ∧ x.cells = (w.cells.setFrame call.id call.after).addAll (some call.id) (call.newFrames t)
      ∧ x.pending = pending ++ call.newWork t w.cells.size := by
  obtain ⟨item, pending, hpending, -, hcases⟩ := next_cases hnext
  have hhead : item ∈ w.pending := hpending ▸ List.mem_cons_self ..
  rcases hcases with ⟨hnone, -⟩ | ⟨c, a, hhanded, ha, hturn⟩
  · exact absurd hnone (by simp [hmade item hhead])
  obtain ⟨cell, hcell, rfl⟩ := exists_cell_of_handed hhanded
  obtain ⟨phase, visited, hframe⟩ := t.journaled.shownFrame_eq w.cells cell.frame item
  obtain ⟨hitem, hafter⟩ :=
    hturn.call_cases rfl (fun id cell hvisit => hfresh id cell (hvisit ▸ hhead)) rfl
  refine ⟨_, cell, pending, hpending.trans (congrArg (· :: pending) hitem.symm), hcell, rfl,
    fun parent => ?_, fun parent => ?_, hturn.state_eq ▸ answer_of_journaled ha, ?_⟩
  · simp only [Call.frame, Cells.context, hframe]
    rfl
  · simp only [Cells.context, hframe]
    rfl
  rcases hafter with ⟨hdescends, hcells, hrest⟩ | ⟨hdescends, rfl⟩
  · rw [Call.newFrames, Call.newWork, hdescends]
    exact ⟨hcells, hrest.trans (List.append_nil _).symm⟩
  · -- the cell of the node, as the callback has left it
    have hown : (w.cells.setFrame item.id
        ((t.journaled.shownFrame w.cells cell.frame item).update a))[item.id]?
        = some ⟨(t.journaled.shownFrame w.cells cell.frame item).update a, cell.parent⟩ := by
      rw [Cells.getElem?_setFrame, if_pos rfl, hcell]
      rfl
    rw [t.journaled.expand_eq_kids hown]
    simp only [Call.newFrames, Call.newWork, hdescends, if_true]
    refine ⟨rfl, ?_⟩
    rw [show t.journaled.order = .breadthFirst from ht, TraversalOrder.put]
    simp only [Worklist.answered, Cells.context, Cells.size_setFrame]
    rfl

end Topiary
