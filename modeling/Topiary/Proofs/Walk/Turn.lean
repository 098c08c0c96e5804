/-
Topiary.Proofs.Walk.Turn — what one turn of the loop can do.

An item of work hands one context to the visitor.  All that happens next is
told by the item, this context and the answer.

* `Traversal.handed?`, `Traversal.calling?` — the context that an item, or the
  next turn, hands to the visitor.
* `Traversal.Turn` — a turn: the work list before it, the item, the context,
  the answer, and the work list after it.
* `Traversal.work_of_handed`, `Traversal.next_cases` — each item of work is a
  turn, or fails as its callback does.
* `Traversal.expand_eq_kids` — the contexts and items that a node which is
  descended into brings.
-/
import Topiary.Proofs.Walk.Errands
import Topiary.Proofs.Walk.Reach

namespace Topiary

variable {N D S : Type}

/-- The work list after a callback on the context `c`, with the item taken off. -/
def Worklist.answered (w : Worklist N D S) (c : Context N D) (a : Answer N D S) : Worklist N D S :=
  { w with
    cells := w.cells.setFrame c.id (c.sight.frame.update a)
    state := a.state
    quit := a.control == .quit }

namespace Traversal

/-- The contexts and items that a node which is descended into brings. -/
theorem expand_eq_kids (t : Traversal N D S) {w : Worklist N D S} {id : Nat} {cell : Cell N D}
    (hcell : w.cells[id]? = some cell) :
    t.expand w id
      = { w with
          cells := w.cells.addAll (some id) (t.kidFrames cell.frame)
          pending := t.order.put
            (Work.inside id w.cells.size (t.kidFrames cell.frame).length) w.pending } := by
  simp only [expand, hcell, ← schedule_eq_put]
  rfl

/-- The frames of the children of a node are those of its children's listing, unless the
node is marked as deleted. -/
theorem getElem?_kidFrames (t : Traversal N D S) (frame : Frame N D) (i : Nat) :
    (t.kidFrames frame)[i]? = if frame.deleted then none
      else ((t.children frame.node).locations[i]?).map fun located =>
        frame.child located.1 located.2 t.fresh := by
  rw [kidFrames, Frame.kids, List.getElem?_map]
  cases frame.deleted <;> rfl

variable [Identified N]

/-- The frame of a context, with the marks with which the callback of an item is shown it. -/
def shownFrame (t : Traversal N D S) (cells : Cells N D) (frame : Frame N D) : Work → Frame N D
  | .leave _ => { frame with phase := .leave }
  | .visit id =>
    if (cells.context t.rootData id frame).sight.repeatsAbove then
      { frame with visited := true, phase := .backRef }
    else frame

/-- The context that an item of work hands to the visitor. -/
def handed? (t : Traversal N D S) (cells : Cells N D) (item : Work) : Option (Context N D) :=
  (cells[item.id]?).map fun cell =>
    cells.context t.rootData item.id (t.shownFrame cells cell.frame item)

/-- The context that the next turn hands to the visitor, if there is one. -/
def calling? (t : Traversal N D S) (w : Worklist N D S) : Option (Context N D) :=
  if w.quit then none else w.pending.head?.bind (t.handed? w.cells)

/-- One turn of the loop, with the item taken off before it. -/
inductive Turn (t : Traversal N D S) (w : Worklist N D S) :
    Work → Context N D → Answer N D S → Worklist N D S → Prop
  /-- The end mark of a node. -/
  | leave {id : Nat} {c : Context N D} {a : Answer N D S} (phase : c.sight.frame.phase = .leave) :
    Turn t w (.leave id) c a (w.answered c a)
  /-- The node repeats one above it. -/
  | backRef {id : Nat} {c : Context N D} {a : Answer N D S}
    (phase : c.sight.frame.phase = .backRef) : Turn t w (.visit id) c a (w.answered c a)
  /-- The node is entered and not descended into. -/
  | halt {id : Nat} {c : Context N D} {a : Answer N D S}
    (found : ∃ parent, w.cells[id]? = some ⟨c.sight.frame, parent⟩)
    (control : a.control ≠ .proceed) :
    Turn t w (.visit id) c a { w.answered c a with entered := w.entered + 1 }
  /-- The node is entered and descended into. -/
  | descend {id : Nat} {c : Context N D} {a : Answer N D S}
    (found : ∃ parent, w.cells[id]? = some ⟨c.sight.frame, parent⟩)
    (control : a.control = .proceed) :
    Turn t w (.visit id) c a (t.expand { w.answered c a with entered := w.entered + 1 } c.id)

variable {t : Traversal N D S} {w x : Worklist N D S} {item : Work} {c : Context N D}

omit [Identified N] in
/-- A turn hands on the state that the callback has answered. -/
theorem Turn.state_eq (h : t.Turn w item c a x) : x.state = a.state := by
  cases h with
  | leave _ => rfl
  | backRef _ => rfl
  | halt _ _ => rfl
  | descend _ _ =>
    unfold expand
    split <;> rfl

omit [Identified N] in
/-- The walk goes on unless the callback asks to quit. -/
theorem Turn.quit_eq (h : t.Turn w item c a x) : x.quit = (a.control == .quit) := by
  cases h with
  | leave _ => rfl
  | backRef _ => rfl
  | halt _ _ => rfl
  | descend _ _ =>
    unfold expand
    split <;> rfl

/-- A run ends when a callback has asked to quit or nothing is left to do. -/
theorem quit_or_pending_of_run {limit : Nat} (h : t.run limit w = .done x) :
    x.quit = true ∨ x.pending = [] := by
  induction limit generalizing w with
  | zero =>
    unfold run at h
    split at h
    · obtain rfl := Run.done.inj h
      rename_i hdone
      simpa using hdone
    · cases h
  | succ limit ih =>
    unfold run at h
    split at h
    · obtain rfl := Run.done.inj h
      exact .inl ‹_›
    · split at h
      · obtain rfl := Run.done.inj h
        exact .inr ‹_›
      · split at h
        · cases h
        · exact ih h

/-- The context that is handed over is that of the item's cell, but for phase and mark. -/
theorem exists_cell_of_handed (h : t.handed? w.cells item = some c) :
    ∃ cell, w.cells[item.id]? = some cell
      ∧ c = w.cells.context t.rootData item.id (t.shownFrame w.cells cell.frame item) := by
  obtain ⟨cell, hcell, hc⟩ := Option.map_eq_some_iff.1 h
  exact ⟨cell, hcell, hc.symm⟩

/-- Phase and mark apart, the frame is the one of the cell. -/
theorem shownFrame_eq (t : Traversal N D S) (cells : Cells N D) (frame : Frame N D) (item : Work) :
    ∃ phase visited, t.shownFrame cells frame item = { frame with phase, visited } := by
  cases item with
  | leave id => exact ⟨.leave, frame.visited, rfl⟩
  | visit id =>
    rw [shownFrame]
    split
    · exact ⟨.backRef, true, rfl⟩
    · exact ⟨frame.phase, frame.visited, rfl⟩

/-- An item with a context calls the visitor on it: it fails as the callback fails, or it is
a turn. -/
theorem work_of_handed (h : t.handed? w.cells item = some c) :
    (∃ f, t.visitor c w.state = .error f ∧ t.work w item = .error f)
      ∨ ∃ a x, t.visitor c w.state = .ok a ∧ t.work w item = .ok x ∧ t.Turn w item c a x := by
  obtain ⟨cell, hcell, rfl⟩ := exists_cell_of_handed h
  cases item with
  | leave id =>
    simp only [Work.id] at hcell
    simp only [work, hcell, call, shownFrame, Work.id]
    cases ha : t.visitor (w.cells.context t.rootData id { cell.frame with phase := .leave })
        w.state with
    | error f => exact .inl ⟨f, rfl, rfl⟩
    | ok a => exact .inr ⟨a, _, rfl, rfl, .leave rfl⟩
  | visit id =>
    simp only [Work.id] at hcell
    simp only [work, hcell, call, shownFrame, Work.id]
    by_cases hrep : (w.cells.context t.rootData id cell.frame).sight.repeatsAbove = true
    · simp only [if_pos hrep]
      cases ha : t.visitor (w.cells.context t.rootData id
          { cell.frame with visited := true, phase := .backRef }) w.state with
      | error f => exact .inl ⟨f, rfl, rfl⟩
      | ok a => exact .inr ⟨a, _, rfl, rfl, .backRef rfl⟩
    · simp only [if_neg hrep]
      cases ha : t.visitor (w.cells.context t.rootData id cell.frame) w.state with
      | error f => exact .inl ⟨f, rfl, rfl⟩
      | ok a =>
        by_cases hcontrol : a.control = .proceed
        · simp only [bind, Except.bind, pure, Except.pure, if_pos hcontrol]
          exact .inr ⟨a, _, rfl, rfl, .descend ⟨cell.parent, hcell⟩ hcontrol⟩
        · simp only [bind, Except.bind, pure, Except.pure, if_neg hcontrol]
          exact .inr ⟨a, _, rfl, rfl, .halt ⟨cell.parent, hcell⟩ hcontrol⟩

/-- The loop takes a turn, or takes an item off that has no context. -/
theorem next_cases (h : t.next? w = some x) :
    ∃ item pending, w.pending = item :: pending ∧ w.quit = false
      ∧ (w.cells[item.id]? = none ∧ x = { w with pending }
        ∨ ∃ c a, t.handed? w.cells item = some c ∧ t.visitor c w.state = .ok a
          ∧ t.Turn { w with pending } item c a x) := by
  obtain ⟨hquit, item, pending, hpending, hwork⟩ := next?_eq_some_iff.1 h
  refine ⟨item, pending, hpending, hquit, ?_⟩
  cases hhanded : t.handed? w.cells item with
  | none =>
    have hcell := Option.map_eq_none_iff.1 hhanded
    refine .inl ⟨hcell, ?_⟩
    cases item <;> simp only [Work.id] at hcell <;> simp only [work, hcell] at hwork <;>
      exact (Except.ok.inj hwork).symm
  | some c =>
    rcases work_of_handed (w := { w with pending }) hhanded with ⟨f, -, hf⟩ | ⟨a, y, ha, hy, hturn⟩
    · cases hwork.symm.trans hf
    · obtain rfl := Except.ok.inj (hwork.symm.trans hy)
      exact .inr ⟨c, a, rfl, ha, hturn⟩

end Traversal

end Topiary
