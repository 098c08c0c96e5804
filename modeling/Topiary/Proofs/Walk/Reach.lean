/-
Topiary.Proofs.Walk.Reach — how far a walk may have come.

A walk that fails later, or never comes to an end, has made callbacks
nevertheless.  What is true of each of them is a property of the work lists
that are reached from the start, be there an outcome or not.

* `Traversal.work_cases` — an item of work makes one callback; `Traversal.work_congr` — of the
  visitor only this callback counts.
* `Traversal.Reaches` — work lists on the way; `Reaches.exists_run_eq`, `Reaches.of_run` — those
  that a run gets to.
* `Traversal.Reaches.quit_eq_false` — a visitor that never quits.
-/
import Mathlib.Logic.Relation
import Topiary.Proofs.Walk.Recursive

namespace Topiary

namespace Traversal

variable {N D S : Type} [Identified N] {t u : Traversal N D S} {w x : Worklist N D S}
  {item : Work}

/-! ## One item of work -/

omit [Identified N] in
/-- What a callback leaves behind is what the visitor has answered. -/
theorem exists_answer_of_call {y : Worklist N D S} {id : Nat} {f : Frame N D} {control : Control}
    (h : t.call w id f = .ok (control, y)) :
    ∃ c a, t.visitor c w.state = .ok a ∧ y.state = a.state ∧ y.quit = (a.control == .quit) := by
  unfold call at h
  cases ha : t.visitor (w.cells.context t.rootData id f) w.state with
  | error fault => simp [ha, bind, Except.bind] at h
  | ok a =>
    simp only [ha, bind, Except.bind, pure, Except.pure, Except.ok.injEq, Prod.mk.injEq] at h
    obtain ⟨-, rfl⟩ := h
    exact ⟨_, a, ha, rfl, rfl⟩

/-- The item is of no context, so that there is nothing to do, or it makes one callback. -/
theorem work_cases (h : t.work w item = .ok x) :
    (x = w ∧ ∀ u : Traversal N D S, u.work w item = .ok w)
      ∨ ∃ c a, t.visitor c w.state = .ok a ∧ x.state = a.state ∧ x.quit = (a.control == .quit) := by
  cases item with
  | leave id =>
    simp only [work] at h ⊢
    cases hcell : w.cells[id]? with
    | none =>
      rw [hcell] at h
      exact .inl ⟨(Except.ok.inj h).symm, fun _ => rfl⟩
    | some cell =>
      simp only [hcell] at h
      cases hr : t.call w id { cell.frame with phase := .leave } with
      | error fault => simp [hr, bind, Except.bind] at h
      | ok r =>
        simp only [hr, bind, Except.bind, pure, Except.pure, Except.ok.injEq] at h
        exact .inr (h ▸ exists_answer_of_call hr)
  | visit id =>
    simp only [work] at h ⊢
    cases hcell : w.cells[id]? with
    | none =>
      rw [hcell] at h
      exact .inl ⟨(Except.ok.inj h).symm, fun _ => rfl⟩
    | some cell =>
      simp only [hcell] at h
      refine .inr ?_
      by_cases hrep : (w.cells.context t.rootData id cell.frame).sight.repeatsAbove = true
      · rw [if_pos hrep] at h
        cases hr : t.call w id { cell.frame with visited := true, phase := .backRef } with
        | error fault => simp [hr, bind, Except.bind] at h
        | ok r =>
          simp only [hr, bind, Except.bind, pure, Except.pure, Except.ok.injEq] at h
          exact h ▸ exists_answer_of_call hr
      · rw [if_neg hrep] at h
        cases hr : t.call { w with entered := w.entered + 1 } id cell.frame with
        | error fault => simp [hr, bind, Except.bind] at h
        | ok r =>
          simp only [hr, bind, Except.bind, pure, Except.pure, Except.ok.injEq] at h
          obtain ⟨c, a, ha, hstate, hquit⟩ := exists_answer_of_call hr
          refine ⟨c, a, ha, ?_⟩
          rw [← h]
          split
          · unfold expand
            split <;> exact ⟨hstate, hquit⟩
          · exact ⟨hstate, hquit⟩

/-- Walks that differ in the visitor do the same work where their visitors answer alike. -/
theorem work_congr (hchildren : u.children = t.children) (horder : u.order = t.order)
    (hfresh : u.fresh = t.fresh) (hroot : u.rootData = t.rootData)
    (hvisitor : ∀ c, u.visitor c w.state = t.visitor c w.state) (item : Work) :
    u.work w item = t.work w item := by
  have hcall : ∀ entered id f, u.call { w with entered } id f = t.call { w with entered } id f := by
    intro entered id f
    simp only [call, hroot, hvisitor]
  have hexpand : ∀ y id, u.expand y id = t.expand y id := by
    intro y id
    simp only [expand, hchildren, hfresh, horder]
  have hsame : ∀ id f, u.call w id f = t.call w id f := hcall w.entered
  cases item with
  | leave id => simp only [work, hsame]
  | visit id => simp only [work, hroot, hsame, hcall, hexpand]

/-! ## Work lists on the way -/

/-- The work list after one turn of the loop, if it takes one and nothing fails. -/
def next? (t : Traversal N D S) (w : Worklist N D S) : Option (Worklist N D S) :=
  if w.quit then none
  else
    match w.pending with
    | [] => none
    | item :: pending => (t.work { w with pending } item).toOption

/-- The work list after several turns of the loop. -/
def after (t : Traversal N D S) : (turns : Nat) → Worklist N D S → Option (Worklist N D S)
  | 0, w => some w
  | turns + 1, w => t.next? w >>= t.after turns

/-- The walk gets from one work list to another. -/
def Reaches (t : Traversal N D S) : Worklist N D S → Worklist N D S → Prop :=
  Relation.ReflTransGen fun w x => t.next? w = some x

theorem next?_eq_some_iff : t.next? w = some x ↔ w.quit = false
    ∧ ∃ item pending, w.pending = item :: pending ∧ t.work { w with pending } item = .ok x := by
  constructor
  · intro h
    unfold next? at h
    split at h
    · cases h
    · rename_i hquit
      cases hpending : w.pending with
      | nil =>
        rw [hpending] at h
        cases h
      | cons item pending =>
        simp only [hpending] at h
        refine ⟨Bool.eq_false_iff.2 hquit, item, pending, rfl, ?_⟩
        cases hwork : t.work { w with pending } item with
        | error f =>
          rw [hwork] at h
          cases h
        | ok y =>
          rw [hwork] at h
          exact congrArg _ (Option.some.inj h)
  · rintro ⟨hquit, item, pending, hpending, hwork⟩
    rw [next?, if_neg (by simp [hquit]), hpending]
    simp only [hwork]
    rfl

theorem reaches_of_after {turns : Nat} (h : t.after turns w = some x) : t.Reaches w x := by
  induction turns generalizing w with
  | zero =>
    rw [Option.some.inj h]
    exact .refl
  | succ turns ih =>
    obtain ⟨y, hy, h⟩ := Option.bind_eq_some_iff.1 h
    exact .head hy (ih h)

/-- A turn of the loop in a run. -/
theorem run_of_next? (h : t.next? w = some x) (limit : Nat) :
    t.run (limit + 1) w = t.run limit x := by
  obtain ⟨hquit, item, pending, hpending, hwork⟩ := next?_eq_some_iff.1 h
  rw [run, if_neg (by simp [hquit]), hpending]
  simp only [hwork]

namespace Reaches

/-- A run gets to every work list on its way. -/
theorem exists_run_eq (h : t.Reaches w x) : ∃ n, ∀ limit, t.run (n + limit) w = t.run limit x := by
  induction h with
  | refl => exact ⟨0, fun limit => by rw [Nat.zero_add]⟩
  | tail _ hnext ih =>
    obtain ⟨n, hn⟩ := ih
    refine ⟨n + 1, fun limit => ?_⟩
    rw [Nat.add_assoc, Nat.add_comm 1, hn, run_of_next? hnext]

/-- What a run ends with is reached. -/
theorem of_run {limit : Nat} (h : t.run limit w = .done x) : t.Reaches w x := by
  induction limit generalizing w with
  | zero =>
    unfold run at h
    split at h
    · rw [Run.done.inj h]
      exact .refl
    · cases h
  | succ limit ih =>
    cases hnext : t.next? w with
    | some y =>
      rw [run_of_next? hnext] at h
      exact .head hnext (ih h)
    | none =>
      -- Without a turn the run is over, as it has not failed.
      rw [run] at h
      cases hquit : w.quit with
      | true =>
        rw [if_pos hquit] at h
        rw [Run.done.inj h]
        exact .refl
      | false =>
        rw [if_neg (by simp [hquit])] at h
        cases hpending : w.pending with
        | nil =>
          rw [hpending] at h
          rw [Run.done.inj h]
          exact .refl
        | cons item pending =>
          simp only [hpending] at h
          cases hwork : t.work { w with pending } item with
          | error f =>
            rw [hwork] at h
            cases h
          | ok y =>
            rw [next?_eq_some_iff.2 ⟨hquit, item, pending, hpending, hwork⟩] at hnext
            cases hnext

/-- As long as no callback asks to quit, the walk does not. -/
theorem quit_eq_false (h : t.Reaches w x) (hw : w.quit = false)
    (ht : ∀ c s a, t.visitor c s = .ok a → a.control ≠ .quit) : x.quit = false := by
  induction h with
  | refl => exact hw
  | tail _ hnext _ =>
    obtain ⟨hgoing, item, pending, -, hwork⟩ := next?_eq_some_iff.1 hnext
    rcases work_cases hwork with ⟨hsame, -⟩ | ⟨c, a, ha, -, hquit⟩
    · rw [hsame]
      exact hgoing
    · rw [hquit]
      simpa using ht c _ a ha

end Reaches

end Traversal

end Topiary
