/-
Topiary.Proofs.Parallel.Task — what the edits of a task do to it.

* `Task.Takes` — one edit that is not refused, case by case.
* `Task.frame_of_editAll` — in the frame only the node and the mark of deletion change;
  `Task.outcome_editAll` — and they do as the edits say.
* `Task.editAll_eq_nil_iff` — every edit leaves something in the task's list.
-/
import Mathlib.Tactic.SplitIfs
import Topiary.Parallel.Task

namespace Topiary

variable {N D : Type}

namespace Task

variable {t t' : Task N D} {isRoot : Bool} {e : Edit N} {edits : List (Edit N)}

/-! ## One edit -/

/-- What has become of a task whose edit was not refused. -/
inductive Takes (t : Task N D) (isRoot : Bool) : Edit N → Task N D → Prop
  | change {node : N} (there : t.frame.deleted = false) :
      Takes t isRoot (.change node) { t.replace node with changed := true }
  | delete (inner : isRoot = false) (there : t.frame.deleted = false)
      (untouched : (t.changed || t.edits.any fun e => e.1.isInsertion) = false) :
      Takes t isRoot .delete { t with
        frame := { t.frame with deleted := true }
        edits := [(.delete, t.frame.node)] }
  | insertBefore {node : N} (inner : isRoot = false) (there : t.frame.deleted = false) :
      Takes t isRoot (.insertBefore node) { t with edits := t.edits ++ [(.insertBefore, node)] }
  | insertAfter {node : N} (inner : isRoot = false) (there : t.frame.deleted = false) :
      Takes t isRoot (.insertAfter node) { t with edits := t.edits ++ [(.insertAfter, node)] }

theorem takes_of_edit (h : t.edit isRoot e = .ok t') : t.Takes isRoot e t' := by
  have hinsert : ∀ kind node, t.insert isRoot kind node = .ok t' → isRoot = false
      ∧ t.frame.deleted = false ∧ { t with edits := t.edits ++ [(kind, node)] } = t' := by
    intro kind node h
    unfold insert at h
    split_ifs at h with hroot hgone
    exact ⟨Bool.eq_false_iff.2 hroot, Bool.eq_false_iff.2 hgone, Except.ok.inj h⟩
  cases e with
  | change node =>
    replace h : t.change node = .ok t' := h
    unfold change at h
    split_ifs at h with hgone
    rw [← Except.ok.inj h]
    exact .change (Bool.eq_false_iff.2 hgone)
  | delete =>
    replace h : t.delete isRoot = .ok t' := h
    unfold delete at h
    split_ifs at h with hroot hgone hedited
    rw [← Except.ok.inj h]
    exact .delete (Bool.eq_false_iff.2 hroot) (Bool.eq_false_iff.2 hgone)
      (Bool.eq_false_iff.2 hedited)
  | insertBefore node =>
    obtain ⟨hroot, hthere, rfl⟩ := hinsert .insertBefore node h
    exact .insertBefore hroot hthere
  | insertAfter node =>
    obtain ⟨hroot, hthere, rfl⟩ := hinsert .insertAfter node h
    exact .insertAfter hroot hthere

/-- A node that was deleted is not edited any more. -/
theorem Takes.there (h : t.Takes isRoot e t') : t.frame.deleted = false := by
  cases h <;> assumption

/-- An edit touches nothing in a frame but the node and the mark of deletion. -/
theorem Takes.frame (h : t.Takes isRoot e t') :
    t'.frame = { t.frame with node := t'.frame.node, deleted := t'.frame.deleted } := by
  cases h <;> rfl

theorem Takes.outcome (h : t.Takes isRoot e t') :
    e.outcome t.frame.node t.frame.deleted = (t'.frame.node, t'.frame.deleted) := by
  cases h <;> rfl

theorem putReplacement_ne_nil (node : N) (edits : List (EditKind × N)) :
    putReplacement node edits ≠ [] := by
  cases edits with
  | nil => simp [putReplacement]
  | cons e edits =>
    unfold putReplacement
    split <;> simp

theorem Takes.edits_ne_nil (h : t.Takes isRoot e t') : t'.edits ≠ [] := by
  cases h with
  | change _ => exact putReplacement_ne_nil _ _
  | delete _ _ _ => simp
  | insertBefore _ _ => simp
  | insertAfter _ _ => simp

/-! ## The edits of a callback -/

/-- Edits one after the other: the first one, and the others. -/
theorem exists_takes_of_editAll_cons (h : t.editAll isRoot (e :: edits) = .ok t') :
    ∃ t₁, t.Takes isRoot e t₁ ∧ t₁.editAll isRoot edits = .ok t' := by
  cases hedit : t.edit isRoot e with
  | error f => simp [editAll, hedit, bind, Except.bind] at h
  | ok t₁ =>
    simp only [editAll, hedit, bind, Except.bind] at h
    exact ⟨t₁, takes_of_edit hedit, h⟩

theorem frame_of_editAll (h : t.editAll isRoot edits = .ok t') :
    t'.frame = { t.frame with node := t'.frame.node, deleted := t'.frame.deleted } := by
  induction edits generalizing t with
  | nil =>
    obtain rfl := Except.ok.inj h
    rfl
  | cons e edits ih =>
    obtain ⟨t₁, htakes, h⟩ := exists_takes_of_editAll_cons h
    rw [ih h, htakes.frame]

/-- The node and the mark of deletion go from edit to edit. -/
theorem outcome_editAll (h : t.editAll isRoot edits = .ok t') :
    edits.foldl (fun s e => e.outcome s.1 s.2) (t.frame.node, t.frame.deleted)
      = (t'.frame.node, t'.frame.deleted) := by
  induction edits generalizing t with
  | nil =>
    obtain rfl := Except.ok.inj h
    rfl
  | cons e edits ih =>
    obtain ⟨t₁, htakes, h⟩ := exists_takes_of_editAll_cons h
    rw [List.foldl_cons, htakes.outcome, ih h]

/-- Every edit leaves something in the task's list. -/
theorem editAll_eq_nil_iff (h : t.editAll isRoot edits = .ok t') :
    t'.edits = [] ↔ t.edits = [] ∧ edits = [] := by
  induction edits generalizing t with
  | nil =>
    obtain rfl := Except.ok.inj h
    simp
  | cons e edits ih =>
    obtain ⟨t₁, htakes, h⟩ := exists_takes_of_editAll_cons h
    simp [ih h, htakes.edits_ne_nil]

end Task

end Topiary
