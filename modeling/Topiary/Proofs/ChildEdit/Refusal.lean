/-
Topiary.Proofs.ChildEdit.Refusal — which batches the pass refuses.

A deletion is meant to be alone at its location.  The pass remembers what it
has deleted and refuses an edit that comes later, so that what it refuses is
decided by the order in which edits run.  A deletion runs before the insertions
at its location, whenever they were recorded.  Among replacements and deletions
the order of the batch is kept: one that was recorded behind the deletion is
refused, and a replacement that was recorded before it is carried out and then
deleted, without a word.

* `ChildEdit.Unrefused` — the batches that are carried out, in the order in
  which they were recorded.
* `ChildEdit.sublist_inOrder_iff` — the sort is stable.
* `ChildEdit.deletesLast_inOrder` — the same batches in the order in which they
  run.
* `NamedChildren.editAll_refusal` — which batches are refused, where, and what
  has been done by then.
-/
import Mathlib.Data.List.Induction
import Mathlib.Data.List.Pairwise
import Mathlib.Tactic.ByContra
import Topiary.Proofs.ChildEdit.Stray

namespace Topiary

namespace ChildEdit

variable {N : Type} {edits : List (ChildEdit N)}

/-- At a location with a deletion nothing is inserted, and no edit is recorded
behind the deletion. -/
structure Unrefused (edits : List (ChildEdit N)) : Prop where
  last : DeletesLast edits
  apart : ∀ a ∈ edits, ∀ b ∈ edits, a.location = b.location → a.kind = .delete →
    b.kind.isInsertion = false

instance (edits : List (ChildEdit N)) : Decidable (Unrefused edits) :=
  decidable_of_iff
    (DeletesLast edits ∧ ∀ a ∈ edits, ∀ b ∈ edits, a.location = b.location → a.kind = .delete →
      b.kind.isInsertion = false)
    ⟨fun h => ⟨h.1, h.2⟩, fun h => ⟨h.last, h.apart⟩⟩

/-! ## Recorded and sorted -/

/-- A deletion runs no later than the other edits at its location. -/
theorem precedes_of_delete {a b : ChildEdit N} (hl : a.location = b.location)
    (hk : a.kind = .delete) : a.precedes b = true := by
  simp [precedes, hl, hk, EditKind.precedence]

/-- An insertion runs after a deletion at its location. -/
theorem not_precedes_delete {a b : ChildEdit N} (hl : a.location = b.location)
    (hk : a.kind = .delete) (hb : b.kind.isInsertion = true) : b.precedes a = false := by
  cases hbk : b.kind <;> simp_all [precedes, EditKind.precedence, EditKind.isInsertion]

/-- Two edits at one location that are of one rank run in the order in which
they were recorded. -/
theorem sublist_inOrder_iff {a b : ChildEdit N} (hl : a.location = b.location)
    (hrank : a.kind.precedence = b.kind.precedence) :
    [a, b].Sublist (inOrder edits) ↔ [a, b].Sublist edits := by
  let p : ChildEdit N → Bool := fun e =>
    e.location = b.location ∧ e.kind.precedence = b.kind.precedence
  have hpair : [a, b].filter p = [a, b] := by simp [p, hl, hrank]
  have hfilter : (inOrder edits).filter p = edits.filter p := by
    refine filter_inOrder fun d _ e _ hd he => ?_
    simp only [p, decide_eq_true_eq] at hd he
    simp [precedes, hd, he]
  have hiff : ∀ es : List (ChildEdit N), [a, b].Sublist es ↔ [a, b].Sublist (es.filter p) :=
    fun es => ⟨fun h => hpair ▸ h.filter p, fun h => h.trans List.filter_sublist⟩
  rw [hiff, hfilter, ← hiff]

/-- In the order in which edits run, those of a batch that is carried out leave
every deletion the last one at its location. -/
theorem deletesLast_inOrder : DeletesLast (inOrder edits) ↔ Unrefused edits := by
  constructor
  · intro h
    refine ⟨List.pairwise_iff_forall_sublist.2 fun {a b} hsub hl hk => ?_, ?_⟩
    · have hsub' : [a, b].Sublist (inOrder edits) :=
        List.pair_sublist_mergeSort precedes_trans precedes_total (precedes_of_delete hl hk) hsub
      exact List.pairwise_iff_forall_sublist.1 h hsub' hl hk
    · intro a ha b hb hl hk
      by_contra hins
      rw [Bool.not_eq_false] at hins
      obtain ⟨i, hi, rfl⟩ := List.mem_iff_getElem.1 (mem_inOrder.2 ha)
      obtain ⟨j, hj, rfl⟩ := List.mem_iff_getElem.1 (mem_inOrder.2 hb)
      rcases Nat.lt_trichotomy i j with hij | rfl | hji
      · exact List.pairwise_iff_getElem.1 h i j hi hj hij hl hk
      · rw [hk] at hins
        cases hins
      · have hprec := List.pairwise_iff_getElem.1 (pairwise_inOrder edits) j i hj hi hji
        rw [not_precedes_delete hl hk hins] at hprec
        cases hprec
  · intro h
    refine List.pairwise_iff_forall_sublist.2 fun {a b} hsub hl hk => ?_
    have ha : a ∈ edits := mem_inOrder.1 (hsub.subset (List.mem_cons_self ..))
    have hb : b ∈ edits :=
      mem_inOrder.1 (hsub.subset (List.mem_cons_of_mem _ (List.mem_singleton_self _)))
    have hrank : a.kind.precedence = b.kind.precedence := by
      have hins := h.apart a ha b hb hl hk
      cases hbk : b.kind <;> simp_all [EditKind.precedence, EditKind.isInsertion]
    exact List.pairwise_iff_forall_sublist.1 h.last ((sublist_inOrder_iff hl hrank).1 hsub) hl hk

/-- A list in which an edit comes after a deletion at its location has a first
such edit. -/
theorem exists_refused (h : ¬ DeletesLast edits) :
    ∃ done e rest, edits = done ++ e :: rest ∧ DeletesLast done
      ∧ ∃ d ∈ done, d.location = e.location ∧ d.kind = .delete := by
  induction edits using List.reverseRecOn with
  | nil => exact absurd List.Pairwise.nil h
  | append_singleton edits e ih =>
    by_cases hlast : DeletesLast edits
    · refine ⟨edits, e, [], rfl, hlast, ?_⟩
      by_contra hnone
      refine h (List.pairwise_append.2 ⟨hlast, List.pairwise_singleton _ _, ?_⟩)
      intro d hd e' he' hl hk
      obtain rfl := List.mem_singleton.1 he'
      exact hnone ⟨d, hd, hl, hk⟩
    · obtain ⟨done, e', rest, rfl, hdone⟩ := ih hlast
      exact ⟨done, e', rest ++ [e], by simp, hdone⟩

/-! ## What the check misses -/

/-- A batch in which every deletion is alone is a batch that is carried out in
which no child is both replaced and deleted. -/
theorem compatible_iff : Compatible edits ↔ Unrefused edits
    ∧ ∀ r ∈ edits, ∀ d ∈ edits, r.location = d.location → r.kind = .replace →
      d.kind ≠ .delete := by
  constructor
  · intro h
    have hsymm : Std.Symm fun a b : ChildEdit N =>
        a.location = b.location → a.kind ≠ .delete ∧ b.kind ≠ .delete :=
      ⟨fun _ _ hab he => (hab he.symm).symm⟩
    have hpair : ∀ a ∈ edits, ∀ b ∈ edits, a ≠ b → a.location = b.location →
        a.kind ≠ .delete ∧ b.kind ≠ .delete := fun a ha b hb hne =>
      List.Pairwise.forall h ha hb hne
    refine ⟨⟨h.deletesLast, fun a ha b hb hl hk => ?_⟩, fun r hr d hd hl hk hdel => ?_⟩
    · by_cases hab : a = b
      · rw [← hab, hk]
        rfl
      · exact absurd hk (hpair a ha b hb hab hl).1
    · have hne : r ≠ d := by
        rintro rfl
        rw [hk] at hdel
        cases hdel
      exact (hpair r hr d hd hne hl).2 hdel
  · rintro ⟨h, hreplaced⟩
    refine List.pairwise_iff_forall_sublist.2 fun {a b} hsub hl => ?_
    have ha : a ∈ edits := hsub.subset (List.mem_cons_self ..)
    have hb : b ∈ edits := hsub.subset (List.mem_cons_of_mem _ (List.mem_singleton_self _))
    have hundeleted : a.kind ≠ .delete := List.pairwise_iff_forall_sublist.1 h.last hsub hl
    refine ⟨hundeleted, fun hk => ?_⟩
    have hins := h.apart b hb a ha hl.symm hk
    cases hak : a.kind with
    | replace => exact hreplaced a ha b hb hl hak hk
    | delete => exact hundeleted hak
    | insertBefore => simp [hak, EditKind.isInsertion] at hins
    | insertAfter => simp [hak, EditKind.isInsertion] at hins

/-- Where a batch that is carried out deletes, nothing is left, whatever it has
recorded before. -/
theorem Unrefused.slot_eq_nil (h : Unrefused edits) {d : ChildEdit N} (hd : d ∈ edits)
    (hk : d.kind = .delete) (x : N) : slot edits d.location x = [] := by
  have hnone : ∀ kind, kind.isInsertion = true → nodesAt edits d.location kind = [] := by
    intro kind hkind
    rw [nodesAt_eq_nil_iff]
    rintro e he hl rfl
    rw [h.apart d hd e he hl.symm hk] at hkind
    cases hkind
  have hdel : nodesAt edits d.location .delete ≠ [] := fun hnil =>
    (nodesAt_eq_nil_iff edits d.location .delete).1 hnil d hd rfl hk
  simp [slot, center, hnone .insertBefore rfl, hnone .insertAfter rfl, hdel]

end ChildEdit

/-! ## Whole batches -/

open ChildEdit

namespace NamedChildren

variable {N : Type}

/-- A batch of edits of children that exist, as long as no group outgrows the numbers in
which positions are reckoned, is carried out exactly if at every location with a
deletion nothing is inserted and no edit is recorded behind the deletion.  Then every
child gives way to its slot, and the slot of a child with a deletion is empty.
Otherwise the first edit that runs after a deletion at its location is refused, with the
children as the edits before it leave them.

So a batch in which a deletion is not alone is refused, but for one case: the
edits before the deletion are replacements of the child that it deletes. -/
theorem editAll_refusal {r : Reckoning} (c : NamedChildren N) {edits : List (ChildEdit N)}
    (hlocated : Located c edits)
    (hcount : (EditPass.start c).StaysCounted r (inOrder edits)) :
    (Unrefused edits → c.editAllBy r edits = (c.spread (slot edits), none)
      ∧ ∀ d ∈ edits, d.kind = .delete → ∀ x, slot edits d.location x = [])
    ∧ (¬ Unrefused edits → ∃ done e rest, inOrder edits = done ++ e :: rest
      ∧ (∃ d ∈ done, d.location = e.location ∧ d.kind = .delete)
      ∧ c.editAllBy r edits
        = (c.spread (slot done), some (.misuse (.deletedChildEdited e.location))))
    ∧ (Compatible edits ↔ Unrefused edits
      ∧ ∀ a ∈ edits, ∀ d ∈ edits, a.location = d.location → a.kind = .replace →
        d.kind ≠ .delete) := by
  refine ⟨fun h => ⟨?_, fun d hd hk x => h.slot_eq_nil hd hk x⟩, fun h => ?_, compatible_iff⟩
  · obtain ⟨p, hrun, hp, -⟩ := EditPass.exists_stands_of_deletesLast (List.append_nil _).symm
      hcount (deletesLast_inOrder.2 h) (located_inOrder.2 hlocated)
    rw [editAllBy, hrun, ← slot_inOrder, ← hp.children]
  · obtain ⟨done, e, rest, horder, hlast, hdeleted⟩ :=
      exists_refused (mt deletesLast_inOrder.1 h)
    have hdone : Located c done := fun d hd =>
      located_inOrder.2 hlocated d (horder ▸ List.mem_append_left _ hd)
    obtain ⟨p, hrun, hp, -⟩ :=
      EditPass.exists_stands_of_deletesLast horder hcount hlast hdone
    have hstep : p.step r e = .error (.misuse (.deletedChildEdited e.location)) :=
      if_pos ((hp.deleted e.location).2 hdeleted)
    refine ⟨done, e, rest, horder, hdeleted, ?_⟩
    rw [editAllBy, horder, EditPass.run_append hrun, EditPass.run_cons_error hstep, ← hp.children]

/-- An insertion and a deletion at one location, between edits of other
children. -/
def mixedEdits : List (ChildEdit Nat) :=
  [⟨.unnamed 1, .insertAfter, 1⟩, ⟨⟨.named "a", 0⟩, .replace, 2⟩, ⟨.unnamed 1, .delete, 0⟩,
    ⟨⟨.named "a", 1⟩, .delete, 0⟩]

theorem mixedEdits_refusal : Located twoRows mixedEdits ∧ ¬ Unrefused mixedEdits
    ∧ (EditPass.start twoRows).StaysCounted (.words .wraps) (inOrder mixedEdits)
    ∧ ∃ d l, twoRows.editAllBy (.words .wraps) mixedEdits
      = (d, some (.misuse (.deletedChildEdited l))) := by
  have hlocated : Located twoRows mixedEdits := by
    simp only [Located, mixedEdits, List.forall_mem_cons]
    exact ⟨⟨11, rfl⟩, ⟨20, rfl⟩, ⟨11, rfl⟩, ⟨21, rfl⟩, List.forall_mem_nil _⟩
  have hmixed : ¬ Unrefused mixedEdits := by decide
  have hcount : (EditPass.start twoRows).StaysCounted (.words .wraps) (inOrder mixedEdits) :=
    EditPass.staysCounted_start (by decide)
  obtain ⟨done, e, rest, -, -, hall⟩ := (editAll_refusal twoRows hlocated hcount).2.1 hmixed
  exact ⟨hlocated, hmixed, hcount, _, _, hall⟩

/-- The replacement of a child before its deletion. -/
def replacedThenDeleted : List (ChildEdit String) :=
  [⟨.unnamed 0, .replace, "x"⟩, ⟨.unnamed 0, .delete, ""⟩]

/-- The deletion is not alone, and no edit is refused: the replacement is
lost. -/
theorem replacedThenDeleted_unrefused : Located (unnamed ["a"]) replacedThenDeleted
    ∧ ¬ Compatible replacedThenDeleted
    ∧ (unnamed ["a"]).editBy (.words .wraps) replacedThenDeleted = .ok (unnamed [])
    ∧ (unnamed ["a"]).editBy (.words .stops) replacedThenDeleted = .ok (unnamed []) := by
  refine ⟨?_, by decide, ?_, ?_⟩
  · simp only [Located, replacedThenDeleted, List.forall_mem_cons]
    exact ⟨⟨"a", rfl⟩, ⟨"a", rfl⟩, List.forall_mem_nil _⟩
  all_goals
    rw [editBy, editAllBy, inOrder_eq_self (by decide)]
    rfl

end NamedChildren

end Topiary
