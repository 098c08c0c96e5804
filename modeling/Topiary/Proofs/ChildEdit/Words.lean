/-
Topiary.Proofs.ChildEdit.Words — the same batch in words and in integers.

Trees are edited with positions in integers, so that what is said of them holds of
groups of any length.  Where every group can be counted in words, and every index
is one, nothing is lost by that: words that wrap around carry out the same edits
and meet the same fault.  Words that stop do as words that wrap around do, or are
at their end.

* `Reckoning.locate_wraps`, `Reckoning.locate_stops` — one position.
* `EditPass.Sized` — each group has grown by its shift, whatever edits were run;
  `EditPass.natAbs_shift_le` — the shift of a batch is itself a word.
* `EditPass.step_wraps`, `EditPass.run_wraps`, `EditPass.run_stops` — one edit, and all of
  them.
* `NamedChildren.editAllBy_wraps`, `NamedChildren.editAllBy_stops` — a batch.
* `Siblings.fold_wraps` — the zippers below one parent.
-/
import Topiary.MultiZipper
import Topiary.Proofs.ChildEdit.Stray

namespace Topiary

open ChildEdit

/-! ## One position -/

namespace Reckoning

variable {l : Location} {n length : Nat} {shift : Int}

theorem locate_wraps (hlength : (length : Int) = n + shift) (hbefore : n < 2 ^ 63)
    (hnow : length < 2 ^ 63) (hword : l.index < 2 ^ 64) :
    (words .wraps).locate l length shift = integers.locate l length shift := by
  have hbefore' : (words .wraps).Counts n := hbefore
  have hnow' : (words .wraps).Counts length := hnow
  rcases Nat.lt_or_ge l.index n with hindex | hbeyond
  · have hposition : (words .wraps).position length l.index shift
        = integers.position length l.index shift := by
      rw [position, position, if_pos (by omega), word_of_lt (by omega) (by omega),
        Overflow.settle_of_word _ _ (by omega) (by omega)]
    rw [locate, locate, hposition, sizeBefore_eq hlength hbefore' hnow',
      sizeBefore_eq (r := integers) hlength trivial trivial]
  · by_cases haround : 2 ^ 63 ≤ l.index ∧ (2 ^ 64 : Int) ≤ l.index + shift
    · have hposition := Int.toNat_of_nonneg (a := l.index + shift - 2 ^ 64) (by omega)
      rw [locate_around hlength hbefore' hnow' hbeyond hword haround.1 hposition,
        locate_around (r := integers) hlength trivial trivial hbeyond hword haround.1 hposition]
    · have hwraps : words .wraps ≠ words .stops := by decide
      have hintegers : integers ≠ words .stops := by decide
      rw [locate_beyond hlength hbefore' hnow' hbeyond hword haround (absurd · hwraps),
        locate_beyond (r := integers) hlength trivial trivial hbeyond hword haround
          (absurd · hintegers)]

/-- Words that stop settle a result as words that wrap around do, or no word holds it. -/
theorem settle_stops (operation : Operation) (x : Int) :
    Overflow.stops.settle operation x = Overflow.wraps.settle operation x
      ∨ Overflow.stops.settle operation x = .error (.misuse (.overflow operation)) := by
  by_cases hx : word x = x
  · exact .inl (by rw [Overflow.settle, Overflow.settle, if_pos hx, hx])
  · exact .inr (by rw [Overflow.settle, if_neg hx])

/-- Words that stop find the same position or fault, or no word holds a result. -/
theorem locate_stops (l : Location) (length : Nat) (shift : Int) :
    (words .stops).locate l length shift = (words .wraps).locate l length shift
      ∨ ∃ operation, (words .stops).locate l length shift
        = .error (.misuse (.overflow operation)) := by
  simp only [locate, position, sizeBefore]
  obtain ⟨position, hposition⟩ : ∃ position,
      Overflow.wraps.settle .add (word l.index + shift) = .ok position := ⟨_, rfl⟩
  obtain ⟨size, hsize⟩ : ∃ size,
      Overflow.wraps.settle .subtract (word length - shift) = .ok size := ⟨_, rfl⟩
  rcases settle_stops .add (word l.index + shift) with hadd | hadd
  · rcases settle_stops .subtract (word length - shift) with hsub | hsub
    · exact .inl (by rw [hadd, hsub])
    · rw [hadd, hsub, hposition, hsize]
      by_cases hin : 0 ≤ position ∧ position < length
      · exact .inl (by simp only [bind, Except.bind, if_pos hin])
      · exact .inr ⟨.subtract, by simp only [bind, Except.bind, if_neg hin, Except.map]⟩
  · exact .inr ⟨.add, by rw [hadd]; rfl⟩

end Reckoning

/-! ## One edit after the other -/

/-- The edits at most add one to the growth, or take one off. -/
theorem ChildEdit.natAbs_growthOf_le {N : Type} (edits : List (ChildEdit N)) (group : GroupName) :
    (growthOf edits group).natAbs ≤ edits.length := by
  induction edits with
  | nil => exact Nat.le_refl 0
  | cons e edits ih =>
    have hgrowth : e.kind.growth.natAbs ≤ 1 := by cases e.kind <;> decide
    rw [growthOf_cons, List.length_cons]
    split <;> omega

namespace EditPass

variable {N : Type} {r : Reckoning} {c : NamedChildren N} {p q : EditPass N}
  {edits : List (ChildEdit N)} {e : ChildEdit N}

/-- So a batch of fewer than `2 ^ 63` edits moves no child by more than a word. -/
theorem natAbs_shift_le (hrun : (start c).run r edits = (q, none)) (group : GroupName) :
    (q.shift group).natAbs ≤ edits.length := by
  rw [shift_of_run hrun, show (start c).shift group = 0 from rfl, Int.zero_add]
  exact natAbs_growthOf_le edits group

/-- Each group has grown by its shift. -/
def Sized (c : NamedChildren N) (p : EditPass N) : Prop :=
  ∀ g ∈ p.children.groups, ∃ xs, (g.1, xs) ∈ c.groups
    ∧ (g.2.length : Int) = xs.length + p.shift g.1

theorem sized_start (c : NamedChildren N) : (start c).Sized c :=
  fun g hg => ⟨g.2, hg, (Int.add_zero _).symm⟩

theorem Sized.step (hp : p.Sized c) (hstep : p.step r e = .ok q) : q.Sized c := by
  intro g hg
  obtain ⟨nodes, hnodes, hgrown⟩ := exists_group_of_step hstep hg
  obtain ⟨xs, hxs, hlength⟩ := hp _ hnodes
  refine ⟨xs, hxs, ?_⟩
  rw [hgrown, shift_of_step hstep, hlength, Int.add_assoc]

/-- One edit. -/
theorem step_wraps (hp : p.Sized c) (hword : e.location.index < 2 ^ 64)
    (hbefore : c.CountedBy (.words .wraps)) (hnow : p.children.CountedBy (.words .wraps)) :
    p.step (.words .wraps) e = p.step .integers e := by
  unfold step
  cases hget : p.children.get? e.location.group with
  | none => rfl
  | some nodes =>
    have hmem := (p.children.get?_eq_some_iff _ _).1 hget
    obtain ⟨xs, hxs, hlength⟩ := hp _ hmem
    have hlocate := Reckoning.locate_wraps hlength (hbefore _ hxs) (hnow _ hmem) hword
    simp only [hlocate]

/-- All edits up to the first fault. -/
theorem run_wraps (hp : p.Sized c) (hwords : ∀ e ∈ edits, e.location.index < 2 ^ 64)
    (hbefore : c.CountedBy (.words .wraps)) (hcount : p.StaysCounted (.words .wraps) edits) :
    p.run (.words .wraps) edits = p.run .integers edits := by
  induction edits generalizing p with
  | nil => rfl
  | cons e edits ih =>
    have hstep := step_wraps hp (hwords e (List.mem_cons_self ..)) hbefore hcount.counted
    rw [run, run, ← hstep]
    cases hq : p.step (.words .wraps) e with
    | error f => rfl
    | ok q =>
      exact ih (hp.step hq) (fun d hd => hwords d (List.mem_cons_of_mem _ hd)) (hcount.2 q hq)

/-- Words that stop do the same or are at their end. -/
theorem step_stops (p : EditPass N) (e : ChildEdit N) :
    p.step (.words .stops) e = p.step (.words .wraps) e
      ∨ ∃ operation, p.step (.words .stops) e = .error (.misuse (.overflow operation)) := by
  unfold step
  split
  · exact .inl rfl
  · cases p.children.get? e.location.group with
    | none => exact .inl rfl
    | some nodes =>
      rcases Reckoning.locate_stops e.location nodes.length (p.shift e.location.group) with
        hlocate | ⟨operation, hlocate⟩
      · exact .inl (by simp only [hlocate])
      · exact .inr ⟨operation, by simp only [hlocate]; rfl⟩

theorem run_stops (p : EditPass N) (edits : List (ChildEdit N)) :
    p.run (.words .stops) edits = p.run (.words .wraps) edits
      ∨ ∃ operation, (p.run (.words .stops) edits).2 = some (.misuse (.overflow operation)) := by
  induction edits generalizing p with
  | nil => exact .inl rfl
  | cons e edits ih =>
    rw [run, run]
    rcases step_stops p e with hstep | ⟨operation, hstep⟩
    · rw [hstep]
      cases p.step (.words .wraps) e with
      | error f => exact .inl rfl
      | ok q => exact ih q
    · rw [hstep]
      exact .inr ⟨operation, rfl⟩

end EditPass

/-! ## Batches -/

namespace NamedChildren

variable {N : Type} (c : NamedChildren N) {edits : List (ChildEdit N)}

/-- A batch in words that wrap around is the batch in integers, as long as the words
count every group. -/
theorem editAllBy_wraps (hwords : ∀ e ∈ edits, e.location.index < 2 ^ 64)
    (hcount : (EditPass.start c).StaysCounted (.words .wraps) (inOrder edits)) :
    c.editAllBy (.words .wraps) edits = c.editAllBy .integers edits := by
  have hbefore : c.CountedBy (.words .wraps) := hcount.counted
  rw [editAllBy, editAllBy, EditPass.run_wraps (EditPass.sized_start c)
    (fun e he => hwords e (mem_inOrder.1 he)) hbefore hcount]

/-- A batch in words that stop is the one in words that wrap around, or overflows. -/
theorem editAllBy_stops (edits : List (ChildEdit N)) :
    c.editAllBy (.words .stops) edits = c.editAllBy (.words .wraps) edits
      ∨ ∃ operation, (c.editAllBy (.words .stops) edits).2
        = some (.misuse (.overflow operation)) := by
  rcases (EditPass.start c).run_stops (inOrder edits) with hrun | hoverflow
  · exact .inl (by rw [editAllBy, hrun, editAllBy])
  · exact .inr hoverflow

end NamedChildren

/-- The zippers below one parent are folded alike. -/
theorem Siblings.fold_wraps {N : Type} (A : Adapter N) (base : Site) (s : Siblings N)
    (hwords : ∀ e ∈ s.edits, e.location.index < 2 ^ 64)
    (hcount : (EditPass.start (A.children s.parent)).StaysCounted (.words .wraps)
      (inOrder s.edits)) :
    s.fold (.words .wraps) A base = s.fold .integers A base := by
  rw [fold, fold, NamedChildren.editBy, NamedChildren.editBy,
    NamedChildren.editAllBy_wraps _ hwords hcount]

end Topiary
