/-
Topiary.Proofs.ChildEdit.Stray — batches with edits that name no child.

The edits before the first stray one are carried out as if they were the
whole batch.  The stray one then fails as the lookup of its location does, and
the children are left as they are by then.  There are two exceptions, and both are
a matter of fixed width.  An index in the upper half of the 64 bits is read as a
negative position.  If its group has grown enough by then, the position comes
around to the first children of the group and the edit is carried out there.
And close to the middle of the 64 bits the position can leave the words.  Words that
wrap around take it out of bounds again, words that stop are at their end.

* `ChildEdit.growthOf` — by how much a batch makes a group grow.
* `ChildEdit.FirstStray` — the edits before the first stray one, and this one.
* `ChildEdit.ComesAround`, `ChildEdit.Overflows` — the exceptions.
* `EditPass.Stands.step_stray`, `EditPass.Stands.step_around`,
  `EditPass.Stands.step_overflow` — the pass at a stray edit.
* `NamedChildren.editAll_by_lookup` — whole batches.
-/
import Mathlib.Algebra.Ring.Int.Defs
import Topiary.Proofs.ChildEdit.Positional

namespace Topiary

namespace ChildEdit

variable {N : Type}

/-- By how many children the edits make a group longer. -/
def growthOf (edits : List (ChildEdit N)) (group : GroupName) : Int :=
  ((edits.filter fun e => e.location.group = group).map fun e => e.kind.growth).sum

theorem growthOf_cons (e : ChildEdit N) (edits : List (ChildEdit N)) (group : GroupName) :
    growthOf (e :: edits) group
      = (if e.location.group = group then e.kind.growth else 0) + growthOf edits group := by
  by_cases h : e.location.group = group <;> simp [growthOf, h]

/-- The edit `e` is the first one, in the order in which edits run, that names
no child, and `done` are those before it. -/
structure FirstStray (c : NamedChildren N) (edits done : List (ChildEdit N)) (e : ChildEdit N) :
    Prop where
  order : ∃ rest, inOrder edits = done ++ e :: rest
  located : Located c done
  stray : ∀ x, c.childAt e.location ≠ .ok x

/-- The group of `e` exists, the index of `e` reads as a negative number, and
the edits before it have made the group grow so much that the sum is none. -/
structure ComesAround (c : NamedChildren N) (done : List (ChildEdit N)) (e : ChildEdit N) :
    Prop where
  group : e.location.group ∈ c.names
  high : 2 ^ 63 ≤ e.location.index
  around : 2 ^ 64 ≤ e.location.index + growthOf done e.location.group

/-- The group of `e` exists, and the sum of its index and of what the edits before it
have made the group grow is on the other side of the middle.  So the sum of the word
of the index and the growth is held by no word. -/
structure Overflows (c : NamedChildren N) (done : List (ChildEdit N)) (e : ChildEdit N) :
    Prop where
  group : e.location.group ∈ c.names
  crosses : e.location.index < 2 ^ 63
    ↔ (2 ^ 63 : Int) ≤ e.location.index + growthOf done e.location.group

theorem located_inOrder {c : NamedChildren N} {edits : List (ChildEdit N)} :
    Located c (inOrder edits) ↔ Located c edits :=
  forall_congr' fun _ => imp_congr_left mem_inOrder

/-- A list of edits has a first stray one, unless all of them name a child. -/
theorem exists_stray {c : NamedChildren N} {edits : List (ChildEdit N)} (h : ¬ Located c edits) :
    ∃ done e rest, edits = done ++ e :: rest ∧ Located c done
      ∧ ∀ x, c.childAt e.location ≠ .ok x := by
  induction edits with
  | nil => exact absurd (List.forall_mem_nil _) h
  | cons e edits ih =>
    by_cases he : ∃ x, c.childAt e.location = .ok x
    · have hrest : ¬ Located c edits := fun hrest => h (List.forall_mem_cons.2 ⟨he, hrest⟩)
      obtain ⟨done, e', rest, rfl, hdone, hstray⟩ := ih hrest
      exact ⟨e :: done, e', rest, rfl, List.forall_mem_cons.2 ⟨he, hdone⟩, hstray⟩
    · exact ⟨[], e, edits, rfl, List.forall_mem_nil _, not_exists.1 he⟩

/-- A batch with a stray edit has a first one. -/
theorem exists_firstStray {c : NamedChildren N} {edits : List (ChildEdit N)}
    (h : ¬ Located c edits) : ∃ done e, FirstStray c edits done e := by
  obtain ⟨done, e, rest, horder, hdone, hstray⟩ := exists_stray (mt located_inOrder.1 h)
  exact ⟨done, e, ⟨rest, horder⟩, hdone, hstray⟩

end ChildEdit

/-- What the lookup of a location that names no child fails with: its group is
missing, or its index lies past the end of the group. -/
theorem NamedChildren.childAt_of_ne_ok {N : Type} {c : NamedChildren N} {l : Location}
    (h : ∀ x, c.childAt l ≠ .ok x) :
    (c.get? l.group = none ∧ c.childAt l = .error (.unknownGroup l.group))
      ∨ ∃ xs, (l.group, xs) ∈ c.groups ∧ xs.length ≤ l.index
        ∧ c.childAt l = .error (.childOutOfBounds l.group l.index xs.length) := by
  unfold childAt at h ⊢
  cases hget : c.get? l.group with
  | none => exact .inl ⟨rfl, rfl⟩
  | some xs =>
    simp only [hget] at h ⊢
    cases hx : xs[l.index]? with
    | some x => exact absurd (by simp [hx]) (h x)
    | none => exact .inr ⟨xs, (get?_eq_some_iff c _ _).1 hget, List.getElem?_eq_none_iff.1 hx, rfl⟩

theorem NamedChildren.exists_of_ne_ok {N : Type} {c : NamedChildren N} {l : Location}
    (hname : l.group ∈ c.names) (h : ∀ x, c.childAt l ≠ .ok x) :
    ∃ xs, (l.group, xs) ∈ c.groups ∧ xs.length ≤ l.index := by
  rcases childAt_of_ne_ok h with ⟨hgroup, -⟩ | ⟨xs, hmem, hbeyond, -⟩
  · exact absurd hname ((get?_eq_none_iff c _).1 hgroup)
  · exact ⟨xs, hmem, hbeyond⟩

/-! ## The pass -/

open ChildEdit NamedChildren

namespace EditPass

variable {N : Type} {r : Reckoning} {c : NamedChildren N} {p q : EditPass N}
  {done edits rest : List (ChildEdit N)} {e : ChildEdit N} {xs : List N} {f : Fault}

/-- Edits after others. -/
theorem run_append (hrun : p.run r done = (q, none)) (rest : List (ChildEdit N)) :
    p.run r (done ++ rest) = q.run r rest := by
  induction done generalizing p with
  | nil =>
    obtain ⟨rfl, -⟩ := Prod.mk.inj hrun
    rfl
  | cons e done ih =>
    rw [run] at hrun
    rw [List.cons_append, run]
    cases hstep : p.step r e with
    | error f => simp [hstep] at hrun
    | ok t =>
      rw [hstep] at hrun
      exact ih hrun

theorem run_concat (hrun : p.run r done = (q, none)) {t : EditPass N} (hstep : q.step r e = .ok t) :
    p.run r (done ++ [e]) = (t, none) := by
  rw [run_append hrun, run, hstep]
  rfl

theorem run_cons_error (hstep : p.step r e = .error f) (rest : List (ChildEdit N)) :
    p.run r (e :: rest) = (p, some f) := by
  rw [run, hstep]

/-- An edit that is carried out shifts its group by its growth. -/
theorem shift_of_step (hstep : p.step r e = .ok q) (group : GroupName) :
    q.shift group
      = p.shift group + if e.location.group = group then e.kind.growth else 0 := by
  obtain ⟨_, position, -, -, rfl⟩ := exists_of_step hstep
  by_cases hgroup : e.location.group = group
  · simp [perform, hgroup]
  · simp [perform, hgroup, Ne.symm hgroup]

/-- After a run each group is shifted by the growth of the batch. -/
theorem shift_of_run (hrun : p.run r edits = (q, none)) (group : GroupName) :
    q.shift group = p.shift group + growthOf edits group := by
  induction edits generalizing p with
  | nil =>
    obtain ⟨rfl, -⟩ := Prod.mk.inj hrun
    simp [growthOf]
  | cons e edits ih =>
    rw [run] at hrun
    cases hstep : p.step r e with
    | error f => simp [hstep] at hrun
    | ok t =>
      rw [hstep] at hrun
      rw [ih hrun, shift_of_step hstep, growthOf_cons, Int.add_assoc]

/-- A stray edit names no child, so that none was deleted there. -/
theorem Stands.not_mem_deleted (hp : p.Stands c done) (hlocated : Located c done)
    (hstray : ∀ x, c.childAt e.location ≠ .ok x) : e.location ∉ p.deleted := by
  rw [hp.deleted]
  rintro ⟨d, hd, hl, -⟩
  obtain ⟨x, hx⟩ := hlocated d hd
  exact hstray x (hl ▸ hx)

/-- The children of a group as the pass finds them. -/
theorem Stands.get?_eq (hp : p.Stands c done) (hmem : (e.location.group, xs) ∈ c.groups) :
    ∃ nodes, p.children.get? e.location.group = some nodes
      ∧ (nodes.length : Int) = xs.length + p.shift e.location.group := by
  refine ⟨spreadGroup (slot done) (e.location.group, xs), ?_, ?_⟩
  · rw [get?_eq_some_iff, hp.children, mem_groups_spread]
    exact ⟨xs, hmem, rfl⟩
  · rw [hp.shift e.location.group xs hmem]
    omega

/-- The pass at an edit of a group that is missing. -/
theorem Stands.step_missing (hp : p.Stands c done) (hundeleted : e.location ∉ p.deleted)
    (hgroup : c.get? e.location.group = none) :
    p.step r e = .error (.failure (.unknownGroup e.location.group)) := by
  have hmissing : p.children.get? e.location.group = none := by
    rw [get?_eq_none_iff, names, hp.children, spread, List.map_map]
    exact (get?_eq_none_iff c e.location.group).1 hgroup
  rw [EditPass.step, if_neg hundeleted]
  simp only [hmissing]

/-- The pass at an edit of a group that exists asks where the location is by now. -/
theorem Stands.step_eq_locate (hp : p.Stands c done) (hundeleted : e.location ∉ p.deleted)
    (hmem : (e.location.group, xs) ∈ c.groups) (hnow : p.children.CountedBy r) :
    ∃ length : Nat, (length : Int) = xs.length + p.shift e.location.group ∧ r.Counts length
      ∧ p.step r e
        = (r.locate e.location length (p.shift e.location.group)).map (p.perform e) := by
  obtain ⟨nodes, hget, hlength⟩ := hp.get?_eq hmem
  refine ⟨nodes.length, hlength, hnow _ ((get?_eq_some_iff _ _ _).1 hget), ?_⟩
  rw [EditPass.step, if_neg hundeleted, hget]

section Stray

variable (hp : p.Stands c done) (hlocated : Located c done)
  (hshift : p.shift e.location.group = growthOf done e.location.group)
  (hstray : ∀ x, c.childAt e.location ≠ .ok x) (hword : e.location.index < 2 ^ 64)
  (hbefore : c.CountedBy r) (hnow : p.children.CountedBy r)

include hp hlocated hshift hstray hword hbefore hnow

/-- The pass at a stray edit: it fails as the lookup does. -/
theorem Stands.step_stray (hround : ¬ ComesAround c done e)
    (hstays : r = .words .stops → ¬ Overflows c done e) :
    ∃ f, c.childAt e.location = .error f ∧ p.step r e = .error (.failure f) := by
  have hundeleted := hp.not_mem_deleted hlocated hstray
  rcases childAt_of_ne_ok hstray with ⟨hgroup, hfail⟩ | ⟨xs, hmem, hbeyond, hfail⟩
  · exact ⟨_, hfail, hp.step_missing hundeleted hgroup⟩
  · have hname : e.location.group ∈ c.names := List.mem_map_of_mem hmem
    have hsize : r.Counts xs.length := hbefore _ hmem
    obtain ⟨length, hlength, hcounts, hstep⟩ := hp.step_eq_locate hundeleted hmem hnow
    refine ⟨_, hfail, ?_⟩
    rw [hstep, Reckoning.locate_beyond hlength hsize hcounts hbeyond hword]
    · rfl
    · rw [hshift]
      exact fun h => hround ⟨hname, h.1, h.2⟩
    · rw [hshift]
      exact fun hr h => hstays hr ⟨hname, h⟩

/-- The pass at a stray edit whose position comes around: it is carried out
there. -/
theorem Stands.step_around (haround : ComesAround c done e) :
    p.step r e
      = .ok (p.perform e (e.location.index + growthOf done e.location.group - 2 ^ 64).toNat) := by
  obtain ⟨hname, hhigh, haround⟩ := haround
  obtain ⟨xs, hmem, hbeyond⟩ := exists_of_ne_ok hname hstray
  have hsize : r.Counts xs.length := hbefore _ hmem
  obtain ⟨length, hlength, hcounts, hstep⟩ :=
    hp.step_eq_locate (hp.not_mem_deleted hlocated hstray) hmem hnow
  rw [hstep, ← hshift, Reckoning.locate_around hlength hsize hcounts hbeyond hword hhigh
    (Int.toNat_of_nonneg (by omega))]
  rfl

end Stray

/-- The pass at a stray edit whose position leaves words that stop. -/
theorem Stands.step_overflow (hp : p.Stands c done) (hlocated : Located c done)
    (hshift : p.shift e.location.group = growthOf done e.location.group)
    (hstray : ∀ x, c.childAt e.location ≠ .ok x) (hword : e.location.index < 2 ^ 64)
    (hbefore : c.CountedBy (.words .stops)) (hnow : p.children.CountedBy (.words .stops))
    (hoverflow : Overflows c done e) :
    p.step (.words .stops) e = .error (.misuse (.overflow .add)) := by
  obtain ⟨xs, hmem, hbeyond⟩ := exists_of_ne_ok hoverflow.group hstray
  have hsize : (Reckoning.words .stops).Counts xs.length := hbefore _ hmem
  obtain ⟨length, hlength, -, hstep⟩ :=
    hp.step_eq_locate (hp.not_mem_deleted hlocated hstray) hmem hnow
  rw [hstep, Reckoning.locate_overflow hlength hsize hbeyond hword (hshift ▸ hoverflow.crosses)]
  rfl

/-- The first edits of a sorted batch shift each group by their growth. -/
theorem exists_stands (hcomp : Compatible edits) (horder : inOrder edits = done ++ rest)
    (hcount : (start c).StaysCounted r (inOrder edits)) (hlocated : Located c done) :
    ∃ p, (start c).run r done = (p, none) ∧ p.Stands c done ∧ p.StaysCounted r rest
      ∧ ∀ group, p.shift group = growthOf done group := by
  have hcompatible : Compatible (done ++ rest) := horder ▸ hcomp.inOrder
  obtain ⟨p, hrun, hp, hrest⟩ := exists_stands_of_deletesLast horder hcount
    (Compatible.deletesLast (List.pairwise_append.1 hcompatible).1) hlocated
  refine ⟨p, hrun, hp, hrest, fun group => ?_⟩
  rw [shift_of_run hrun]
  exact Int.zero_add _

end EditPass

/-! ## Whole batches -/

namespace NamedChildren

variable {N : Type}

/-- A batch in which a deletion is alone at its location, over all indices of
64 bits, as long as no group outgrows the numbers in which positions are reckoned.
If every edit names a child, it succeeds and every child gives way to its slot.
Otherwise there is a first stray edit.  The batch fails there as the lookup does,
with the children as the edits before it leave them, but for two cases.  Where the
position of this edit comes around, it is carried out on a child that it does not
name.  Where the position overflows and words stop at that, the batch stops there. -/
theorem editAll_by_lookup {r : Reckoning} (c : NamedChildren N) {edits : List (ChildEdit N)}
    (hcomp : Compatible edits) (hwords : ∀ e ∈ edits, e.location.index < 2 ^ 64)
    (hcount : (EditPass.start c).StaysCounted r (inOrder edits)) :
    (Located c edits → c.editAllBy r edits = (c.spread (slot edits), none))
    ∧ (¬ Located c edits → ∃ done e, FirstStray c edits done e)
    ∧ ∀ done e, FirstStray c edits done e →
      (¬ ComesAround c done e → (r = .words .stops → ¬ Overflows c done e) →
        ∃ f, c.childAt e.location = .error f
          ∧ c.editAllBy r edits = (c.spread (slot done), some (.failure f)))
      ∧ (ComesAround c done e → ∃ p, (EditPass.start c).run r (done ++ [e]) = (p, none)
        ∧ p.children = (c.spread (slot done)).modify e.location.group (e.kind.perform
            (e.location.index + growthOf done e.location.group - 2 ^ 64).toNat e.node))
      ∧ (Overflows c done e → r = .words .stops →
        c.editAllBy r edits = (c.spread (slot done), some (.misuse (.overflow .add)))) := by
  refine ⟨fun hlocated => ?_, exists_firstStray, fun done e hfirst => ?_⟩
  · obtain ⟨p, hrun, hp, -⟩ := EditPass.exists_stands hcomp (List.append_nil _).symm hcount
      (located_inOrder.2 hlocated)
    rw [editAllBy, hrun, ← slot_inOrder, ← hp.children]
  · obtain ⟨⟨rest, horder⟩, hlocated, hstray⟩ := hfirst
    obtain ⟨p, hrun, hp, hrest, hshift⟩ := EditPass.exists_stands hcomp horder hcount hlocated
    have hbefore : c.CountedBy r := hcount.counted
    have hmem : e ∈ edits := (List.mergeSort_perm edits precedes).mem_iff.1
      (horder ▸ List.mem_append_right done (List.mem_cons_self ..) : e ∈ inOrder edits)
    have hfails : ∀ f, p.step r e = .error f →
        c.editAllBy r edits = (c.spread (slot done), some f) := by
      intro f hstep
      rw [editAllBy, horder, EditPass.run_append hrun, EditPass.run_cons_error hstep, ← hp.children]
    refine ⟨fun hround hstays => ?_, fun haround => ?_, fun hoverflow hr => ?_⟩
    · obtain ⟨f, hfail, hstep⟩ := hp.step_stray hlocated (hshift _) hstray (hwords e hmem)
        hbefore hrest.counted hround hstays
      exact ⟨f, hfail, hfails _ hstep⟩
    · have hstep := hp.step_around hlocated (hshift _) hstray (hwords e hmem) hbefore
        hrest.counted haround
      exact ⟨_, EditPass.run_concat hrun hstep, hp.children ▸ rfl⟩
    · subst hr
      exact hfails _ (hp.step_overflow hlocated (hshift _) hstray (hwords e hmem) hbefore
        hrest.counted hoverflow)

/-- The last index of all, in a group that has become shorter, between edits of
two groups. -/
def straySearch : List (ChildEdit Nat) :=
  [⟨⟨.named "a", 1⟩, .insertAfter, 1⟩, ⟨.unnamed (2 ^ 64 - 1), .replace, 2⟩,
    ⟨.unnamed 0, .delete, 0⟩, ⟨⟨.named "b", 2⟩, .replace, 3⟩]

/-- The missing group comes first in order, and its error is the one reported. -/
theorem straySearch_by_lookup : Compatible straySearch
    ∧ (∀ e ∈ straySearch, e.location.index < 2 ^ 64)
    ∧ (EditPass.start twoRows).StaysCounted (.words .stops) (inOrder straySearch)
    ∧ ∃ d, twoRows.editAllBy (.words .stops) straySearch
        = (d, some (.failure (.unknownGroup (.named "b"))))
      ∧ d.groups = [(.unnamed, [11, 12]), (.named "a", [20, 21, 1])] := by
  have hcomp : Compatible straySearch := by decide
  have hwords : ∀ e ∈ straySearch, e.location.index < 2 ^ 64 := by decide
  have hcount : (EditPass.start twoRows).StaysCounted (.words .stops) (inOrder straySearch) :=
    EditPass.staysCounted_start (by decide)
  have hfirst : FirstStray twoRows straySearch
      [⟨.unnamed 0, .delete, 0⟩, ⟨⟨.named "a", 1⟩, .insertAfter, 1⟩]
      ⟨⟨.named "b", 2⟩, .replace, 3⟩ := by
    refine ⟨⟨[⟨.unnamed (2 ^ 64 - 1), .replace, 2⟩], ?_⟩, ?_, fun x h => ?_⟩
    · simp [inOrder, straySearch, List.mergeSort, List.MergeSort.Internal.splitInTwo, precedes,
        Location.unnamed]
    · simp only [Located, List.forall_mem_cons]
      exact ⟨⟨10, rfl⟩, ⟨21, rfl⟩, List.forall_mem_nil _⟩
    · cases h
  obtain ⟨f, hf, hall⟩ := ((editAll_by_lookup twoRows hcomp hwords hcount).2.2 _ _ hfirst).1
    (fun h => absurd h.group (by decide)) fun _ h => absurd h.group (by decide)
  obtain rfl : f = .unknownGroup (.named "b") := (Except.error.inj hf).symm
  exact ⟨hcomp, hwords, hcount, _, hall, by decide⟩

/-- An insertion in front of the only child, and a replacement at an index far away. -/
def distantEdits (index : Nat) : List (ChildEdit Nat) :=
  [⟨.unnamed 0, .insertBefore, 1⟩, ⟨.unnamed index, .replace, 2⟩]

/-- At the last index of all, the replacement names no child and is carried out on the
inserted one.  In the middle, words that stop are at their end. -/
theorem distantEdits_come_around :
    Compatible (distantEdits (2 ^ 64 - 1)) ∧ Compatible (distantEdits (2 ^ 63 - 1))
    ∧ (unnamed [10]).childAt (.unnamed (2 ^ 64 - 1))
      = .error (.childOutOfBounds .unnamed (2 ^ 64 - 1) 1)
    ∧ (unnamed [10]).editBy (.words .wraps) (distantEdits (2 ^ 64 - 1)) = .ok (unnamed [2, 10])
    ∧ (unnamed [10]).editBy (.words .stops) (distantEdits (2 ^ 64 - 1)) = .ok (unnamed [2, 10])
    ∧ (unnamed [10]).childAt (.unnamed (2 ^ 63 - 1))
      = .error (.childOutOfBounds .unnamed (2 ^ 63 - 1) 1)
    ∧ (unnamed [10]).editBy (.words .stops) (distantEdits (2 ^ 63 - 1))
      = .error (.misuse (.overflow .add)) := by
  refine ⟨by decide, by decide, rfl, ?_, ?_, rfl, ?_⟩
  all_goals
    rw [editBy, editAllBy, inOrder_eq_self (by decide)]
    rfl

end NamedChildren

end Topiary
