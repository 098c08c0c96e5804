/-
Topiary.Proofs.MultiZipper.SingleEdit — one edit of one child, four ways.

The location of a child is looked up in four places: when the child is read,
when it is removed, when a zipper moves up, and when the zippers below one
parent are folded, be it a single one.  Each place has its own check and two
of them have their own deletion.  They agree on every location that a program
can name, and both ways up make the same copy of the parent.

* `NamedChildren.editBy_singleton_error` — a batch of one edit fails as the lookup
  does.
* `Adapter.editChild` — a copy of a node with an edit of one child;
  `Adapter.removeChild_eq` — removing a child is a lookup and such a copy.
* `Zipper.parentCopy_of_ok`, `Zipper.parentCopy_of_error` — moving up.
* `Zipper.single_edits_agree` — all four.
-/
import Topiary.Proofs.ChildEdit.Stray
import Topiary.Proofs.MultiZipper.Batch
import Topiary.Proofs.Tree

namespace Topiary

variable {N : Type}

open NamedChildren ChildEdit

/-! ## The batch of one edit -/

/-- Before the first edit no group has grown, so that no position comes
around. -/
theorem ChildEdit.not_comesAround_nil {c : NamedChildren N} {e : ChildEdit N}
    (hword : e.location.index < 2 ^ 64) : ¬ ComesAround c [] e := by
  rintro ⟨-, -, haround⟩
  have hzero : growthOf ([] : List (ChildEdit N)) e.location.group = 0 := rfl
  omega

/-- Nor does one leave the words. -/
theorem ChildEdit.not_overflows_nil {c : NamedChildren N} {e : ChildEdit N} :
    ¬ Overflows c [] e := by
  rintro ⟨-, hcrosses⟩
  have hzero : growthOf ([] : List (ChildEdit N)) e.location.group = 0 := rfl
  omega

/-- A batch of one edit of a child that does not exist. -/
theorem NamedChildren.editBy_singleton_error {r : Reckoning} (c : NamedChildren N)
    {e : ChildEdit N} {f : Failure} (hword : e.location.index < 2 ^ 64) (hcount : c.CountedBy r)
    (hf : c.childAt e.location = .error f) : c.editBy r [e] = .error (.failure f) := by
  have hstray : ∀ x, c.childAt e.location ≠ .ok x := by
    intro x hx
    rw [hf] at hx
    cases hx
  obtain ⟨f', hf', hstep⟩ := (EditPass.stands_start c).step_stray (List.forall_mem_nil _)
    rfl hstray hword hcount hcount (not_comesAround_nil hword) fun _ => not_overflows_nil
  obtain rfl : f = f' := Except.error.inj (hf.symm.trans hf')
  have hsort : inOrder [e] = [e] := List.mergeSort_singleton _
  simp only [editBy, editAllBy, hsort, EditPass.run_cons_error hstep]

/-! ## The copy of the parent -/

/-- A copy of `x` with an edit of one child. -/
def Adapter.editChild (A : Adapter N) (site : Site) (x : N) (l : Location) (kind : EditKind)
    (node : N) : N :=
  A.rebuild site x ((A.children x).modify l.group (kind.perform l.index node))

theorem Adapter.Lawful.children_editChild {A : Adapter N} (hA : A.Lawful) (site : Site) (x : N)
    (l : Location) (kind : EditKind) (node : N) :
    A.children (A.editChild site x l kind node)
      = (A.children x).modify l.group (kind.perform l.index node) :=
  hA.children_rebuild ..

/-- Removing a child checks the location as the lookup does. -/
theorem Adapter.removeChild_eq (A : Adapter N) (site : Site) (x : N) (l : Location) (node : N) :
    A.removeChild site x l
      = ((A.children x).childAt l).map fun _ => A.editChild site x l .delete node := by
  unfold removeChild childAt
  cases hget : (A.children x).get? l.group with
  | none => rfl
  | some xs =>
    by_cases hi : l.index < xs.length
    · simp only [if_pos hi, List.getElem?_eq_getElem hi]
      rfl
    · simp only [if_neg hi, List.getElem?_eq_none (Nat.not_lt.1 hi)]
      rfl

namespace Zipper

variable {r : Reckoning} {A : Adapter N}

/-- The copy of the parent of a child that exists. -/
theorem parentCopy_of_ok (crumb : Breadcrumb N) (site : Site) (kind : EditKind) (node : N) {y : N}
    (hcount : (A.children crumb.node).CountedBy r)
    (hy : (A.children crumb.node).childAt crumb.location = .ok y) :
    parentCopy r A site kind node crumb
      = .ok (A.editChild site crumb.node crumb.location kind node) :=
  parentCopy_eq site hy hcount (editBy_singleton _ hy hcount kind node)

/-- There is no copy of the parent of a child that does not exist. -/
theorem parentCopy_of_error (crumb : Breadcrumb N) (site : Site) (kind : EditKind) (node : N)
    {f : Failure} (hword : crumb.location.index < 2 ^ 64)
    (hcount : (A.children crumb.node).CountedBy r)
    (hf : (A.children crumb.node).childAt crumb.location = .error f) :
    parentCopy r A site kind node crumb = .error (.failure f) := by
  have hedit := editBy_singleton_error (A.children crumb.node)
    (e := ⟨crumb.location, kind, node⟩) hword hcount hf
  cases kind with
  | delete =>
    have hremove : A.removeChild site crumb.node crumb.location = .error f := by
      rw [A.removeChild_eq _ _ _ node, hf]
      rfl
    simp only [parentCopy, hremove]
  | replace => simp only [parentCopy, hedit]
  | insertBefore => simp only [parentCopy, hedit]
  | insertAfter => simp only [parentCopy, hedit]

/-! ## The ways agree -/

section

variable [Identified N] {x : N} {l : Location}

/-- Reading a child, removing it, moving a zipper up from it and folding this
zipper as a group of one agree on every parent whose groups can be counted, and on every
location with an index of 64 bits.  Where the child does not exist, all of them fail,
and with the same error.  Where it exists, none fails.  The zipper that moves up and the
one that is folded then leave a replacement of the parent by the same copy, and the copy
without the child is the one that a deletion leaves. -/
theorem single_edits_agree {r : Reckoning} (A : Adapter N) (x : N) (l : Location)
    (hword : l.index < 2 ^ 64) (hcount : (A.children x).CountedBy r)
    (above : List (Breadcrumb N)) :
    (∀ f, (A.children x).childAt l = .error f →
      (∀ site, A.removeChild site x l = .error f)
      ∧ ∀ kind node base,
        moveUp r A base ⟨node, ⟨x, l⟩ :: above, kind⟩ = .error (.failure f)
        ∧ (Siblings.ofZippers [⟨node, ⟨x, l⟩ :: above, kind⟩]).map (Siblings.fold r A base)
          = [.error (.failure f)])
    ∧ ∀ y, (A.children x).childAt l = .ok y →
      (∀ site node, A.removeChild site x l = .ok (A.editChild site x l .delete node))
      ∧ ∀ kind node base,
        let site := base.below (steps above)
        moveUp r A base ⟨node, ⟨x, l⟩ :: above, kind⟩
          = .ok (.ofNode (A.editChild site x l kind node) above)
        ∧ (Siblings.ofZippers [⟨node, ⟨x, l⟩ :: above, kind⟩]).map (Siblings.fold r A base)
          = [.ok (.ofNode (A.editChild site x l kind node) above, ⟨site, x⟩)] := by
  have hgroup : ∀ kind node,
      Siblings.ofZippers [(⟨node, ⟨x, l⟩ :: above, kind⟩ : Zipper N)]
        = [⟨x, above, [⟨l, kind, node⟩]⟩] := fun kind node =>
    Siblings.ofZippers_zipper x above
      (List.cons_ne_nil (⟨l, kind, node⟩ : ChildEdit N) [])
  constructor
  · intro f hf
    refine ⟨fun site => ?_, fun kind node base => ⟨?_, ?_⟩⟩
    · rw [A.removeChild_eq _ _ _ x, hf]
      rfl
    · simp only [moveUp, parentCopy_of_error ⟨x, l⟩ _ kind node hword hcount hf]
    · have hedit := editBy_singleton_error (A.children x) (e := ⟨l, kind, node⟩) hword hcount hf
      rw [hgroup, List.map_singleton]
      simp only [Siblings.fold, hedit]
      rfl
  · intro y hy
    refine ⟨fun site node => ?_, fun kind node base => ⟨?_, ?_⟩⟩
    · rw [A.removeChild_eq _ _ _ node, hy]
      rfl
    · simp only [moveUp, parentCopy_of_ok ⟨x, l⟩ _ kind node hcount hy]
    · rw [hgroup, List.map_singleton]
      simp only [Siblings.fold, editBy_singleton _ hy hcount kind node]
      rfl

/-- The last index of all names no child of the hedge, and index 1 names the
second one. -/
theorem hedge_edits_agree :
    2 ^ 64 - 1 < 2 ^ 64
    ∧ (Tree.adapter.children Tree.hedge).CountedBy (.words .stops)
    ∧ (⟨Tree.hedge, [⟨Tree.hedge, .unnamed (2 ^ 64 - 1)⟩], .insertAfter⟩ : Zipper Tree).moveUp
        (.words .stops) Tree.adapter (.ofRun 0)
      = .error (.failure (.childOutOfBounds .unnamed (2 ^ 64 - 1) 2))
    ∧ ∃ parent : Tree, (⟨Tree.hedge, [⟨Tree.hedge, .unnamed 1⟩], .delete⟩ : Zipper Tree).moveUp
        (.words .stops) Tree.adapter (.ofRun 0) = .ok (.ofNode parent [])
      ∧ parent.render = "a(b(d,e))" := by
  have hword : (2 ^ 64 - 1 : Nat) < 2 ^ 64 := by decide
  have hcount : (Tree.adapter.children Tree.hedge).CountedBy (.words .stops) := by
    simp only [CountedBy, Reckoning.Counts]
    decide
  have hbeyond := (single_edits_agree Tree.adapter Tree.hedge (.unnamed (2 ^ 64 - 1))
    hword hcount []).1 _ rfl
  have hsecond := (single_edits_agree Tree.adapter Tree.hedge (.unnamed 1)
    (by decide) hcount []).2 _ rfl
  exact ⟨hword, hcount, (hbeyond.2 .insertAfter Tree.hedge (.ofRun 0)).1, _,
    (hsecond.2 .delete Tree.hedge (.ofRun 0)).1, by cbv⟩

end

end Zipper

end Topiary
