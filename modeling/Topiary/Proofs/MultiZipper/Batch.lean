/-
Topiary.Proofs.MultiZipper.Batch — zippers one step below one node.

Zippers on children of one node are edits of that node.  To fold them is to
carry out these edits as one batch on one copy of the node, however many
there are: a single zipper, which moves up by itself, makes the same copy as
several, which are gathered first.

* `Zipper.parentCopy_eq` — moving up is a batch of one edit.
* `MultiZipper.toRoot_of_children` — all edits of the children of the root.
-/
import Topiary.MultiZipper
import Topiary.Proofs.ChildEdit.Positional

namespace Topiary

variable {N : Type}

/-- An edit of a child of `x` as a zipper. -/
def ChildEdit.zipper (x : N) (above : List (Breadcrumb N)) (e : ChildEdit N) : Zipper N :=
  ⟨e.node, ⟨x, e.location⟩ :: above, e.kind⟩

namespace Zipper

open NamedChildren

variable {A : Adapter N}

/-- One edit of a child that exists. -/
theorem parentCopy_eq {r : Reckoning} (site : Site) {kind : EditKind} {node x : N}
    {crumb : Breadcrumb N} {c : NamedChildren N}
    (hx : (A.children crumb.node).childAt crumb.location = .ok x)
    (hcount : (A.children crumb.node).CountedBy r)
    (hc : (A.children crumb.node).editBy r [⟨crumb.location, kind, node⟩] = .ok c) :
    parentCopy r A site kind node crumb = .ok (A.rebuild site crumb.node c) := by
  cases kind with
  | delete =>
    obtain ⟨nodes, hmem, hi⟩ := (childAt_eq_ok_iff _ _ _).1 hx
    have hget := (get?_eq_some_iff _ _ _).2 hmem
    rw [editBy_singleton _ hx hcount, Except.ok.injEq] at hc
    simp only [parentCopy, Adapter.removeChild, hget, if_pos (List.getElem?_eq_some_iff.1 hi).1,
      ← hc]
    rfl
  | replace => simp only [parentCopy, hc]
  | insertBefore => simp only [parentCopy, hc]
  | insertAfter => simp only [parentCopy, hc]

end Zipper

/-! ## One group -/

namespace Siblings

theorem gather_foldl [Identified N] (x : N) (above : List (Breadcrumb N))
    (done edits : List (ChildEdit N)) :
    (edits.map fun e => (⟨x, above, [e]⟩ : Siblings N)).foldl (fun groups s => gather s groups)
        [⟨x, above, done⟩]
      = [⟨x, above, done ++ edits⟩] := by
  induction edits generalizing done with
  | nil => simp
  | cons e edits ih =>
    have hstep : gather ⟨x, above, [e]⟩ [⟨x, above, done⟩]
        = [(⟨x, above, done ++ [e]⟩ : Siblings N)] := by
      simp [gather, sameParent]
    rw [List.map_cons, List.foldl_cons, hstep, ih, List.append_assoc, List.singleton_append]

/-- Zippers below one node are one group. -/
theorem ofZippers_zipper [Identified N] (x : N) (above : List (Breadcrumb N))
    {edits : List (ChildEdit N)} (h : edits ≠ []) :
    ofZippers (edits.map (ChildEdit.zipper x above)) = [⟨x, above, edits⟩] := by
  have hall : (edits.map (ChildEdit.zipper x above)).filterMap ofZipper?
      = edits.map fun e => ⟨x, above, [e]⟩ := by
    rw [List.filterMap_map, ← List.filterMap_eq_map]
    rfl
  obtain ⟨e, rest, rfl⟩ := List.exists_cons_of_ne_nil h
  rw [ofZippers, hall, List.map_cons, List.foldl_cons]
  exact gather_foldl x above [e] rest

end Siblings

/-! ## The fold -/

namespace MultiZipper

open Zipper

variable {A : Adapter N} {base : Site} {x : N} {c : NamedChildren N}

theorem maxDepth_zipper {edits : List (ChildEdit N)} (h : edits ≠ []) :
    maxDepth (edits.map (ChildEdit.zipper x [])) = 1 := by
  have hone : ∀ es : List (ChildEdit N),
      ((es.map (ChildEdit.zipper x [])).map depth).foldl max 1 = 1 := by
    intro es
    induction es with
    | nil => rfl
    | cons e es ih => exact ih
  obtain ⟨e, rest, rfl⟩ := List.exists_cons_of_ne_nil h
  exact hone rest

/-- One zipper moves up by itself. -/
theorem toRoot_of_child [Identified N] (e : ChildEdit N) {y : N}
    (hloc : (A.children x).childAt e.location = .ok y)
    (hc : (A.children x).editBy .integers [e] = .ok c) :
    toRoot A base ⟨x, [e.zipper x []]⟩ = .ok (A.rebuild base x c, [⟨base, x⟩]) := by
  have hcopy : parentCopy .integers A base e.kind e.node ⟨x, e.location⟩
      = .ok (A.rebuild base x c) :=
    parentCopy_eq base hloc (A.children x).countedBy_integers hc
  have hlevels : foldLevels A base (maxDepth [e.zipper x []]) [e.zipper x []]
      = .ok ([e.zipper x []], []) := rfl
  have hclimb : Zipper.toRoot A base (e.zipper x []) = .ok (A.rebuild base x c, [⟨base, x⟩]) := by
    have hsite : base.below (steps ([] : List (Breadcrumb N))) = base := rfl
    simp [Zipper.toRoot, ChildEdit.zipper, climb, hsite, hcopy, bind, Except.bind, pure,
      Except.pure]
  rw [toRoot, hlevels]
  show (Zipper.toRoot A base (e.zipper x []) >>= fun r => pure (r.1, [] ++ r.2)) = _
  rw [hclimb]
  rfl

/-- Several zippers are gathered and folded. -/
theorem toRoot_of_several [Identified N] {edits : List (ChildEdit N)} (hlen : 1 < edits.length)
    (hc : (A.children x).editBy .integers edits = .ok c) :
    toRoot A base ⟨x, edits.map (ChildEdit.zipper x [])⟩
      = .ok (A.rebuild base x c, [⟨base, x⟩]) := by
  have hne : edits ≠ [] := by
    rintro rfl
    simp at hlen
  have hparts : (edits.map (ChildEdit.zipper x [])).partition (fun z => z.depth == 0 + 1)
      = (edits.map (ChildEdit.zipper x []), []) := by
    have hall : ∀ z ∈ edits.map (ChildEdit.zipper x []), (z.depth == 0 + 1) = true := by
      intro z hz
      obtain ⟨e, -, rfl⟩ := List.mem_map.1 hz
      rfl
    rw [List.partition_eq_filter_filter, List.filter_eq_self.2 hall, Prod.mk.injEq]
    exact ⟨rfl, List.filter_eq_nil_iff.2 fun z hz => by simp [hall z hz]⟩
  have hfold : Siblings.absorbAll A base [⟨x, [], edits⟩] []
      = .ok ([.ofNode (A.rebuild base x c) []], [⟨base, x⟩]) := by
    have hsite : base.below (steps ([] : List (Breadcrumb N))) = base := rfl
    simp [Siblings.absorbAll, Siblings.absorb, Siblings.fold, hc, hsite, bind, Except.bind, pure,
      Except.pure]
  have hlevels : foldLevels A base 1 (edits.map (ChildEdit.zipper x []))
      = .ok ([.ofNode (A.rebuild base x c) []], [⟨base, x⟩]) := by
    rw [foldLevels, if_neg (by rw [List.length_map]; omega), hparts]
    simp only [Siblings.ofZippers_zipper x [] hne, hfold]
    rfl
  rw [toRoot, maxDepth_zipper hne]
  simp only [hlevels]
  rfl

/-- Edits of the children of the root are one batch. -/
theorem toRoot_of_children [Identified N] {edits : List (ChildEdit N)} (hne : edits ≠ [])
    (hloc : ChildEdit.Located (A.children x) edits)
    (hc : (A.children x).editBy .integers edits = .ok c) :
    toRoot A base ⟨x, edits.map (ChildEdit.zipper x [])⟩
      = .ok (A.rebuild base x c, [⟨base, x⟩]) := by
  match edits with
  | [] => exact absurd rfl hne
  | [e] =>
    obtain ⟨y, hy⟩ := hloc e (List.mem_singleton_self e)
    exact toRoot_of_child e hy hc
  | e :: d :: rest => exact toRoot_of_several (by simp) hc

end MultiZipper

end Topiary
