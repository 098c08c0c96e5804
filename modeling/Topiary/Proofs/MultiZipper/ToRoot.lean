/-
Topiary.Proofs.MultiZipper.ToRoot — folding is simultaneous editing.

Level by level all zippers are folded until one is left, which climbs to the
root.  Every level and every step of the climb is a fold of the kind studied
before, so the tree that comes out is the one that stands at the root when
all edits are carried out at once, and the ledger lists the copies that this
asks for, each of them once.

* `folds_foldLevels` — all levels.
* `folds_climb` — the way up of the last zipper.
* `MultiZipper.toRoot_eq_standing` — the whole computation.
-/
import Topiary.Proofs.MultiZipper.Absorb
import Topiary.Proofs.MultiZipper.Batch
import Topiary.Tree

namespace Topiary

variable {N : Type}

namespace Zipper

open NamedChildren Siblings

variable {A : Adapter N} {base : Site} {root : N}

/-! ## All levels -/

theorem Admissible.perm {zs zs' : List (Zipper N)} (h : Admissible A root zs)
    (hperm : zs.Perm zs') : Admissible A root zs' where
  leads := fun z hz => h.leads z (hperm.mem_iff.2 hz)
  root_replaced := fun z hz => h.root_replaced z (hperm.mem_iff.2 hz)
  apart := by
    refine (List.Perm.pairwise_iff ?_ hperm).1 h.apart
    intro a b hab hp
    obtain ⟨hb, ha, hr⟩ := hab hp.symm
    exact ⟨ha, hb, fun hk => hr hk.symm⟩

/-- At the root there is room for one zipper. -/
theorem Admissible.length_le_one {zs : List (Zipper N)} (h : Admissible A root zs)
    (hdepth : ∀ z ∈ zs, z.depth ≤ 0) : zs.length ≤ 1 := by
  have hroot : ∀ z ∈ zs, z.crumbs = [] := fun z hz =>
    List.eq_nil_of_length_eq_zero (Nat.le_zero.1 (hdepth z hz))
  match zs with
  | [] => exact Nat.zero_le 1
  | [_] => exact Nat.le_refl 1
  | a :: b :: zs =>
    have ha := List.mem_cons_self (a := a) (l := b :: zs)
    have hb := List.mem_cons_of_mem a (List.mem_cons_self (a := b) (l := zs))
    have hapart := (List.pairwise_cons.1 h.apart).1 b (List.mem_cons_self ..)
    rw [hroot a ha, hroot b hb] at hapart
    exact absurd ⟨h.root_replaced a ha (hroot a ha), h.root_replaced b hb (hroot b hb)⟩
      (hapart rfl).2.2

theorem nodesAt_by_depth (zs : List (Zipper N)) (d : Nat) (q : List Location)
    (kind : EditKind) :
    nodesAt zs q kind = nodesAt ((zs.filter fun z => !(z.depth == d + 1))
      ++ zs.filter fun z => z.depth == d + 1) q kind := by
  rw [nodesAt_append]
  by_cases hq : q.length = d + 1
  · have hnil : nodesAt (zs.filter fun z => !(z.depth == d + 1)) q kind = [] := by
      rw [nodesAt_eq_nil_iff]
      rintro z hz rfl
      simp [List.mem_filter, depth] at hz hq
      exact absurd hq hz.2
    rw [hnil, nodesAt_filter, List.nil_append]
    rintro z - rfl -
    simpa [depth] using hq
  · have hnil : nodesAt (zs.filter fun z => z.depth == d + 1) q kind = [] := by
      rw [nodesAt_eq_nil_iff]
      rintro z hz rfl
      simp [List.mem_filter, depth] at hz hq
      exact absurd hz.2 hq
    rw [hnil, nodesAt_filter, List.append_nil]
    rintro z - rfl -
    simpa [depth] using hq

variable [Identified N]

/-- The deepest zippers, split by parent, below the others. -/
theorem level_of_depth {zs : List (Zipper N)} {d : Nat} (h : Admissible A root zs)
    (hdepth : ∀ z ∈ zs, z.depth ≤ d + 1) :
    Level A root d (ofZippers (zs.filter fun z => z.depth == d + 1))
      (zs.filter fun z => !(z.depth == d + 1)) (zs.filter fun z => z.depth == d + 1) where
  admissible := h.perm ((List.filter_append_perm _ zs).symm.trans List.perm_append_comm)
  grouped := grouped_ofZippers fun z hz => h.leads z (List.mem_filter.1 hz).1
  higher_depth := by
    intro z hz
    obtain ⟨hz, hne⟩ := List.mem_filter.1 hz
    have hle := hdepth z hz
    simp only [Bool.not_eq_true', beq_eq_false_iff_ne] at hne
    omega
  rest_depth := fun z hz => eq_of_beq (List.mem_filter.1 hz).2

/-- Folding all levels leaves at most one zipper. -/
theorem folds_foldLevels (base : Site) (d : Nat) : ∀ {zs : List (Zipper N)},
    Admissible A root zs → (∀ z ∈ zs, z.depth ≤ d) →
    ∃ zs' ledger, MultiZipper.foldLevels A base d zs = .ok (zs', ledger)
      ∧ Folds A base root zs ledger zs' ∧ zs'.length ≤ 1 := by
  induction d with
  | zero =>
    intro zs h hdepth
    have hlen := h.length_le_one hdepth
    exact ⟨zs, [], by rw [MultiZipper.foldLevels, if_pos hlen], .refl h, hlen⟩
  | succ d ih =>
    intro zs h hdepth
    by_cases hlen : zs.length ≤ 1
    · exact ⟨zs, [], by rw [MultiZipper.foldLevels, if_pos hlen], .refl h, hlen⟩
    · have hlevel := level_of_depth h hdepth
      obtain ⟨zs', ledger, hall, hfolds, hdepth'⟩ := hlevel.absorbAll base
      obtain ⟨zs'', more, hmore, hfolds', hlen'⟩ := ih hfolds.admissible hdepth'
      have hsplit : Folds A base root zs [] _ :=
        .of_nodesAt hlevel.admissible (nodesAt_by_depth zs d)
      refine ⟨zs'', ledger ++ more, ?_, (hsplit.trans hfolds).trans hfolds', hlen'⟩
      rw [MultiZipper.foldLevels, if_neg hlen, List.partition_eq_filter_filter]
      simp only [Function.comp_def, hall, bind, Except.bind, hmore]
      rfl

/-! ## The last zipper -/

/-- The last zipper climbs to the root. -/
theorem folds_climb (base : Site) (crumbs : List (Breadcrumb N)) : ∀ {kind : EditKind} {node : N},
    Admissible A root [⟨node, crumbs, kind⟩] →
    ∃ tree ledger, climb A base kind node crumbs = .ok (tree, ledger)
      ∧ Folds A base root [⟨node, crumbs, kind⟩] ledger [.ofNode tree []] := by
  induction crumbs with
  | nil =>
    intro kind node h
    obtain rfl := h.root_replaced _ (List.mem_singleton.2 rfl) rfl
    exact ⟨node, [], rfl, .refl h⟩
  | cons crumb above ih =>
    intro kind node h
    obtain ⟨x, hx⟩ := h.leads _ (List.mem_singleton.2 rfl)
    cases hx with
    | child hlead hchild =>
      have hlevel : Level A root above.length [⟨crumb.node, above, [⟨crumb.location, kind, node⟩]⟩]
          [] [⟨node, crumb :: above, kind⟩] :=
        ⟨h, grouped_ofZippers h.leads, by simp, by simp [depth]⟩
      obtain ⟨-, hfolds, -⟩ := hlevel.absorb_folded base
        (mt hlevel.any_isOverriddenBy_iff.2 (by simp))
      have hnone : elsewhere ⟨crumb.node, above, [⟨crumb.location, kind, node⟩]⟩
          [(⟨node, crumb :: above, kind⟩ : Zipper N)] = [] := by
        simp [elsewhere, editBelow]
      rw [hnone] at hfolds
      obtain ⟨tree, ledger, hclimb, hfolds'⟩ := ih hfolds.admissible
      refine ⟨tree, _, ?_, hfolds.trans hfolds'⟩
      have hparent := parentCopy_eq (base.below (steps above)) hchild
        (A.children crumb.node).countedBy_integers hlevel.edit_eq_spread
      have hclimb' : climb A base .replace (A.rebuild (base.below (steps above)) crumb.node
          ((A.children crumb.node).spread (ChildEdit.slot [⟨crumb.location, kind, node⟩]))) above
          = .ok (tree, ledger) := hclimb
      simp only [climb, bind, Except.bind, hparent, hclimb']
      rfl

theorem standing_of_root (tree : N) :
    Zipper.standing A base [.ofNode tree []] [] root = some tree := by
  refine standing_of_replaced tree rfl rfl ?_
  rintro ⟨z, hz, hlt, -⟩
  rw [List.mem_singleton.1 hz] at hlt
  exact Nat.lt_irrefl _ hlt

theorem not_copied_of_root (tree : N) (entry : Rebuild N) :
    ¬ Copied A base root [.ofNode tree []] entry := by
  rintro ⟨crumbs, x, -, -, ⟨z, hz, hlt, -⟩, -⟩
  rw [List.mem_singleton.1 hz] at hlt
  exact Nat.not_lt_zero _ hlt

/-- Without zippers every node stays. -/
theorem standing_nil (p : List Location) (x : N) :
    Zipper.standing A base [] p x = some x := by
  rw [standing_of_not_below (by simp [Below])]
  rfl

end Zipper

/-! ## The root -/

namespace MultiZipper

open Zipper

/-- Folding zippers that do not contradict each other carries all of them out
at once.  It succeeds with the tree that stands at the root: nodes that are
deleted or replaced by others hide what is below them, nodes above an edit
are rebuilt around what their children come to, and all others are kept.  The
ledger holds a copy of each node with an edit below it that is not itself
deleted or replaced by another, and holds it once. -/
theorem toRoot_eq_standing [Identified N] (A : Adapter N) (base : Site) (m : MultiZipper N)
    (h : Admissible A m.root m.zippers) :
    ∃ tree ledger, m.toRoot A base = .ok (tree, ledger)
      ∧ standing A base m.zippers [] m.root = some tree
      ∧ ledger.Nodup ∧ ∀ entry, entry ∈ ledger ↔ Copied A base m.root m.zippers entry := by
  obtain ⟨zs, ledger, hlevels, hfolds, hlen⟩ :=
    folds_foldLevels base (maxDepth m.zippers) h fun _ hz => depth_le_maxDepth hz
  match zs with
  | [] =>
    refine ⟨m.root, ledger, ?_, ?_, hfolds.once, ?_⟩
    · simp only [toRoot, hlevels, bind, Except.bind]
      rfl
    · rw [hfolds.standing, standing_nil]
    · intro entry
      rw [hfolds.copied, or_iff_left]
      rintro ⟨crumbs, x, -, -, ⟨z, hz, -⟩, -⟩
      exact List.not_mem_nil hz
  | [⟨node, crumbs, kind⟩] =>
    obtain ⟨tree, more, hclimb, hfolds'⟩ := folds_climb base crumbs hfolds.admissible
    have hall := hfolds.trans hfolds'
    refine ⟨tree, ledger ++ more, ?_, ?_, hall.once, ?_⟩
    · simp only [toRoot, hlevels, bind, Except.bind, Zipper.toRoot, hclimb]
      rfl
    · rw [hall.standing, standing_of_root]
    · intro entry
      rw [hall.copied, or_iff_left (not_copied_of_root tree entry)]

/-- Under the root `r(a(c),b)`: `x` for `c`, `y` before `a`, and `b` deleted. -/
def nestedEdits : MultiZipper Tree :=
  let c : Tree := .node (.given 3) "c" []
  let a : Tree := .node (.given 1) "a" [(.unnamed, [c])]
  let b : Tree := .node (.given 2) "b" []
  let r : Tree := .node (.given 0) "r" [(.unnamed, [a, b])]
  ⟨r, [⟨.node (.given 4) "x" [], [⟨a, .unnamed 0⟩, ⟨r, .unnamed 0⟩], .replace⟩,
    ⟨.node (.given 5) "y" [], [⟨r, .unnamed 0⟩], .insertBefore⟩,
    ⟨b, [⟨r, .unnamed 1⟩], .delete⟩]⟩

theorem nestedEdits_toRoot :
    Admissible Tree.adapter nestedEdits.root nestedEdits.zippers ∧
    ∃ tree ledger, nestedEdits.toRoot Tree.adapter (.ofRun 0) = .ok (tree, ledger)
      ∧ tree.render = "r(y,a(x))" ∧ ⟨.ofRun 0, nestedEdits.root⟩ ∈ ledger := by
  have h : Admissible Tree.adapter nestedEdits.root nestedEdits.zippers := by
    refine ⟨?_, by decide, by decide⟩
    simp only [nestedEdits, List.forall_mem_cons]
    exact ⟨⟨_, .child (.child .root rfl) rfl⟩, ⟨_, .child .root rfl⟩, ⟨_, .child .root rfl⟩,
      by simp⟩
  obtain ⟨tree, ledger, hroot, hstanding, -, hledger⟩ :=
    toRoot_eq_standing Tree.adapter (.ofRun 0) nestedEdits h
  refine ⟨h, tree, ledger, hroot, ?_, (hledger _).2 ⟨[], _, .root, rfl, by decide, ?_⟩⟩
  · have hrender : (standing Tree.adapter (.ofRun 0) nestedEdits.zippers [] nestedEdits.root).map
        Tree.render = some "r(y,a(x))" := by decide +kernel
    rw [hstanding] at hrender
    exact Option.some.inj hrender
  · simp [Overridden, nodesAt, nestedEdits, steps]

end MultiZipper

end Topiary
