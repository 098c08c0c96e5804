/-
Topiary.Proofs.MultiZipper.Fold — what a fold of zippers keeps.

A list of zippers is folded by exchanging some of them for zippers higher up.
That keeps what stands at the root, and splits the copies that the list asks
for into those that were made and those that are still to be made.

* `Admissible` — zippers that do not contradict each other.
* `Copied` — the copies that a list of zippers asks for.
* `Folds` — a list is folded to another with a ledger of copies;
  `Folds.trans` puts two folds together.
* `Folds.of_alike` — to fold all that is below one path it is enough to look
  at that path.
-/
import Topiary.Proofs.MultiZipper.Standing

namespace Topiary

variable {N : Type}

namespace Zipper

open NamedChildren Siblings

/-! ## Zippers that go together -/

/-- Zippers on paths of one tree that do not contradict each other: a node
is replaced at most once, a deletion is alone on its path, and the root is
only replaced. -/
structure Admissible (A : Adapter N) (root : N) (zs : List (Zipper N)) : Prop where
  leads : ∀ z ∈ zs, ∃ x, Leads A root z.crumbs x
  root_replaced : ∀ z ∈ zs, z.crumbs = [] → z.kind = .replace
  apart : zs.Pairwise fun a b => steps a.crumbs = steps b.crumbs →
    a.kind ≠ .delete ∧ b.kind ≠ .delete ∧ ¬ (a.kind = .replace ∧ b.kind = .replace)

/-- A copy that a list of zippers asks for: something is edited below a node
that is neither deleted nor replaced by another one. -/
def Copied [Identified N] (A : Adapter N) (base : Site) (root : N) (zs : List (Zipper N))
    (entry : Rebuild N) : Prop :=
  ∃ crumbs x, Leads A root crumbs x ∧ entry = ⟨base.below (steps crumbs), x⟩
    ∧ Below zs (steps crumbs) ∧ ¬ Overridden zs (steps crumbs) x

/-- The zippers `zs` are folded to `zs'` with the copies in the ledger. -/
structure Folds [Identified N] (A : Adapter N) (base : Site) (root : N) (zs : List (Zipper N))
    (ledger : List (Rebuild N)) (zs' : List (Zipper N)) : Prop where
  admissible : Admissible A root zs'
  standing : standing A base zs [] root = standing A base zs' [] root
  once : ledger.Nodup
  fresh : ∀ entry ∈ ledger, ¬ Copied A base root zs' entry
  copied : ∀ entry, Copied A base root zs entry ↔ entry ∈ ledger ∨ Copied A base root zs' entry

/-- Of admissible zippers at most one replaces the node at a path. -/
theorem Admissible.replace_unique {A : Adapter N} {root : N} {zs : List (Zipper N)}
    (h : Admissible A root zs) (p : List Location) :
    nodesAt zs p .replace = [] ∨ ∃ n, nodesAt zs p .replace = [n] := by
  have hnone : (nodesAt zs p .replace).Pairwise fun _ _ => False := by
    refine List.pairwise_filterMap.2 (h.apart.imp ?_)
    intro a b hab n hn m hm
    simp only [Option.ite_none_right_eq_some] at hn hm
    exact (hab (hn.1.1.trans hm.1.1.symm)).2.2 ⟨hn.1.2, hm.1.2⟩
  cases hns : nodesAt zs p .replace with
  | nil => exact .inl rfl
  | cons n ns =>
    rw [hns, List.pairwise_cons] at hnone
    cases ns with
    | nil => exact .inr ⟨n, rfl⟩
    | cons m ms => exact (hnone.1 m (List.mem_cons_self ..)).elim

variable [Identified N] {A : Adapter N} {base : Site} {root : N} {zs zs' : List (Zipper N)}

theorem Folds.trans {zs'' : List (Zipper N)} {ledger more : List (Rebuild N)}
    (h : Folds A base root zs ledger zs') (h' : Folds A base root zs' more zs'') :
    Folds A base root zs (ledger ++ more) zs'' where
  admissible := h'.admissible
  standing := h.standing.trans h'.standing
  once := List.nodup_append.2 ⟨h.once, h'.once, fun a ha b hb hab =>
    h.fresh a ha ((h'.copied a).2 (.inl (hab ▸ hb)))⟩
  fresh := by
    intro entry he hc
    rcases List.mem_append.1 he with he | he
    · exact h.fresh entry he ((h'.copied entry).2 (.inr hc))
    · exact h'.fresh entry he hc
  copied := by
    intro entry
    rw [h.copied, h'.copied, List.mem_append, or_assoc]

/-- Only the zippers at each path and of each kind count. -/
theorem Folds.of_nodesAt (hadm : Admissible A root zs')
    (h : ∀ q kind, nodesAt zs q kind = nodesAt zs' q kind) : Folds A base root zs [] zs' where
  admissible := hadm
  standing := standing_congr fun q kind _ => h q kind
  once := List.nodup_nil
  fresh := by simp
  copied := by
    intro entry
    simp only [Copied, below_iff, Overridden, h, List.not_mem_nil, false_or]

theorem Folds.refl (h : Admissible A root zs) : Folds A base root zs [] zs :=
  .of_nodesAt h fun _ _ => rfl

/-! ## Folding below one path -/

theorem standing_of_not_below {p : List Location} {x : N} (h : ¬ Below zs p) :
    Zipper.standing A base zs p x
      = if nodesAt zs p .delete ≠ [] then none else some (own zs p x) := by
  rw [standing_eq, if_neg h, ite_self]

/-- On a path that is deleted or replaced nothing else counts. -/
theorem standing_of_overridden (hadm : Admissible A root zs) {p : List Location} {x : N}
    (h : Overridden zs p x) (hdelete : nodesAt zs p .delete = nodesAt zs' p .delete)
    (hreplace : nodesAt zs p .replace = nodesAt zs' p .replace) :
    Zipper.standing A base zs p x = Zipper.standing A base zs' p x := by
  rw [standing_eq, standing_eq, own, own, ← hdelete, ← hreplace]
  by_cases hd : nodesAt zs p .delete = []
  · obtain ⟨n, hn, hid⟩ := h.resolve_left fun hne => hne hd
    rcases hadm.replace_unique p with hnil | ⟨m, hm⟩
    · simp [hnil] at hn
    · rw [hm, List.mem_singleton] at hn
      subst hn
      simp [hm, hid]
  · simp [hd]

/-- A replacement that nothing stands below is the last word. -/
theorem standing_of_replaced {p : List Location} {x : N} (n : N)
    (hdelete : nodesAt zs p .delete = []) (hreplace : nodesAt zs p .replace = [n])
    (hbelow : ¬ Below zs p) : Zipper.standing A base zs p x = some n := by
  rw [standing_of_not_below hbelow, own, hdelete, hreplace]
  rfl

theorem below_inj {base : Site} {p q : List Location} (h : base.below p = base.below q) :
    p = q := by
  rw [Site.below, Site.below, Site.mk.injEq] at h
  exact List.append_cancel_right h.2.1

/-- All zippers below a path are folded: the copy of the node there, unless
it is overridden, is the one that need no longer be made. -/
theorem Folds.of_alike {crumbs : List (Breadcrumb N)} {x₀ : N} {ledger : List (Rebuild N)}
    (hlead : Leads A root crumbs x₀) (hadm : Admissible A root zs')
    (hout : ∀ q kind, ¬ steps crumbs <:+ q → nodesAt zs q kind = nodesAt zs' q kind)
    (hbelow : Below zs (steps crumbs))
    (hdeep : ∀ q, (steps crumbs).length < q.length → ¬ Below zs q)
    (hgone : ∀ q, steps crumbs <:+ q → ¬ Below zs' q)
    (hat : ∃ kind, nodesAt zs' (steps crumbs) kind ≠ [])
    (halike : Alike A base zs zs' (steps crumbs) x₀)
    (hledger : ∀ entry, entry ∈ ledger
      ↔ entry = ⟨base.below (steps crumbs), x₀⟩ ∧ ¬ Overridden zs (steps crumbs) x₀)
    (honce : ledger.Nodup) : Folds A base root zs ledger zs' := by
  have hzs : ∃ q kind, steps crumbs <:+ q ∧ nodesAt zs q kind ≠ [] := by
    obtain ⟨q, kind, -, hq, hne⟩ := (below_iff _ _).1 hbelow
    exact ⟨q, kind, hq, hne⟩
  have hzs' : ∃ q kind, steps crumbs <:+ q ∧ nodesAt zs' q kind ≠ [] := by
    obtain ⟨kind, hne⟩ := hat
    exact ⟨_, kind, List.suffix_rfl, hne⟩
  -- away from the path both lists ask for the same copies
  have hsame : ∀ (cs : List (Breadcrumb N)) (x : N), steps cs ≠ steps crumbs →
      (Below zs (steps cs) ∧ ¬ Overridden zs (steps cs) x
        ↔ Below zs' (steps cs) ∧ ¬ Overridden zs' (steps cs) x) := by
    intro cs x hne
    by_cases hsuf : steps crumbs <:+ steps cs
    · have hlt : (steps crumbs).length < (steps cs).length :=
        Nat.lt_of_le_of_ne hsuf.length_le fun hl => hne (hsuf.eq_of_length hl).symm
      simp [hdeep _ hlt, hgone _ hsuf]
    · have hiff : Below zs (steps cs) ↔ Below zs' (steps cs) :=
        ⟨below_of_out hout hzs' hsuf,
          below_of_out (fun q kind hq => (hout q kind hq).symm) hzs hsuf⟩
      simp only [hiff, Overridden, hout _ _ hsuf]
  refine ⟨hadm, (Alike.root hlead hout hzs hzs' halike).standing, honce, ?_, ?_⟩
  · rintro entry he ⟨cs, x, -, hentry, hb, -⟩
    rw [((hledger entry).1 he).1, Rebuild.mk.injEq] at hentry
    exact hgone _ (below_inj hentry.1 ▸ List.suffix_rfl) hb
  · intro entry
    constructor
    · rintro ⟨cs, x, hcs, hentry, hb, ho⟩
      by_cases hne : steps cs = steps crumbs
      · obtain ⟨rfl, rfl⟩ := hcs.unique hlead hne
        exact .inl ((hledger entry).2 ⟨hentry, ho⟩)
      · exact .inr ⟨cs, x, hcs, hentry, (hsame cs x hne).1 ⟨hb, ho⟩⟩
    · rintro (he | ⟨cs, x, hcs, hentry, hb, ho⟩)
      · obtain ⟨hentry, ho⟩ := (hledger entry).1 he
        exact ⟨crumbs, x₀, hlead, hentry, hbelow, ho⟩
      · have hne : steps cs ≠ steps crumbs := fun h => hgone _ (h ▸ List.suffix_rfl) hb
        exact ⟨cs, x, hcs, hentry, (hsame cs x hne).2 ⟨hb, ho⟩⟩

end Zipper

end Topiary
