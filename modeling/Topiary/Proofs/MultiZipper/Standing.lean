/-
Topiary.Proofs.MultiZipper.Standing — what many zippers mean, all at once.

A list of zippers whose breadcrumbs lead through one tree says at every path
what is to happen there.  `Zipper.standing` reads this off the tree from the
root downwards, without any order in which zippers are folded:

* a deletion, or a replacement by another node, is the last word on its path
  and hides everything below it;
* otherwise a node with zippers below it is rebuilt, once, around what its
  children come to;
* otherwise the node stays, or the replacement that is the same node.

Main statements:

* `Leads.unique` — breadcrumbs of one tree are known by their steps.
* `standing_eq_of_children` — a node depends on its children only through
  what stands in their places.
* `Alike.root` — two lists that differ below one path only, and mean the same
  there, mean the same at the root.
-/
import Topiary.MultiZipper
import Topiary.Proofs.ChildEdit.Positional

namespace Topiary

variable {N : Type}

/-! ## Paths of a tree -/

/-- Breadcrumbs that lead from `x` up to `root`: each names the place of the
step below it among its node's children. -/
inductive Leads (A : Adapter N) (root : N) : List (Breadcrumb N) → N → Prop
  | root : Leads A root [] root
  | child {crumb : Breadcrumb N} {above : List (Breadcrumb N)} {x : N} :
    Leads A root above crumb.node → (A.children crumb.node).childAt crumb.location = .ok x →
      Leads A root (crumb :: above) x

theorem steps_cons (crumb : Breadcrumb N) (above : List (Breadcrumb N)) :
    steps (crumb :: above) = crumb.location :: steps above := rfl

@[simp] theorem length_steps (crumbs : List (Breadcrumb N)) :
    (steps crumbs).length = crumbs.length := List.length_map ..

/-- The steps of a path determine the nodes on it and the node it leads to. -/
theorem Leads.unique {A : Adapter N} {root : N} {crumbs crumbs' : List (Breadcrumb N)}
    {x y : N} (h : Leads A root crumbs x) (h' : Leads A root crumbs' y)
    (hs : steps crumbs = steps crumbs') : crumbs = crumbs' ∧ x = y := by
  induction h generalizing crumbs' y with
  | root =>
    cases h' with
    | root => exact ⟨rfl, rfl⟩
    | child _ _ => simp [steps] at hs
  | @child crumb above x _ hx ih =>
    cases h' with
    | root => simp [steps] at hs
    | @child crumb' above' y h' hy =>
      rw [steps_cons, steps_cons, List.cons.injEq] at hs
      obtain ⟨rfl, hnode⟩ := ih h' hs.2
      obtain ⟨node, location⟩ := crumb
      obtain ⟨node', location'⟩ := crumb'
      simp only at hnode hs hx hy
      obtain ⟨rfl, rfl⟩ := And.intro hnode hs.1
      rw [hx, Except.ok.injEq] at hy
      exact ⟨rfl, hy⟩

/-- Paths of one tree have the same identity exactly if they have the same
steps. -/
theorem pathKey_eq_iff [Identified N] {A : Adapter N} {root : N}
    {crumbs crumbs' : List (Breadcrumb N)} {x y : N} (h : Leads A root crumbs x)
    (h' : Leads A root crumbs' y) :
    pathKey crumbs = pathKey crumbs' ↔ steps crumbs = steps crumbs' := by
  constructor
  · intro hk
    have hsnd : ∀ cs : List (Breadcrumb N), (pathKey cs).map Prod.snd = steps cs := by
      intro cs
      rw [pathKey, List.map_map]
      rfl
    rw [← hsnd crumbs, ← hsnd crumbs', hk]
  · intro hs
    rw [(h.unique h' hs).1]

/-! ## Zippers by path and kind -/

namespace Zipper

open NamedChildren

/-- The nodes of the zippers of one kind at one path, in the order of the
list. -/
def nodesAt (zs : List (Zipper N)) (p : List Location) (kind : EditKind) : List N :=
  zs.filterMap fun z => if steps z.crumbs = p ∧ z.kind = kind then some z.node else none

/-- Some zipper stands strictly below a path. -/
def Below (zs : List (Zipper N)) (p : List Location) : Prop :=
  ∃ z ∈ zs, p.length < z.depth ∧ p <:+ steps z.crumbs

instance (zs : List (Zipper N)) (p : List Location) : Decidable (Below zs p) :=
  inferInstanceAs (Decidable (∃ z ∈ zs, p.length < z.depth ∧ p <:+ steps z.crumbs))

/-- The node at a path is deleted, or replaced by another node. -/
def Overridden [Identified N] (zs : List (Zipper N)) (p : List Location) (x : N) : Prop :=
  nodesAt zs p .delete ≠ [] ∨ ∃ n ∈ nodesAt zs p .replace, nodeId n ≠ nodeId x

theorem nodesAt_append (zs more : List (Zipper N)) (p : List Location) (kind : EditKind) :
    nodesAt (zs ++ more) p kind = nodesAt zs p kind ++ nodesAt more p kind := by
  simp [nodesAt]

theorem mem_nodesAt_iff (zs : List (Zipper N)) (p : List Location) (kind : EditKind) (n : N) :
    n ∈ nodesAt zs p kind ↔ ∃ z ∈ zs, steps z.crumbs = p ∧ z.kind = kind ∧ z.node = n := by
  simp [nodesAt, and_assoc]

theorem nodesAt_eq_nil_iff (zs : List (Zipper N)) (p : List Location) (kind : EditKind) :
    nodesAt zs p kind = [] ↔ ∀ z ∈ zs, steps z.crumbs = p → z.kind ≠ kind := by
  simp [nodesAt, List.filterMap_eq_nil_iff]

/-- Zippers that are left out elsewhere are not missed at a path. -/
theorem nodesAt_filter {zs : List (Zipper N)} {p : List Location} {kind : EditKind}
    {keep : Zipper N → Bool}
    (h : ∀ z ∈ zs, steps z.crumbs = p → z.kind = kind → keep z = true) :
    nodesAt (zs.filter keep) p kind = nodesAt zs p kind := by
  induction zs with
  | nil => rfl
  | cons z zs ih =>
    have ih := ih fun z' hz' => h z' (List.mem_cons_of_mem _ hz')
    simp only [nodesAt] at ih ⊢
    by_cases hz : steps z.crumbs = p ∧ z.kind = kind
    · have hkeep := h z (List.mem_cons_self ..) hz.1 hz.2
      simp [hkeep, hz, ih]
    · by_cases hkeep : keep z = true
      · simp [hkeep, hz, ih]
      · simp [hkeep, hz, ih]

/-- To stand below a path is to stand at a path that continues it. -/
theorem below_iff (zs : List (Zipper N)) (p : List Location) :
    Below zs p ↔ ∃ q kind, p.length < q.length ∧ p <:+ q ∧ nodesAt zs q kind ≠ [] := by
  constructor
  · rintro ⟨z, hz, hlen, hp⟩
    refine ⟨steps z.crumbs, z.kind, by simpa [depth] using hlen, hp, ?_⟩
    exact List.ne_nil_of_mem ((mem_nodesAt_iff _ _ _ _).2 ⟨z, hz, rfl, rfl, rfl⟩)
  · rintro ⟨q, kind, hlen, hp, hne⟩
    obtain ⟨n, hn⟩ := List.exists_mem_of_ne_nil _ hne
    obtain ⟨z, hz, rfl, -, -⟩ := (mem_nodesAt_iff _ _ _ _).1 hn
    exact ⟨z, hz, by simpa [depth] using hlen, hp⟩

/-- Where two lists agree but at and below one path, to stand below another
path is the same for both. -/
theorem below_of_out {zs zs' : List (Zipper N)} {p₀ q : List Location}
    (hout : ∀ q kind, ¬ p₀ <:+ q → nodesAt zs q kind = nodesAt zs' q kind)
    (hzs' : ∃ q kind, p₀ <:+ q ∧ nodesAt zs' q kind ≠ []) (hq : ¬ p₀ <:+ q)
    (h : Below zs q) : Below zs' q := by
  obtain ⟨r, kind, hlt, hr, hne⟩ := (below_iff zs q).1 h
  rw [below_iff]
  by_cases hp : p₀ <:+ r
  · have hqp : q <:+ p₀ := (List.suffix_or_suffix_of_suffix hr hp).resolve_right hq
    have hlen : q.length < p₀.length :=
      Nat.lt_of_le_of_ne hqp.length_le fun hl => hq (hqp.eq_of_length hl ▸ List.suffix_rfl)
    obtain ⟨r', kind', hr', hne'⟩ := hzs'
    exact ⟨r', kind', Nat.lt_of_lt_of_le hlen hr'.length_le, hqp.trans hr', hne'⟩
  · exact ⟨r, kind, hlt, hr, hout r kind hp ▸ hne⟩

/-! ## The simultaneous edit -/

theorem depth_le_maxDepth {zs : List (Zipper N)} {z : Zipper N} (hz : z ∈ zs) :
    z.depth ≤ MultiZipper.maxDepth zs := by
  have hfold : ∀ (ds : List Nat) (m : Nat), m ≤ ds.foldl max m ∧ ∀ d ∈ ds, d ≤ ds.foldl max m := by
    intro ds
    induction ds with
    | nil => simp
    | cons d ds ih =>
      intro m
      obtain ⟨hm, hds⟩ := ih (max m d)
      simp only [List.foldl_cons, List.mem_cons, forall_eq_or_imp]
      exact ⟨by omega, by omega, hds⟩
  exact (hfold _ 0).2 _ (List.mem_map_of_mem hz)

/-- What stands at a path in the end; nothing if it is deleted. -/
def standing [Identified N] (A : Adapter N) (base : Site) (zs : List (Zipper N))
    (p : List Location) (x : N) : Option N :=
  let own := (nodesAt zs p .replace).getLast?.getD x
  if nodesAt zs p .delete ≠ [] then none
  else if nodeId own ≠ nodeId x then some own
  else if _h : Below zs p then
    some (A.rebuild (base.below p) x ((A.children x).spread fun l y =>
      nodesAt zs (l :: p) .insertBefore ++ (standing A base zs (l :: p) y).toList
        ++ nodesAt zs (l :: p) .insertAfter))
  else some own
termination_by MultiZipper.maxDepth zs - p.length
decreasing_by
  obtain ⟨z, hz, hlen, -⟩ := _h
  have := depth_le_maxDepth hz
  simp only [List.length_cons]
  omega

/-- The node at a path after its own replacement. -/
def own (zs : List (Zipper N)) (p : List Location) (x : N) : N :=
  (nodesAt zs p .replace).getLast?.getD x

/-- What stands in the place of a child: insertions, the child as it stands,
insertions. -/
def place [Identified N] (A : Adapter N) (base : Site) (zs : List (Zipper N))
    (p : List Location) (x : N) : List N :=
  nodesAt zs p .insertBefore ++ (standing A base zs p x).toList ++ nodesAt zs p .insertAfter

variable [Identified N]

theorem standing_eq (A : Adapter N) (base : Site) (zs : List (Zipper N)) (p : List Location)
    (x : N) :
    standing A base zs p x
      = if nodesAt zs p .delete ≠ [] then none
        else if nodeId (own zs p x) ≠ nodeId x then some (own zs p x)
        else if Below zs p then
          some (A.rebuild (base.below p) x
            ((A.children x).spread fun l y => place A base zs (l :: p) y))
        else some (own zs p x) := by
  rw [standing]
  rfl

/-! ## What it depends on -/

variable {A : Adapter N} {base : Site} {zs zs' : List (Zipper N)}

/-- A node depends on the zippers on it and on what stands in the places of
its children. -/
theorem standing_eq_of_children {p : List Location} {x : N}
    (hdelete : nodesAt zs p .delete = nodesAt zs' p .delete)
    (hreplace : nodesAt zs p .replace = nodesAt zs' p .replace)
    (hbelow : Below zs p ↔ Below zs' p)
    (hkids : ∀ l y, (A.children x).childAt l = .ok y →
      place A base zs (l :: p) y = place A base zs' (l :: p) y) :
    standing A base zs p x = standing A base zs' p x := by
  have hspread : ((A.children x).spread fun l y => place A base zs (l :: p) y)
      = (A.children x).spread fun l y => place A base zs' (l :: p) y :=
    spread_congr _ fun q hq => hkids q.1 q.2 ((mem_locations_iff _ _ _).1 hq)
  rw [standing_eq, standing_eq, own, own, hdelete, hreplace, hspread]
  simp only [hbelow]

/-- Only zippers at and below a path count for it. -/
theorem standing_congr {p : List Location} {x : N}
    (h : ∀ q kind, p <:+ q → nodesAt zs q kind = nodesAt zs' q kind) :
    standing A base zs p x = standing A base zs' p x := by
  generalize hn : MultiZipper.maxDepth zs - p.length = n
  induction n using Nat.strongRecOn generalizing p x with
  | ind n ih =>
    have hbelow : Below zs p ↔ Below zs' p := by
      simp only [below_iff]
      constructor
      · rintro ⟨q, kind, hlen, hq, hne⟩
        exact ⟨q, kind, hlen, hq, h q kind hq ▸ hne⟩
      · rintro ⟨q, kind, hlen, hq, hne⟩
        exact ⟨q, kind, hlen, hq, (h q kind hq).symm ▸ hne⟩
    by_cases hb : Below zs p
    · refine standing_eq_of_children (h p _ List.suffix_rfl) (h p _ List.suffix_rfl) hbelow ?_
      intro l y _
      obtain ⟨z, hz, hlen, -⟩ := hb
      have hdepth := depth_le_maxDepth hz
      have hkid : ∀ q kind, (l :: p) <:+ q → nodesAt zs q kind = nodesAt zs' q kind :=
        fun q kind hq => h q kind ((List.suffix_cons l p).trans hq)
      rw [place, place, hkid _ _ List.suffix_rfl, hkid _ _ List.suffix_rfl,
        ih _ (by simp only [List.length_cons]; omega) hkid rfl]
    · rw [standing_eq, standing_eq, own, own, h p _ List.suffix_rfl, h p _ List.suffix_rfl,
        if_neg hb, if_neg (mt hbelow.2 hb)]

/-- Two lists of zippers mean the same at a path. -/
structure Alike (A : Adapter N) (base : Site) (zs zs' : List (Zipper N)) (p : List Location)
    (x : N) : Prop where
  standing : standing A base zs p x = standing A base zs' p x
  before : nodesAt zs p .insertBefore = nodesAt zs' p .insertBefore
  after : nodesAt zs p .insertAfter = nodesAt zs' p .insertAfter

theorem Alike.place {p : List Location} {x : N} (h : Alike A base zs zs' p x) :
    place A base zs p x = place A base zs' p x := by
  rw [Zipper.place, Zipper.place, h.standing, h.before, h.after]

/-- Lists that differ at and below one path only, where both have zippers,
and mean the same there, mean the same one step higher. -/
theorem Alike.up {p₀ : List Location}
    (hout : ∀ q kind, ¬ p₀ <:+ q → nodesAt zs q kind = nodesAt zs' q kind)
    (hzs : ∃ q kind, p₀ <:+ q ∧ nodesAt zs q kind ≠ [])
    (hzs' : ∃ q kind, p₀ <:+ q ∧ nodesAt zs' q kind ≠ [])
    {l : Location} {p : List Location} (hp : (l :: p) <:+ p₀) {x y : N}
    (hy : (A.children x).childAt l = .ok y) (h : Alike A base zs zs' (l :: p) y) :
    Alike A base zs zs' p x := by
  have hlen : p.length < p₀.length := hp.length_le
  have hnot : ¬ p₀ <:+ p := fun hs => by
    have := hs.length_le
    omega
  have hbelow : ∀ ws : List (Zipper N), (∃ q kind, p₀ <:+ q ∧ nodesAt ws q kind ≠ []) →
      Below ws p := by
    rintro ws ⟨q, kind, hq, hne⟩
    exact (below_iff ws p).2 ⟨q, kind, by have := hq.length_le; omega,
      (List.suffix_cons l p).trans (hp.trans hq), hne⟩
  refine ⟨?_, hout p _ hnot, hout p _ hnot⟩
  refine standing_eq_of_children (hout p _ hnot) (hout p _ hnot)
    (iff_of_true (hbelow zs hzs) (hbelow zs' hzs')) ?_
  intro k w hw
  by_cases hk : k = l
  · subst hk
    rw [hy, Except.ok.injEq] at hw
    rw [← hw]
    exact h.place
  · -- another child: its path and `p₀` go different ways
    have hother : ∀ q kind, (k :: p) <:+ q → nodesAt zs q kind = nodesAt zs' q kind := by
      intro q kind hq
      refine hout q kind fun hp₀ => hk ?_
      have hsame := List.suffix_of_suffix_length_le hq (hp.trans hp₀) (by simp)
      have heq := hsame.eq_of_length (by simp)
      exact (List.cons.inj heq).1
    rw [Zipper.place, Zipper.place, standing_congr hother, hother _ _ List.suffix_rfl,
      hother _ _ List.suffix_rfl]

/-- Lists that differ at and below one path only, where both have zippers,
and mean the same there, mean the same at the root. -/
theorem Alike.root {root x₀ : N} {crumbs : List (Breadcrumb N)}
    (hlead : Leads A root crumbs x₀)
    (hout : ∀ q kind, ¬ steps crumbs <:+ q → nodesAt zs q kind = nodesAt zs' q kind)
    (hzs : ∃ q kind, steps crumbs <:+ q ∧ nodesAt zs q kind ≠ [])
    (hzs' : ∃ q kind, steps crumbs <:+ q ∧ nodesAt zs' q kind ≠ [])
    (h : Alike A base zs zs' (steps crumbs) x₀) : Alike A base zs zs' [] root := by
  have hup : ∀ {cs x}, Leads A root cs x → steps cs <:+ steps crumbs →
      Alike A base zs zs' (steps cs) x → Alike A base zs zs' [] root := by
    intro cs x hcs
    induction hcs with
    | root => exact fun _ h => h
    | @child crumb above x _ hx ih =>
      intro hsuf h
      rw [steps_cons] at hsuf h
      exact ih ((List.suffix_cons _ _).trans hsuf) (Alike.up hout hzs hzs' hsuf hx h)
  exact hup hlead List.suffix_rfl h

end Zipper

end Topiary
