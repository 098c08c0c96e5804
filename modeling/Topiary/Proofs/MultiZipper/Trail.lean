/-
Topiary.Proofs.MultiZipper.Trail — the edits recorded halfway through a walk.

While a walk stands at a node, the nodes above it were entered and not left:
each may have edits of its own, and the children that are done have handed
over theirs.  All of these edits are in one list of zippers.  Folding the list
right there comes to the same tree as leaving one node after the other, with
the edits below each of them merged into it, up to the root.

The nodes on the way may have been changed, so their breadcrumbs lead through
nodes that are in no tree yet.

* `Ancestor`, `Trail.recorded` — the nodes above, and the list.
* `Trail.close` — leaving them one after the other.
* `MultiZipper.treeFrom_fold` — folding the deepest zippers if they are below
  one node.
* `Trail.toRoot_recorded` — both come to the same.
-/
import Topiary.Proofs.MultiZipper.Absorb
import Topiary.Proofs.MultiZipper.Batch

namespace Topiary

variable {N : Type}

/-! ## Folding from a level on -/

namespace MultiZipper

open Siblings

variable [Identified N] {A : Adapter N} {base : Site} {root : N}

/-- The tree that comes out when all zippers of at most this depth are folded. -/
def treeFrom (A : Adapter N) (base : Site) (root : N) (depth : Nat) (zs : List (Zipper N)) :
    Except Fault N := do
  let r ← foldLevels A base depth zs
  match r.1 with
  | [] => return root
  | z :: _ => (z.toRoot A base).map Prod.fst

theorem toRoot_eq_treeFrom (A : Adapter N) (base : Site) (m : MultiZipper N) :
    (m.toRoot A base).map Prod.fst = treeFrom A base m.root (maxDepth m.zippers) m.zippers := by
  unfold toRoot treeFrom
  cases foldLevels A base (maxDepth m.zippers) m.zippers with
  | error f => rfl
  | ok r =>
    obtain ⟨zs, ledger⟩ := r
    cases zs with
    | nil => rfl
    | cons z zs =>
      show ((z.toRoot A base) >>= fun t => pure (t.1, ledger ++ t.2)).map Prod.fst
        = (z.toRoot A base).map Prod.fst
      cases z.toRoot A base <;> rfl

theorem foldLevels_of_length_le_one (depth : Nat) {zs : List (Zipper N)} (h : zs.length ≤ 1) :
    foldLevels A base depth zs = .ok (zs, []) := by
  cases depth with
  | zero => rw [foldLevels, if_pos h]
  | succ depth => rw [foldLevels, if_pos h]

/-- A level without zippers makes no difference. -/
theorem foldLevels_succ {depth : Nat} {zs : List (Zipper N)} (h : ∀ z ∈ zs, z.depth ≤ depth) :
    foldLevels A base (depth + 1) zs = foldLevels A base depth zs := by
  by_cases hlen : zs.length ≤ 1
  · rw [foldLevels_of_length_le_one _ hlen, foldLevels_of_length_le_one _ hlen]
  · have hnone : ∀ z ∈ zs, (z.depth == depth + 1) = false := by
      intro z hz
      have := h z hz
      simp only [beq_eq_false_iff_ne]
      omega
    have hparts : zs.partition (fun z => z.depth == depth + 1) = ([], zs) := by
      rw [List.partition_eq_filter_filter, Prod.mk.injEq]
      exact ⟨List.filter_eq_nil_iff.2 fun z hz => by simp [hnone z hz],
        List.filter_eq_self.2 fun z hz => by simp [hnone z hz]⟩
    rw [foldLevels, if_neg hlen, hparts]
    simp only [ofZippers, List.filterMap_nil, List.foldl_nil, absorbAll, bind, Except.bind]
    cases foldLevels A base depth zs <;> rfl

theorem treeFrom_succ {depth : Nat} {zs : List (Zipper N)} (h : ∀ z ∈ zs, z.depth ≤ depth) :
    treeFrom A base root (depth + 1) zs = treeFrom A base root depth zs := by
  unfold treeFrom
  rw [foldLevels_succ h]

omit [Identified N] in
theorem maxDepth_le {zs : List (Zipper N)} {depth : Nat} (h : ∀ z ∈ zs, z.depth ≤ depth) :
    maxDepth zs ≤ depth := by
  have hfold : ∀ (ds : List Nat) (m : Nat), m ≤ depth → (∀ d ∈ ds, d ≤ depth) →
      ds.foldl max m ≤ depth := by
    intro ds
    induction ds with
    | nil => exact fun m hm _ => hm
    | cons d ds ih =>
      intro m hm hds
      rw [List.forall_mem_cons] at hds
      exact ih _ (Nat.max_le.2 ⟨hm, hds.1⟩) hds.2
  exact hfold _ 0 (Nat.zero_le _) (List.forall_mem_map.2 h)

/-- It does not matter from how deep a level one starts. -/
theorem treeFrom_eq_toRoot {depth : Nat} {zs : List (Zipper N)} (h : ∀ z ∈ zs, z.depth ≤ depth) :
    treeFrom A base root depth zs = (toRoot A base ⟨root, zs⟩).map Prod.fst := by
  rw [toRoot_eq_treeFrom]
  obtain ⟨k, rfl⟩ := Nat.exists_eq_add_of_le (maxDepth_le h)
  clear h
  induction k with
  | zero => rfl
  | succ k ih =>
    rw [← Nat.add_assoc, treeFrom_succ, ih]
    exact fun z hz => Nat.le_trans (Zipper.depth_le_maxDepth hz) (Nat.le_add_right _ _)

theorem treeFrom_singleton (depth : Nat) (z : Zipper N) :
    treeFrom A base root depth [z] = (z.toRoot A base).map Prod.fst := by
  unfold treeFrom
  rw [foldLevels_of_length_le_one depth (by simp)]
  rfl

variable {s : Siblings N} {higher : List (Zipper N)}

/-- One zipper moves up by itself. -/
theorem treeFrom_climb {e : ChildEdit N} {y : N}
    (hy : (A.children s.parent).childAt e.location = .ok y)
    (hc : (A.children s.parent).editBy .integers [e]
      = .ok ((A.children s.parent).spread (ChildEdit.slot [e]))) (hs : s.edits = [e])
    (depth : Nat) :
    treeFrom A base root (depth + 1) [e.zipper s.parent s.above]
      = treeFrom A base root depth [.ofNode (s.copy A base) s.above] := by
  have hcopy : Zipper.parentCopy .integers A (base.below (steps s.above)) e.kind e.node
      ⟨s.parent, e.location⟩ = .ok (s.copy A base) := by
    rw [copy, hs]
    exact Zipper.parentCopy_eq _ hy (A.children s.parent).countedBy_integers hc
  rw [treeFrom_singleton, treeFrom_singleton]
  simp only [Zipper.toRoot, ChildEdit.zipper, Zipper.ofNode, Zipper.climb, hcopy, bind, Except.bind]
  cases Zipper.climb A base .replace (s.copy A base) s.above <;> rfl

/-- The deepest zippers are gathered and folded into a copy of their parent. -/
theorem treeFrom_absorb (hc : (A.children s.parent).editBy .integers s.edits
      = .ok ((A.children s.parent).spread (ChildEdit.slot s.edits)))
    (hne : s.edits ≠ []) (hdepth : ∀ z ∈ higher, z.depth ≤ s.above.length)
    (hover : higher.any s.isOverriddenBy = false)
    (hlen : ¬ (higher ++ s.edits.map (ChildEdit.zipper s.parent s.above)).length ≤ 1) :
    treeFrom A base root (s.above.length + 1)
        (higher ++ s.edits.map (ChildEdit.zipper s.parent s.above))
      = treeFrom A base root s.above.length
          (s.kept higher ++ [.ofNode (s.copy A base) s.above]) := by
  have hall : ∀ z ∈ s.edits.map (ChildEdit.zipper s.parent s.above),
      (z.depth == s.above.length + 1) = true :=
    List.forall_mem_map.2 fun e _ => by simp [ChildEdit.zipper, Zipper.depth]
  have hnone : ∀ z ∈ higher, (z.depth == s.above.length + 1) = false := by
    intro z hz
    have := hdepth z hz
    simp only [beq_eq_false_iff_ne]
    omega
  have hparts : (higher ++ s.edits.map (ChildEdit.zipper s.parent s.above)).partition
      (fun z => z.depth == s.above.length + 1)
      = (s.edits.map (ChildEdit.zipper s.parent s.above), higher) := by
    rw [List.partition_eq_filter_filter, List.filter_append, List.filter_append,
      List.filter_eq_self.2 hall, List.filter_eq_nil_iff.2 fun z hz => by simp [hnone z hz],
      List.filter_eq_self.2 fun z hz => by simp [hnone z hz],
      List.filter_eq_nil_iff.2 fun z hz => by simp [hall z hz]]
    simp
  have hfold : s.fold .integers A base
      = .ok (.ofNode (s.copy A base) s.above, ⟨base.below (steps s.above), s.parent⟩) := by
    simp only [fold, hc]
    rfl
  have hgroups : ofZippers (s.edits.map (ChildEdit.zipper s.parent s.above)) = [s] :=
    ofZippers_zipper s.parent s.above hne
  have habsorb : absorbAll A base [s] higher
      = .ok (s.kept higher ++ [.ofNode (s.copy A base) s.above],
          [⟨base.below (steps s.above), s.parent⟩]) := by
    simp only [absorbAll, absorb, hover, hfold, kept, bind, Except.bind, pure, Except.pure]
    rfl
  unfold treeFrom
  rw [foldLevels, if_neg hlen, hparts]
  simp only [hgroups, habsorb, bind, Except.bind]
  cases foldLevels A base s.above.length (s.kept higher ++ [.ofNode (s.copy A base) s.above]) <;>
    rfl

/-- Folding the deepest zippers if all of them are just below one node, which
the zippers higher up neither delete nor replace by another. -/
theorem treeFrom_fold (hcomp : ChildEdit.Compatible s.edits)
    (hloc : ChildEdit.Located (A.children s.parent) s.edits)
    (hne : s.edits ≠ []) (hdepth : ∀ z ∈ higher, z.depth ≤ s.above.length)
    (hover : higher.any s.isOverriddenBy = false) :
    treeFrom A base root (s.above.length + 1)
        (higher ++ s.edits.map (ChildEdit.zipper s.parent s.above))
      = treeFrom A base root s.above.length
          (s.kept higher ++ [.ofNode (s.copy A base) s.above]) := by
  have hc := (A.children s.parent).edit_eq_spread hcomp hloc
  by_cases hlen : (higher ++ s.edits.map (ChildEdit.zipper s.parent s.above)).length ≤ 1
  · obtain ⟨e, rest, hs⟩ := List.exists_cons_of_ne_nil hne
    rw [hs, List.length_append, List.length_map, List.length_cons] at hlen
    obtain rfl : higher = [] := List.eq_nil_of_length_eq_zero (by omega)
    obtain rfl : rest = [] := List.eq_nil_of_length_eq_zero (by omega)
    obtain ⟨y, hy⟩ := hloc e (hs ▸ List.mem_cons_self)
    rw [hs] at hc ⊢
    exact treeFrom_climb hy hc hs s.above.length
  · exact treeFrom_absorb hc hne hdepth hover hlen

end MultiZipper

/-! ## Edits of one node -/

namespace Trail

/-- The nodes of the edits of one kind, in order. -/
def nodesOf (edits : List (EditKind × N)) (kind : EditKind) : List N :=
  edits.filterMap fun e => if e.1 = kind then some e.2 else none

/-- The edits of a node as zippers on its path. -/
def zippers (crumbs : List (Breadcrumb N)) (edits : List (EditKind × N)) : List (Zipper N) :=
  edits.map fun e => ⟨e.2, crumbs, e.1⟩

/-- The edits of a child as edits of its parent. -/
def handOver (l : Location) (edits : List (EditKind × N)) : List (ChildEdit N) :=
  edits.map fun e => ⟨l, e.1, e.2⟩

/-- Edits that a node can have: a deletion is the only one, and at the root
there is nothing but a replacement. -/
structure Fits (isRoot : Bool) (edits : List (EditKind × N)) : Prop where
  apart : edits.Pairwise fun a b => a.1 ≠ .delete ∧ b.1 ≠ .delete
  root : isRoot = true → edits = [] ∨ ∃ n, edits = [(.replace, n)]

/-- Edits of the same nodes, kind by kind. -/
def Alike (edits edits' : List (EditKind × N)) : Prop :=
  ∀ kind, nodesOf edits kind = nodesOf edits' kind

theorem nodesOf_append (edits more : List (EditKind × N)) (kind : EditKind) :
    nodesOf (edits ++ more) kind = nodesOf edits kind ++ nodesOf more kind := by
  simp [nodesOf]

theorem nodesOf_eq_nil_iff (edits : List (EditKind × N)) (kind : EditKind) :
    nodesOf edits kind = [] ↔ ∀ e ∈ edits, e.1 ≠ kind := by
  simp [nodesOf, List.filterMap_eq_nil_iff]

theorem eq_nil_iff (edits : List (EditKind × N)) :
    edits = [] ↔ ∀ kind, nodesOf edits kind = [] := by
  constructor
  · rintro rfl kind
    rfl
  · intro h
    refine List.eq_nil_iff_forall_not_mem.2 fun e he => ?_
    exact (nodesOf_eq_nil_iff edits e.1).1 (h e.1) e he rfl

theorem nodesOf_cons (k : EditKind) (node : N) (edits : List (EditKind × N)) (kind : EditKind) :
    nodesOf ((k, node) :: edits) kind
      = if k = kind then node :: nodesOf edits kind else nodesOf edits kind := by
  by_cases h : k = kind <;> simp [nodesOf, h]

/-- Another replacement in the place of the old one. -/
theorem Fits.replaced {isRoot : Bool} {own : List (EditKind × N)} (h : Fits isRoot own) {node : N}
    (hstays : ∀ e ∈ own, e.1 ≠ .delete ∧ (e.1 = .replace → e.2 = node)) (copy : N) :
    Fits isRoot (own.filter (fun e => e.1 ≠ .replace) ++ [(.replace, copy)]) where
  apart := by
    refine List.pairwise_of_forall_mem_list fun x hx y hy => ?_
    have hkind : ∀ e ∈ own.filter (fun e => e.1 ≠ .replace) ++ [(.replace, copy)],
        e.1 ≠ .delete := by
      refine List.forall_mem_append.2 ⟨fun e he => ?_, List.forall_mem_singleton.2 (by simp)⟩
      exact (hstays e (List.mem_filter.1 he).1).1
    exact ⟨hkind x hx, hkind y hy⟩
  root := by
    intro hroot
    refine .inr ⟨copy, ?_⟩
    rcases h.root hroot with rfl | ⟨n, rfl⟩ <;> rfl

/-- What a child hands over goes together with what others have. -/
theorem Fits.compatible {isRoot : Bool} {edits : List (EditKind × N)} (h : Fits isRoot edits)
    {done : List (ChildEdit N)} (hdone : ChildEdit.Compatible done) {l : Location}
    (hahead : ∀ e ∈ done, e.location ≠ l) : ChildEdit.Compatible (done ++ handOver l edits) := by
  refine List.pairwise_append.2 ⟨hdone, ?_, ?_⟩
  · unfold handOver
    rw [List.pairwise_map]
    refine h.apart.imp ?_
    intro a b hab _
    exact hab
  · intro e he d hd hed
    obtain ⟨c, -, rfl⟩ := List.mem_map.1 hd
    exact absurd hed (hahead e he)

theorem Alike.eq_nil_iff {edits edits' : List (EditKind × N)} (h : Alike edits edits') :
    edits = [] ↔ edits' = [] := by
  rw [Trail.eq_nil_iff edits, Trail.eq_nil_iff edits']
  exact forall_congr' fun kind => by rw [h kind]

theorem nodesAt_handOver (l k : Location) (edits : List (EditKind × N)) (kind : EditKind) :
    ChildEdit.nodesAt (handOver l edits) k kind = if l = k then nodesOf edits kind else [] := by
  rw [handOver, ChildEdit.nodesAt, List.filterMap_map, nodesOf]
  by_cases hl : l = k
  · rw [if_pos hl]
    congr 1
    funext e
    simp [hl]
  · simp [hl]

/-- Only the kinds count for the parent. -/
theorem Alike.slot_append {edits edits' : List (EditKind × N)} (h : Alike edits edits')
    (done : List (ChildEdit N)) (l : Location) :
    ChildEdit.slot (done ++ handOver l edits) = ChildEdit.slot (done ++ handOver l edits') := by
  have hsame : ∀ k kind, ChildEdit.nodesAt (done ++ handOver l edits) k kind
      = ChildEdit.nodesAt (done ++ handOver l edits') k kind := by
    intro k kind
    rw [ChildEdit.nodesAt_append, ChildEdit.nodesAt_append, nodesAt_handOver, nodesAt_handOver,
      h kind]
  funext k x
  simp only [ChildEdit.slot, ChildEdit.center, hsame]

/-! ## The nodes above -/

end Trail

/-- A node that was entered and not left: the node as it stands, the place of
the child that the walk is at, the node's own edits, and what its children
have handed over so far. -/
structure Ancestor (N : Type) where
  node : N
  location : Location
  own : List (EditKind × N)
  edits : List (ChildEdit N)

/-- A node that a walk can be below.  Its own edits are insertions and its
replacement by the node as it stands; the child that the walk is at has handed
over nothing yet. -/
structure Ancestor.Sound (A : Adapter N) (isRoot : Bool) (a : Ancestor N) : Prop where
  child : ∃ y, (A.children a.node).childAt a.location = .ok y
  located : ChildEdit.Located (A.children a.node) a.edits
  compatible : ChildEdit.Compatible a.edits
  ahead : ∀ e ∈ a.edits, e.location ≠ a.location
  stays : ∀ e ∈ a.own, e.1 ≠ .delete ∧ (e.1 = .replace → e.2 = a.node)
  fits : Trail.Fits isRoot a.own

namespace Trail

/-- The breadcrumbs of the place that the walk is at. -/
def crumbs (trail : List (Ancestor N)) : List (Breadcrumb N) :=
  trail.map fun a => ⟨a.node, a.location⟩

/-- The edits recorded so far, those of the nodes above first. -/
def recorded : List (Ancestor N) → List (Zipper N)
  | [] => []
  | a :: above =>
    recorded above ++ zippers (crumbs above) a.own
      ++ a.edits.map (ChildEdit.zipper a.node (crumbs above))

/-- The nodes above are sound, one by one. -/
def Sound (A : Adapter N) : List (Ancestor N) → Prop
  | [] => True
  | a :: above => a.Sound A above.isEmpty ∧ Sound A above

/-- A node's edits once those of its children are merged into it: a copy
replaces what it was replaced by. -/
def merge (A : Adapter N) (site : Site) (node : N) (own : List (EditKind × N))
    (edits : List (ChildEdit N)) : List (EditKind × N) :=
  if edits.isEmpty then own
  else (own.filter fun e => e.1 ≠ .replace)
    ++ [(.replace, A.rebuild site node ((A.children node).spread (ChildEdit.slot edits)))]

/-- The root once all nodes above are left, from the edits of the node that
the walk is at. -/
def close (A : Adapter N) (base : Site) (root : N) : List (Ancestor N) → List (EditKind × N) → N
  | [], edits => (nodesOf edits .replace).getLast?.getD root
  | a :: above, edits =>
    close A base root above (merge A (base.below (steps (crumbs above))) a.node a.own
      (a.edits ++ handOver a.location edits))

open MultiZipper Siblings

variable {A : Adapter N} {base : Site} {root : N} {trail : List (Ancestor N)}

/-- Edits that are alike have the same outcome. -/
theorem Alike.close {edits edits' : List (EditKind × N)} (h : Alike edits edits') :
    Trail.close A base root trail edits = Trail.close A base root trail edits' := by
  cases trail with
  | nil => rw [Trail.close, Trail.close, h .replace]
  | cons a above =>
    have hempty : (a.edits ++ handOver a.location edits).isEmpty
        = (a.edits ++ handOver a.location edits').isEmpty := by
      rw [Bool.eq_iff_iff]
      simp [handOver, h.eq_nil_iff]
    rw [Trail.close, Trail.close, merge, merge, hempty, h.slot_append]

theorem depth_recorded : ∀ z ∈ recorded trail, z.depth ≤ trail.length := by
  induction trail with
  | nil => simp [recorded]
  | cons a above ih =>
    intro z hz
    rw [List.length_cons]
    rcases List.mem_append.1 hz with hz | hz
    · rcases List.mem_append.1 hz with hz | hz
      · exact Nat.le_succ_of_le (ih z hz)
      · obtain ⟨e, -, rfl⟩ := List.mem_map.1 hz
        simp [Zipper.depth, crumbs]
    · obtain ⟨e, -, rfl⟩ := List.mem_map.1 hz
      simp [Zipper.depth, ChildEdit.zipper, crumbs]

variable [Identified N]

/-- No edit recorded so far is on the node that the walk is at. -/
theorem pathKey_recorded (h : Sound A trail) :
    ∀ z ∈ recorded trail, pathKey z.crumbs ≠ pathKey (crumbs trail) := by
  cases trail with
  | nil => simp [recorded]
  | cons a above =>
    intro z hz hkey
    have hlen := congrArg List.length hkey
    simp only [pathKey, List.length_map, crumbs, List.length_cons] at hlen
    rcases List.mem_append.1 hz with hz | hz
    · rcases List.mem_append.1 hz with hz | hz
      · have := depth_recorded z hz
        rw [Zipper.depth] at this
        omega
      · obtain ⟨e, -, rfl⟩ := List.mem_map.1 hz
        simp [crumbs] at hlen
    · obtain ⟨e, he, rfl⟩ := List.mem_map.1 hz
      simp only [pathKey, ChildEdit.zipper, crumbs, List.map_cons, List.cons.injEq,
        Prod.mk.injEq] at hkey
      exact h.1.ahead e he hkey.1.2

/-- What a fold leaves of the edits of the nodes above. -/
theorem kept_recorded {s : Siblings N} (h : Sound A trail) (hs : s.above = crumbs trail)
    (own : List (EditKind × N)) :
    s.kept (recorded trail ++ zippers (crumbs trail) own)
      = recorded trail ++ zippers (crumbs trail) (own.filter fun e => e.1 ≠ .replace) := by
  rw [kept, List.filter_append]
  congr 1
  · refine List.filter_eq_self.2 fun z hz => ?_
    simp [supersedes, isAtParent, hs, pathKey_recorded h z hz]
  · rw [zippers, List.filter_map, zippers]
    congr 1
    refine List.filter_congr fun e _ => ?_
    obtain ⟨kind, node⟩ := e
    rw [Function.comp_apply, supersedes, isAtParent, hs, beq_self_eq_true, Bool.and_true]
    cases kind <;> rfl

/-- The own edits of a node do not stand in the way of a fold. -/
theorem not_overridden {s : Siblings N} (h : Sound A trail) (hs : s.above = crumbs trail)
    {own : List (EditKind × N)}
    (hown : ∀ e ∈ own, e.1 ≠ .delete ∧ (e.1 = .replace → e.2 = s.parent)) :
    (recorded trail ++ zippers (crumbs trail) own).any s.isOverriddenBy = false := by
  rw [List.any_eq_false]
  intro z hz hover
  rw [isOverriddenBy, Bool.and_eq_true] at hover
  rcases List.mem_append.1 hz with hz | hz
  · have hat := hover.1
    rw [isAtParent, beq_iff_eq, hs] at hat
    exact pathKey_recorded h z hz hat
  · obtain ⟨⟨kind, node⟩, he, rfl⟩ := List.mem_map.1 hz
    obtain ⟨hdelete, hreplace⟩ := hown _ he
    have hkind := hover.2
    cases kind with
    | delete => exact hdelete rfl
    | replace => simp [show node = s.parent from hreplace rfl] at hkind
    | insertBefore => exact absurd hkind (by simp)
    | insertAfter => exact absurd hkind (by simp)

theorem treeFrom_recorded (h : Sound A trail) {edits : List (EditKind × N)}
    (hedits : Fits trail.isEmpty edits) :
    treeFrom A base root trail.length (recorded trail ++ zippers (crumbs trail) edits)
      = .ok (close A base root trail edits) := by
  induction trail generalizing edits with
  | nil =>
    rcases hedits.root rfl with rfl | ⟨n, rfl⟩
    · rfl
    · exact treeFrom_singleton 0 (.ofNode n [])
  | cons a above ih =>
    obtain ⟨ha, habove⟩ := h
    let s : Siblings N := ⟨a.node, crumbs above, a.edits ++ handOver a.location edits⟩
    have hlist : recorded (a :: above) ++ zippers (crumbs (a :: above)) edits
        = recorded above ++ zippers (crumbs above) a.own
          ++ s.edits.map (ChildEdit.zipper s.parent s.above) := by
      simp [s, recorded, zippers, handOver, crumbs, ChildEdit.zipper]
    have hlength : s.above.length = above.length := List.length_map ..
    have hdepth : ∀ z ∈ recorded above ++ zippers (crumbs above) a.own,
        z.depth ≤ above.length := by
      intro z hz
      rcases List.mem_append.1 hz with hz | hz
      · exact depth_recorded z hz
      · obtain ⟨e, -, rfl⟩ := List.mem_map.1 hz
        exact Nat.le_of_eq hlength
    rw [hlist, close, List.length_cons]
    by_cases hnone : a.edits ++ handOver a.location edits = []
    · -- nothing to merge
      rw [merge, hnone, if_pos List.isEmpty_nil, ← ih habove ha.fits, ← treeFrom_succ hdepth]
      simp [s, hnone]
    · have hcomp : ChildEdit.Compatible s.edits := hedits.compatible ha.compatible ha.ahead
      have hloc : ChildEdit.Located (A.children s.parent) s.edits := by
        refine List.forall_mem_append.2 ⟨ha.located, fun e he => ?_⟩
        obtain ⟨c, -, rfl⟩ := List.mem_map.1 he
        exact ha.child
      have hkept : Fits above.isEmpty (a.own.filter (fun e => e.1 ≠ .replace)
          ++ [(.replace, s.copy A base)]) := ha.fits.replaced ha.stays _
      have hzippers : zippers (crumbs above) (a.own.filter (fun e => e.1 ≠ .replace)
          ++ [(.replace, s.copy A base)])
          = zippers (crumbs above) (a.own.filter fun e => e.1 ≠ .replace)
            ++ [.ofNode (s.copy A base) s.above] := List.map_append
      rw [← hlength, treeFrom_fold hcomp hloc hnone (hlength ▸ hdepth)
        (not_overridden habove rfl ha.stays), kept_recorded habove rfl, merge,
        if_neg (by simpa using hnone), hlength, List.append_assoc, ← hzippers]
      exact ih habove hkept

/-- Wherever a walk stands, folding what was recorded so far comes to the tree
that leaving one node after the other comes to. -/
theorem toRoot_recorded (h : Sound A trail) {edits : List (EditKind × N)}
    (hedits : Fits trail.isEmpty edits) :
    (toRoot A base ⟨root, recorded trail ++ zippers (crumbs trail) edits⟩).map Prod.fst
      = .ok (close A base root trail edits) := by
  rw [← treeFrom_recorded h hedits, treeFrom_eq_toRoot]
  intro z hz
  rcases List.mem_append.1 hz with hz | hz
  · exact depth_recorded z hz
  · obtain ⟨e, -, rfl⟩ := List.mem_map.1 hz
    simp [Zipper.depth, crumbs]

end Trail

end Topiary
