/-
Topiary.Proofs.ChildEdit.Positional — what a batch of edits comes to.

The pass runs sorted edits one by one and keeps a shift for each group.
Read by position, a batch says for every child on its own what stands in
its place: the insertions before it, the child or its replacement unless it
is deleted, the insertions after it.

* `ChildEdit.slot` — what a batch puts in the place of one child.
* `ChildEdit.Compatible` — a location with a deletion has no other edit.
* `ChildEdit.DeletesLast` — no edit comes after a deletion at its location.
* `EditPass.Stands` — a pass between two edits: its children are the spread
  of the edits done, and the shift of a group is by how much it has grown.
* `EditPass.Cut` — the group of the next edit around the slot it works on.
* `NamedChildren.edit_eq_spread`, `NamedChildren.edit_by_position` — the whole pass, in
  integers and in whatever counts the groups.
-/
import Topiary.Proofs.ChildEdit.Counted

namespace Topiary

namespace ChildEdit

variable {N : Type}

/-! ## Edits by location and kind -/

/-- The nodes of the edits of one kind at one location, in the order of the
batch. -/
def nodesAt (edits : List (ChildEdit N)) (l : Location) (kind : EditKind) : List N :=
  edits.filterMap fun e => if e.location = l ∧ e.kind = kind then some e.node else none

/-- The child, its last replacement, or nothing if it is deleted. -/
def center (edits : List (ChildEdit N)) (l : Location) (x : N) : List N :=
  if nodesAt edits l .delete = [] then [(nodesAt edits l .replace).getLast?.getD x] else []

/-- What a batch puts in the place of the child `x` at `l`. -/
def slot (edits : List (ChildEdit N)) (l : Location) (x : N) : List N :=
  nodesAt edits l .insertBefore ++ center edits l x ++ nodesAt edits l .insertAfter

/-- A deletion is the only edit at its location. -/
def Compatible (edits : List (ChildEdit N)) : Prop :=
  edits.Pairwise fun a b => a.location = b.location → a.kind ≠ .delete ∧ b.kind ≠ .delete

instance (edits : List (ChildEdit N)) : Decidable (Compatible edits) :=
  inferInstanceAs (Decidable (edits.Pairwise fun a b =>
    a.location = b.location → a.kind ≠ .delete ∧ b.kind ≠ .delete))

/-- No edit comes after a deletion at its location. -/
def DeletesLast (edits : List (ChildEdit N)) : Prop :=
  edits.Pairwise fun a b => a.location = b.location → a.kind ≠ .delete

instance (edits : List (ChildEdit N)) : Decidable (DeletesLast edits) :=
  inferInstanceAs (Decidable (edits.Pairwise fun a b =>
    a.location = b.location → a.kind ≠ .delete))

theorem Compatible.deletesLast {edits : List (ChildEdit N)} (h : Compatible edits) :
    DeletesLast edits :=
  h.imp fun hab he => (hab he).1

/-- Every edit names a child. -/
def Located (c : NamedChildren N) (edits : List (ChildEdit N)) : Prop :=
  ∀ e ∈ edits, ∃ x, c.childAt e.location = .ok x

theorem nodesAt_append (edits more : List (ChildEdit N)) (l : Location) (kind : EditKind) :
    nodesAt (edits ++ more) l kind = nodesAt edits l kind ++ nodesAt more l kind := by
  simp [nodesAt]

theorem nodesAt_singleton (e : ChildEdit N) (l : Location) (kind : EditKind) :
    nodesAt [e] l kind = if e.location = l ∧ e.kind = kind then [e.node] else [] := by
  by_cases h : e.location = l ∧ e.kind = kind <;> simp [nodesAt, h]

theorem nodesAt_eq_nil_iff (edits : List (ChildEdit N)) (l : Location) (kind : EditKind) :
    nodesAt edits l kind = [] ↔ ∀ e ∈ edits, e.location = l → e.kind ≠ kind := by
  simp [nodesAt, List.filterMap_eq_nil_iff]

/-- Without edits every child stays. -/
theorem slot_eq_singleton {edits : List (ChildEdit N)} {l : Location}
    (h : ∀ e ∈ edits, e.location ≠ l) (x : N) : slot edits l x = [x] := by
  have hnil : ∀ kind, nodesAt edits l kind = [] := fun kind =>
    (nodesAt_eq_nil_iff edits l kind).2 fun e he hl => absurd hl (h e he)
  simp [slot, center, hnil]

/-- An edit makes no difference elsewhere. -/
theorem slot_append_of_ne (edits : List (ChildEdit N)) {e : ChildEdit N} {l : Location}
    (h : l ≠ e.location) (x : N) : slot (edits ++ [e]) l x = slot edits l x := by
  have hne : ∀ kind, nodesAt (edits ++ [e]) l kind = nodesAt edits l kind := by
    intro kind
    rw [nodesAt_append, nodesAt_singleton, if_neg fun he => h he.1.symm, List.append_nil]
  simp [slot, center, hne]

/-! ## The order of a batch -/

theorem precedes_trans (a b c : ChildEdit N) (hab : a.precedes b = true)
    (hbc : b.precedes c = true) : a.precedes c = true := by
  simp only [precedes, Bool.or_eq_true, decide_eq_true_eq, Bool.and_eq_true,
    beq_iff_eq] at hab hbc ⊢
  omega

theorem precedes_total (a b : ChildEdit N) : (a.precedes b || b.precedes a) = true := by
  simp only [precedes, Bool.or_eq_true, decide_eq_true_eq, Bool.and_eq_true, beq_iff_eq]
  omega

theorem pairwise_inOrder (edits : List (ChildEdit N)) :
    (inOrder edits).Pairwise fun a b => a.precedes b = true :=
  List.pairwise_mergeSort precedes_trans precedes_total edits

theorem mem_inOrder {e : ChildEdit N} : e ∈ inOrder edits ↔ e ∈ edits :=
  (List.mergeSort_perm edits precedes).mem_iff

/-- Sorting keeps the order of edits that agree in index and rank. -/
theorem filter_inOrder {p : ChildEdit N → Bool} {edits : List (ChildEdit N)}
    (h : ∀ a ∈ edits, ∀ b ∈ edits, p a = true → p b = true → a.precedes b = true) :
    (inOrder edits).filter p = edits.filter p := by
  have hsorted : (edits.filter p).Pairwise fun a b => a.precedes b = true := by
    refine List.pairwise_of_forall_mem_list fun a ha b hb => ?_
    rw [List.mem_filter] at ha hb
    exact h a ha.1 b hb.1 ha.2 hb.2
  have hsub : (edits.filter p).Sublist (inOrder edits) :=
    List.sublist_mergeSort precedes_trans precedes_total hsorted List.filter_sublist
  have hsub' : (edits.filter p).Sublist ((inOrder edits).filter p) := by
    simpa [List.filter_filter] using hsub.filter p
  have hlen : ((inOrder edits).filter p).length = (edits.filter p).length :=
    ((List.mergeSort_perm edits precedes).filter p).length_eq
  exact (hsub'.eq_of_length hlen.symm).symm

theorem nodesAt_inOrder (edits : List (ChildEdit N)) (l : Location) (kind : EditKind) :
    nodesAt (inOrder edits) l kind = nodesAt edits l kind := by
  have hfilter : ∀ es : List (ChildEdit N), nodesAt es l kind
      = (es.filter fun e => decide (e.location = l ∧ e.kind = kind)).map ChildEdit.node := by
    intro es
    induction es with
    | nil => rfl
    | cons e es ih =>
      by_cases he : e.location = l ∧ e.kind = kind
      · simpa [nodesAt, he] using ih
      · simpa [nodesAt, he] using ih
  rw [hfilter, hfilter, filter_inOrder]
  intro a _ b _ ha hb
  simp only [decide_eq_true_eq] at ha hb
  simp [precedes, ha, hb]

theorem slot_inOrder (edits : List (ChildEdit N)) : slot (inOrder edits) = slot edits := by
  funext l x
  simp only [slot, center, nodesAt_inOrder]

theorem Compatible.inOrder {edits : List (ChildEdit N)} (h : Compatible edits) :
    Compatible (inOrder edits) := by
  refine (List.Perm.pairwise_iff ?_ (List.mergeSort_perm edits precedes)).2 h
  intro a b hab he
  exact (hab he.symm).symm

/-! ## One edit -/

/-- To insert behind a prefix is to insert between the two parts. -/
theorem insertIdx_length_append (before after : List N) (x : N) :
    (before ++ after).insertIdx before.length x = before ++ x :: after := by
  induction before with
  | nil => simp [List.insertIdx_zero]
  | cons y before ih => simp [List.insertIdx_succ_cons, ih]

/-- What an edit makes of the nodes of a slot, of which `x` is the last. -/
def atLast (kind : EditKind) (node : N) (init : List N) (x : N) : List N :=
  match kind with
  | .replace => init ++ [node]
  | .delete => init
  | .insertBefore => init ++ [node, x]
  | .insertAfter => init ++ [x, node]

/-- An edit at the last node of a slot changes the slot and nothing around
it. -/
theorem perform_append (kind : EditKind) (node x : N) (before init after : List N) :
    kind.perform (before.length + init.length) node (before ++ (init ++ [x]) ++ after)
      = before ++ atLast kind node init x ++ after := by
  have hassoc : before ++ (init ++ [x]) ++ after = (before ++ init) ++ x :: after := by simp
  have hassoc' : before ++ (init ++ [x]) ++ after = (before ++ init ++ [x]) ++ after := by simp
  cases kind with
  | replace =>
    rw [hassoc, ← List.length_append, EditKind.perform, List.set_append_right _ _ (Nat.le_refl _)]
    simp [atLast]
  | delete =>
    rw [hassoc, ← List.length_append, EditKind.perform,
      List.eraseIdx_append_of_length_le (Nat.le_refl _)]
    simp [atLast]
  | insertBefore =>
    rw [hassoc, ← List.length_append, EditKind.perform, insertIdx_length_append]
    simp [atLast]
  | insertAfter =>
    have hlen : before.length + init.length + 1 = (before ++ init ++ [x]).length := by
      simp [Nat.add_assoc]
    rw [hassoc', EditKind.perform, hlen, insertIdx_length_append]
    simp [atLast]

theorem length_atLast (kind : EditKind) (node : N) (init : List N) (x : N) :
    ((atLast kind node init x).length : Int) = (init ++ [x]).length + kind.growth := by
  cases kind <;> simp [atLast, EditKind.growth] <;> omega

/-- An edit that comes after the others at its location works on the last
node of the slot. -/
theorem slot_append_self {edits : List (ChildEdit N)} {e : ChildEdit N}
    (hsorted : ∀ d ∈ edits, d.precedes e = true)
    (hundeleted : ∀ d ∈ edits, d.location = e.location → d.kind ≠ .delete) (x : N) :
    ∃ init last, slot edits e.location x = init ++ [last]
      ∧ slot (edits ++ [e]) e.location x = atLast e.kind e.node init last := by
  have hnone : ∀ kind, e.kind.precedence < kind.precedence →
      nodesAt edits e.location kind = [] := by
    intro kind hk
    rw [nodesAt_eq_nil_iff]
    rintro d hd hl rfl
    have := hsorted d hd
    simp [precedes, hl] at this
    omega
  have hdel : nodesAt edits e.location .delete = [] := by
    rw [nodesAt_eq_nil_iff]
    exact hundeleted
  simp only [slot, center, nodesAt_append, nodesAt_singleton, true_and, hdel]
  cases hk : e.kind with
  | replace =>
    rw [hk] at hnone
    exact ⟨[], (nodesAt edits e.location .replace).getLast?.getD x,
      by simp [hnone .insertBefore (by decide), hnone .insertAfter (by decide)],
      by simp [atLast, hnone .insertBefore (by decide), hnone .insertAfter (by decide)]⟩
  | delete =>
    rw [hk] at hnone
    exact ⟨[], (nodesAt edits e.location .replace).getLast?.getD x,
      by simp [hnone .insertBefore (by decide), hnone .insertAfter (by decide)],
      by simp [atLast, hnone .insertBefore (by decide), hnone .insertAfter (by decide)]⟩
  | insertBefore =>
    rw [hk] at hnone
    exact ⟨nodesAt edits e.location .insertBefore,
      (nodesAt edits e.location .replace).getLast?.getD x,
      by simp [hnone .insertAfter (by decide)],
      by simp [atLast, hnone .insertAfter (by decide)]⟩
  | insertAfter =>
    have hne : slot edits e.location x ≠ [] := by simp [slot, center, hdel]
    refine ⟨(slot edits e.location x).dropLast, (slot edits e.location x).getLast hne, ?_, ?_⟩
    · rw [List.dropLast_concat_getLast]
      simp [slot, center, hdel]
    · have hsplit := List.dropLast_concat_getLast hne
      simp only [atLast, List.append_cons _ _ [e.node]]
      rw [hsplit]
      simp [slot, center, hdel]

end ChildEdit

/-! ## The pass -/

open ChildEdit NamedChildren

/-- A pass between two edits of a sorted batch. -/
structure EditPass.Stands {N : Type} (c : NamedChildren N) (done : List (ChildEdit N))
    (p : EditPass N) : Prop where
  children : p.children = c.spread (slot done)
  /-- A group has grown by its shift. -/
  shift : ∀ group xs, (group, xs) ∈ c.groups →
    p.shift group = (spreadGroup (slot done) (group, xs)).length - xs.length
  deleted : ∀ l, l ∈ p.deleted ↔ ∃ d ∈ done, d.location = l ∧ d.kind = .delete

namespace EditPass

variable {N : Type} {c : NamedChildren N} {r : Reckoning}

theorem stands_start (c : NamedChildren N) : (start c).Stands c [] where
  children := by
    have hslot : slot ([] : List (ChildEdit N)) = fun _ x => [x] := rfl
    rw [hslot, spread_singleton]
    rfl
  shift := by
    intro group xs _
    have hlen : (spreadGroup (fun _ x => [x]) (group, xs)).length = xs.length := by
      rw [spreadGroup, ← List.map_eq_flatMap, List.length_map, locateGroup, List.length_map,
        List.length_zipIdx]
    have hslot : slot ([] : List (ChildEdit N)) = fun _ x => [x] := rfl
    rw [hslot, hlen]
    simp [start]
  deleted := by simp [start]

/-- The places behind the ones edited so far hold one child each. -/
theorem length_unedited {edits : List (ChildEdit N)} (group : GroupName) {i : Nat}
    (h : ∀ d ∈ edits, d.location.index ≤ i) (ys : List N) :
    ((ys.zipIdx (i + 1)).flatMap fun p => slot edits ⟨group, p.2⟩ p.1).length = ys.length := by
  have hone : ∀ p ∈ ys.zipIdx (i + 1), (slot edits ⟨group, p.2⟩ p.1).length = 1 := by
    rintro ⟨y, j⟩ hmem
    rw [List.mk_mem_zipIdx_iff_le_and_getElem?_sub] at hmem
    rw [slot_eq_singleton fun d hd he => ?_]
    · rfl
    · have := h d hd
      simp only [he] at this
      omega
  rw [List.length_flatMap, List.map_congr_left hone, List.map_const', List.sum_replicate_nat,
    List.length_zipIdx, Nat.mul_one]

/-- The group of an edit, cut at the last node of the slot that it works on. -/
structure Cut {N : Type} (done : List (ChildEdit N)) (e : ChildEdit N) (xs before init : List N)
    (last : N) (after : List N) : Prop where
  now : spreadGroup (slot done) (e.location.group, xs) = before ++ (init ++ [last]) ++ after
  next : spreadGroup (slot (done ++ [e])) (e.location.group, xs)
    = before ++ atLast e.kind e.node init last ++ after
  length : after.length + (e.location.index + 1) = xs.length

/-- The next edit of a sorted batch changes one slot, and the places behind
it hold one child each. -/
theorem exists_cut {done : List (ChildEdit N)} {e : ChildEdit N}
    (hsorted : ∀ d ∈ done, d.precedes e = true)
    (hundeleted : ∀ d ∈ done, d.location = e.location → d.kind ≠ .delete)
    {xs : List N} {x : N} (hx : xs[e.location.index]? = some x) :
    ∃ before init last after, Cut done e xs before init last after := by
  obtain ⟨init, last, hslot, hslot'⟩ := slot_append_self hsorted hundeleted x
  have hi : e.location.index < xs.length := (List.getElem?_eq_some_iff.1 hx).1
  have hindex : ∀ d ∈ done, d.location.index ≤ e.location.index := by
    intro d hd
    have hprec := hsorted d hd
    simp only [precedes, Bool.or_eq_true, decide_eq_true_eq, Bool.and_eq_true,
      beq_iff_eq] at hprec
    omega
  have hnow := spreadGroup_split (slot done) e.location.group hx
  have hnext : spreadGroup (slot (done ++ [e])) (e.location.group, xs) = _ :=
    spreadGroup_update hx fun l y hl => (slot_append_of_ne done hl y).symm
  rw [hslot] at hnow
  rw [hslot'] at hnext
  refine ⟨_, init, last, _, hnow, hnext, ?_⟩
  rw [length_unedited e.location.group hindex, List.length_drop]
  omega

section Step

variable {done : List (ChildEdit N)} {p : EditPass N} {e : ChildEdit N}
  {xs before init after : List N} {last : N}

/-- The next edit finds its child where the shift says. -/
theorem Stands.step_eq (hp : p.Stands c done) (hcut : Cut done e xs before init last after)
    (hmem : (e.location.group, xs) ∈ c.groups) (hundeleted : e.location ∉ p.deleted)
    (hbefore : c.CountedBy r) (hnow : p.children.CountedBy r) :
    p.step r e = .ok (p.perform e (before.length + init.length)) := by
  have hget : p.children.get? e.location.group = some (before ++ (init ++ [last]) ++ after) := by
    rw [get?_eq_some_iff, hp.children, mem_groups_spread]
    exact ⟨xs, hmem, hcut.now.symm⟩
  have hsize : r.Counts xs.length := hbefore _ hmem
  have hcounts := hnow _ ((get?_eq_some_iff _ _ _).1 hget)
  have hshift := hp.shift e.location.group xs hmem
  have hlength := hcut.length
  rw [hcut.now] at hshift
  simp only [List.length_append, List.length_singleton] at hshift hcounts
  have hlocate : r.locate e.location (before ++ (init ++ [last]) ++ after).length
      (p.shift e.location.group) = .ok (before.length + init.length) := by
    simp only [List.length_append, List.length_singleton]
    exact Reckoning.locate_child (by omega) hsize hcounts (by omega) (by omega) (by omega)
  rw [EditPass.step, if_neg hundeleted, hget]
  simp only [hlocate]
  rfl

/-- An edit at the right place keeps the books. -/
theorem Stands.perform (hp : p.Stands c done) (hcut : Cut done e xs before init last after)
    (hmem : (e.location.group, xs) ∈ c.groups) :
    (p.perform e (before.length + init.length)).Stands c (done ++ [e]) := by
  refine ⟨?_, ?_, ?_⟩
  · rw [EditPass.perform, hp.children]
    refine modify_spread c (fun l y hl => (slot_append_of_ne done
      (fun he => hl (by rw [he])) y).symm) fun ys hys => ?_
    rw [c.eq_of_mem_groups hys hmem, hcut.now, hcut.next, perform_append]
  · intro group ys hys
    by_cases hgroup : group = e.location.group
    · subst hgroup
      have hshift := hp.shift e.location.group xs hmem
      have hgrow := length_atLast e.kind e.node init last
      rw [hcut.now] at hshift
      rw [c.eq_of_mem_groups hys hmem, hcut.next]
      simp only [EditPass.perform, if_pos, List.length_append, List.length_singleton]
        at hgrow hshift ⊢
      omega
    · have hsame : spreadGroup (slot (done ++ [e])) (group, ys)
          = spreadGroup (slot done) (group, ys) := by
        refine spreadGroup_congr fun q hq => slot_append_of_ne done ?_ q.2
        intro he
        have hqg := ((mem_locateGroup_iff (group, ys) q.1 q.2).1 hq).1
        rw [he] at hqg
        exact hgroup hqg.symm
      rw [hsame, ← hp.shift group ys hys]
      simp [EditPass.perform, hgroup]
  · intro l
    by_cases hk : e.kind = .delete
    · simp [EditPass.perform, hk, hp.deleted, or_comm, eq_comm]
    · simp [EditPass.perform, hk, hp.deleted]

end Step

/-- The next edit of a sorted batch. -/
theorem Stands.step {done : List (ChildEdit N)} {p : EditPass N} (hp : p.Stands c done)
    {e : ChildEdit N} (hsorted : ∀ d ∈ done, d.precedes e = true)
    (hlast : ∀ d ∈ done, d.location = e.location → d.kind ≠ .delete)
    (hloc : ∃ x, c.childAt e.location = .ok x)
    (hbefore : c.CountedBy r) (hnow : p.children.CountedBy r) :
    ∃ q, p.step r e = .ok q ∧ q.Stands c (done ++ [e]) := by
  obtain ⟨x, hx⟩ := hloc
  obtain ⟨xs, hmem, hxi⟩ := (childAt_eq_ok_iff _ _ _).1 hx
  obtain ⟨before, init, last, after, hcut⟩ := exists_cut hsorted hlast hxi
  have hundeleted : e.location ∉ p.deleted := by
    rw [hp.deleted]
    rintro ⟨d, hd, hl, hk⟩
    exact hlast d hd hl hk
  exact ⟨_, hp.step_eq hcut hmem hundeleted hbefore hnow, hp.perform hcut hmem⟩

/-- The first edits of a sorted batch, as long as every group can be counted. -/
theorem Stands.run {edits rest : List (ChildEdit N)} (hbefore : c.CountedBy r) :
    ∀ {done : List (ChildEdit N)} {p : EditPass N}, p.Stands c done →
      p.StaysCounted r (edits ++ rest) →
      (done ++ edits).Pairwise (fun a b => a.precedes b = true) →
      DeletesLast (done ++ edits) → Located c edits →
      ∃ q, p.run r edits = (q, none) ∧ q.Stands c (done ++ edits) ∧ q.StaysCounted r rest := by
  induction edits with
  | nil =>
    intro done p hp hcount _ _ _
    exact ⟨p, rfl, by simpa using hp, hcount⟩
  | cons e edits ih =>
    intro done p hp hcount hsorted hlast hloc
    have hassoc : done ++ e :: edits = (done ++ [e]) ++ edits := by simp
    obtain ⟨q, hstep, hq⟩ := hp.step
      (fun d hd => (List.pairwise_append.1 hsorted).2.2 d hd e (List.mem_cons_self ..))
      (fun d hd => (List.pairwise_append.1 hlast).2.2 d hd e (List.mem_cons_self ..))
      (hloc e (List.mem_cons_self ..)) hbefore hcount.counted
    rw [hassoc] at hsorted hlast ⊢
    obtain ⟨t, hrun, ht⟩ := ih hq (hcount.2 q hstep) hsorted hlast
      fun d hd => hloc d (List.mem_cons_of_mem _ hd)
    exact ⟨t, by simp only [EditPass.run, hstep, hrun], ht⟩

/-- The first edits of a batch in the order in which it runs, if no edit among them comes
after a deletion at its location. -/
theorem exists_stands_of_deletesLast {edits done rest : List (ChildEdit N)}
    (horder : inOrder edits = done ++ rest) (hcount : (start c).StaysCounted r (inOrder edits))
    (hlast : DeletesLast done) (hlocated : Located c done) :
    ∃ p, (start c).run r done = (p, none) ∧ p.Stands c done ∧ p.StaysCounted r rest := by
  have hsorted : (done ++ rest).Pairwise fun a b => a.precedes b = true :=
    horder ▸ pairwise_inOrder edits
  have hbefore : c.CountedBy r := hcount.counted
  obtain ⟨p, hrun, hp, hrest⟩ := (stands_start c).run hbefore (horder ▸ hcount)
    (by simpa using (List.pairwise_append.1 hsorted).1) (by simpa using hlast) hlocated
  exact ⟨p, hrun, by simpa using hp, hrest⟩

end EditPass

namespace NamedChildren

variable {N : Type}

/-- A batch of edits of children that exist, in which a deletion is alone at
its location, succeeds: every child gives way to its slot. -/
theorem editBy_eq_spread {r : Reckoning} (c : NamedChildren N) {edits : List (ChildEdit N)}
    (hcomp : Compatible edits) (hloc : Located c edits)
    (hcount : (EditPass.start c).StaysCounted r (inOrder edits)) :
    c.editBy r edits = .ok (c.spread (slot edits)) := by
  have hlocated : Located c (inOrder edits) := fun e he => hloc e (mem_inOrder.1 he)
  obtain ⟨q, hrun, hq, -⟩ := EditPass.exists_stands_of_deletesLast (List.append_nil _).symm
    hcount hcomp.inOrder.deletesLast hlocated
  have hchildren := hq.children
  rw [slot_inOrder] at hchildren
  simp only [editBy, editAllBy, hrun, hchildren]

/-- In integers no group is too long. -/
theorem edit_eq_spread (c : NamedChildren N) {edits : List (ChildEdit N)}
    (hcomp : Compatible edits) (hloc : Located c edits) :
    c.editBy .integers edits = .ok (c.spread (slot edits)) :=
  c.editBy_eq_spread hcomp hloc (EditPass.staysCounted_integers _ _)

/-- The batch of one edit of a child that exists. -/
theorem editBy_singleton {r : Reckoning} (c : NamedChildren N) {l : Location} {x : N}
    (hx : c.childAt l = .ok x) (hcount : c.CountedBy r) (kind : EditKind) (node : N) :
    c.editBy r [⟨l, kind, node⟩] = .ok (c.modify l.group (kind.perform l.index node)) := by
  obtain ⟨xs, hmem, hxi⟩ := (childAt_eq_ok_iff _ _ _).1 hx
  have hi : l.index < xs.length := (List.getElem?_eq_some_iff.1 hxi).1
  have hget : c.get? l.group = some xs := (get?_eq_some_iff _ _ _).2 hmem
  have hsize : r.Counts xs.length := hcount _ hmem
  have hlocate : r.locate l xs.length 0 = .ok l.index :=
    Reckoning.locate_child (by omega) hsize hsize hi (by omega) hi
  have hsort : inOrder [(⟨l, kind, node⟩ : ChildEdit N)] = [⟨l, kind, node⟩] :=
    List.mergeSort_singleton _
  simp only [editBy, editAllBy, hsort, EditPass.run, EditPass.step, EditPass.start,
    List.not_mem_nil, if_false, hget, hlocate]
  rfl

/-- A batch of edits of children that exist, in which a deletion is alone at
its location, succeeds, as long as no group outgrows the numbers in which positions are
reckoned.  The groups keep their names and their order, and every child gives way to
the nodes inserted before it, the child itself or its last replacement unless it is
deleted, and the nodes inserted after it. -/
theorem edit_by_position {r : Reckoning} (c : NamedChildren N) {edits : List (ChildEdit N)}
    (hcomp : Compatible edits) (hloc : Located c edits)
    (hcount : (EditPass.start c).StaysCounted r (inOrder edits)) :
    ∃ d, c.editBy r edits = .ok d ∧ d.groups = c.groups.map fun g =>
      (g.1, g.2.zipIdx.flatMap fun (x, i) =>
        nodesAt edits ⟨g.1, i⟩ .insertBefore
          ++ (if nodesAt edits ⟨g.1, i⟩ .delete = [] then
              [(nodesAt edits ⟨g.1, i⟩ .replace).getLast?.getD x] else [])
          ++ nodesAt edits ⟨g.1, i⟩ .insertAfter) := by
  refine ⟨c.spread (slot edits), c.editBy_eq_spread hcomp hloc hcount, ?_⟩
  refine List.map_congr_left fun g _ => ?_
  rw [spreadGroup, locateGroup, List.flatMap_map]
  rfl

/-- Two groups of children. -/
def twoRows : NamedChildren Nat := .ofList [(.unnamed, [10, 11, 12]), (.named "a", [20, 21])]

/-- Edits of both groups, recorded in no order at all. -/
def shuffledEdits : List (ChildEdit Nat) :=
  [⟨.unnamed 2, .insertAfter, 1⟩, ⟨⟨.named "a", 1⟩, .delete, 0⟩, ⟨.unnamed 2, .replace, 2⟩,
    ⟨.unnamed 0, .delete, 0⟩, ⟨.unnamed 2, .insertBefore, 3⟩, ⟨⟨.named "a", 0⟩, .insertAfter, 4⟩,
    ⟨.unnamed 2, .replace, 5⟩, ⟨⟨.named "a", 0⟩, .insertAfter, 6⟩]

theorem shuffled_edits_by_position :
    Compatible shuffledEdits ∧ Located twoRows shuffledEdits
      ∧ (EditPass.start twoRows).StaysCounted (.words .stops) (inOrder shuffledEdits)
      ∧ ∃ d, twoRows.editBy (.words .stops) shuffledEdits = .ok d
      ∧ d.groups = [(.unnamed, [11, 3, 5, 1]), (.named "a", [20, 4, 6])] := by
  have hcomp : Compatible shuffledEdits := by decide
  have hloc : Located twoRows shuffledEdits := by
    simp only [Located, shuffledEdits, List.forall_mem_cons]
    exact ⟨⟨12, rfl⟩, ⟨21, rfl⟩, ⟨12, rfl⟩, ⟨10, rfl⟩, ⟨12, rfl⟩, ⟨20, rfl⟩, ⟨12, rfl⟩, ⟨20, rfl⟩,
      List.forall_mem_nil _⟩
  have hcount : (EditPass.start twoRows).StaysCounted (.words .stops) (inOrder shuffledEdits) :=
    EditPass.staysCounted_start (by decide)
  obtain ⟨d, hd, hgroups⟩ := edit_by_position twoRows hcomp hloc hcount
  exact ⟨hcomp, hloc, hcount, d, hd, hgroups.trans (by decide)⟩

end NamedChildren

end Topiary
