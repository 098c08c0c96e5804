/-
Topiary.Proofs.Transform.Shelf — whose the recorded edits are.

A slot is a bare position in the list of recorded edits, which grows with every edit
below the node and is cut short on every leaving.  No position is asked whose it is.
That each slot holds what was put into it follows from the nesting of the walk: what
lies from the start of the edits below a node on comes from below that node, the starts
of the nodes above come no later, and on leaving the node no slot of theirs is cut off.

* `Cells.Stowed` — every recorded edit has the breadcrumbs of the context that has
  signed it, and all that is above this context is open.
* `Cells.Reserves` — the slot and the start that the marks of an open context tell.
* `Cells.Shelved` — both together.
* `Shelved.put`, `Shelved.cut`, `Stowed.close` — an edit, the end of the edits below a
  node, the end of `enter`.
* `Shelved.congr`, `Shelved.descend` — callbacks on other contexts do not matter, and a
  context that is entered and gets children.
-/
import Topiary.Proofs.Transform.Signing
import Topiary.Proofs.Walk.Nesting

namespace Topiary

variable {N D S : Type}

/-! ## Recorded edits and the contexts that sign them -/

namespace Cells

/-- The marks of a context. -/
def marks? (cells : Cells N (Marked N D)) (id : Nat) : Option (Marks N) :=
  (cells[id]?).bind fun cell => cell.frame.data.marks

/-- Each recorded edit has the breadcrumbs of the context that has signed it.  All contexts
above this one are open. -/
structure Stowed (cells : Cells N D) (opens : List Nat) (recorded : List (Zipper N))
    (signers : List Nat) : Prop where
  length_eq : signers.length = recorded.length
  signer : ∀ i j : Nat, signers[i]? = some j →
    ∃ ids path, cells.Lineage j ids path ∧ ids <:+ opens
  crumbs : ∀ (i j : Nat) (z : Zipper N), signers[i]? = some j → recorded[i]? = some z →
    z.crumbs = cells.crumbs j

/-- What the marks of an open context tell: in its slot is what it has signed itself, and the
edits of the contexts below it, and no others, come from the start on, after the slot. -/
structure Reserves (cells : Cells N D) (signers : List Nat) (id : Nat) (m : Marks N) : Prop where
  crumbs : m.zipper.crumbs = cells.crumbs id
  slot : ∀ s, m.slot = some s → signers[s]? = some id ∧ s < m.foldStart
  foldStart_le : m.foldStart ≤ signers.length
  below : ∀ i j : Nat, signers[i]? = some j → (m.foldStart ≤ i ↔ id ∈ cells.idsAbove j)

/-- The list of edits and the marks of all open contexts fit. -/
structure Shelved (cells : Cells N (Marked N D)) (opens : List Nat) (recorded : List (Zipper N))
    (signers : List Nat) : Prop where
  stowed : cells.Stowed opens recorded signers
  reserves : ∀ x ∈ opens, ∃ m, cells.marks? x = some m ∧ cells.Reserves signers x m

namespace Lineage

variable {cells : Cells N D} {id x j : Nat} {ids opens : List Nat} {path : List Location}

/-- What is above a context is above all that is below it. -/
theorem mem_idsAbove (h : cells.Lineage id ids path) (hx : x ∈ ids) {ids' : List Nat}
    {path' : List Location} (hj : cells.Lineage j ids' path') (hid : id ∈ cells.idsAbove j) :
    x ∈ cells.idsAbove j := by
  rw [hj.idsAbove_eq] at hid ⊢
  obtain ⟨near, ids'', path'', rfl, hrest⟩ := hj.of_mem hid
  obtain ⟨rfl, -⟩ := hrest.unique h
  simp [hx]

/-- The contexts above a context are above each other. -/
theorem pairwise (h : cells.Lineage id ids path) :
    ids.Pairwise fun x y => y ∈ cells.idsAbove x := by
  induction h with
  | root => exact .nil
  | child _ _ rest ih => exact .cons (fun _ hy => by rwa [rest.idsAbove_eq]) ih

theorem not_mem (h : cells.Lineage id ids path) : id ∉ ids :=
  fun hmem => Nat.lt_irrefl _ (h.lt_of_mem hmem)

end Lineage

/-! ### What the walk does to the list -/

section

variable {cells : Cells N D} {id x : Nat} {opens signers : List Nat} {path : List Location}
  {recorded : List (Zipper N)} {m n : Marks N} {slot : Option Nat} {z : Zipper N}

theorem lt_of_signed (hown : ∀ s : Nat, slot = some s → signers[s]? = some id) :
    ∀ s, slot = some s → s < signers.length := by
  intro s hs
  obtain ⟨hlt, -⟩ := List.getElem?_eq_some_iff.1 (hown s hs)
  exact hlt

/-- A context signs an edit with its own breadcrumbs. -/
theorem Stowed.put (h : cells.Stowed opens recorded signers) (hid : cells.Lineage id opens path)
    (hcrumbs : z.crumbs = cells.crumbs id)
    (hown : ∀ s : Nat, slot = some s → signers[s]? = some id) :
    cells.Stowed opens (putSlot slot z recorded) (putSlot slot id signers) := by
  have hsigners := getElem?_putSlot (x := id) (lt_of_signed hown)
  have hrecorded := getElem?_putSlot (x := z) (h.length_eq ▸ lt_of_signed hown)
  constructor
  · rw [length_putSlot, length_putSlot, h.length_eq]
  · intro i j hj
    rw [hsigners] at hj
    split at hj
    · obtain rfl := Option.some.inj hj
      exact ⟨opens, path, hid, List.suffix_refl _⟩
    · exact h.signer i j hj
  · intro i j y hj hy
    rw [hsigners] at hj
    rw [hrecorded, ← h.length_eq] at hy
    split at hj
    · rename_i hi
      rw [if_pos hi] at hy
      obtain rfl := Option.some.inj hj
      obtain rfl := Option.some.inj hy
      exact hcrumbs
    · rename_i hi
      rw [if_neg hi] at hy
      exact h.crumbs i j y hj hy

/-- The contexts above notice nothing of it but one more edit from below. -/
theorem Reserves.put (h : cells.Reserves signers x n) (hx : x ∈ cells.idsAbove id) (hne : x ≠ id)
    (hown : ∀ s : Nat, slot = some s → signers[s]? = some id) :
    cells.Reserves (putSlot slot id signers) x n := by
  have hsigners := getElem?_putSlot (x := id) (lt_of_signed hown)
  have hle := h.foldStart_le
  constructor
  · exact h.crumbs
  · intro s hs
    obtain ⟨hsigned, hlt⟩ := h.slot s hs
    refine ⟨?_, hlt⟩
    rw [hsigners, if_neg, hsigned]
    intro heq
    cases slot with
    | none =>
      simp only [Option.getD_none] at heq
      omega
    | some k =>
      simp only [Option.getD_some] at heq
      subst heq
      exact hne (Option.some.inj (hsigned.symm.trans (hown s rfl)))
  · rw [length_putSlot]
    omega
  · intro i j hj
    rw [hsigners] at hj
    split at hj
    · rename_i hi
      obtain rfl := Option.some.inj hj
      refine iff_of_true ?_ hx
      cases slot with
      | none => simpa [hi] using hle
      | some k =>
        simp only [Option.getD_some] at hi
        exact (h.below i id (hi ▸ hown k rfl)).2 hx
    · exact h.below i j hj

/-- The start of a context comes no earlier than that of one above it. -/
theorem Stowed.foldStart_le (h : cells.Stowed opens recorded signers) {ids : List Nat}
    (hid : cells.Lineage id ids path) (hx : x ∈ ids) (hm : cells.Reserves signers id m)
    (hn : cells.Reserves signers x n) : n.foldStart ≤ m.foldStart := by
  by_contra hlt
  have hle := hn.foldStart_le
  -- The first edit from below `id` is one from below `x`.
  have hget := List.getElem?_eq_getElem (show m.foldStart < signers.length by omega)
  obtain ⟨ids', path', hj, -⟩ := h.signer _ _ hget
  have hbelow := hid.mem_idsAbove hx hj ((hm.below _ _ hget).1 (Nat.le_refl _))
  have hstart := (hn.below _ _ hget).2 hbelow
  omega

/-- At the end of `enter` no edit is from below the context. -/
theorem Stowed.close (h : cells.Stowed opens recorded signers) (hid : cells.Lineage id opens path)
    (hcrumbs : m.zipper.crumbs = cells.crumbs id)
    (hown : ∀ s, m.slot = some s → signers[s]? = some id) (hstart : m.foldStart = recorded.length) :
    cells.Reserves signers id m := by
  rw [← h.length_eq] at hstart
  constructor
  · exact hcrumbs
  · intro s hs
    exact ⟨hown s hs, hstart ▸ lt_of_signed hown s hs⟩
  · exact Nat.le_of_eq hstart
  · intro i j hj
    obtain ⟨hlt, -⟩ := List.getElem?_eq_some_iff.1 hj
    obtain ⟨ids, path', hlineage, hsuffix⟩ := h.signer i j hj
    rw [hlineage.idsAbove_eq]
    refine iff_of_false (by omega) fun hmem => hid.not_mem (hsuffix.subset hmem)

/-- Below a context that is left lies one level of edits. -/
theorem Stowed.lineage_of_below (h : cells.Stowed (id :: opens) recorded signers)
    (hid : cells.Lineage id opens path) {i j : Nat} (hj : signers[i]? = some j)
    (hbelow : id ∈ cells.idsAbove j) :
    ∃ l, cells.Lineage j (id :: opens) (l :: path) := by
  obtain ⟨ids, path', hlineage, hsuffix⟩ := h.signer i j hj
  rw [hlineage.idsAbove_eq] at hbelow
  rcases List.suffix_cons_iff.1 hsuffix with rfl | hsuffix
  · cases hlineage with
    | @child _ _ l _ _ path'' found older rest =>
      obtain ⟨-, rfl⟩ := hid.unique rest
      exact ⟨l, .child found older rest⟩
  · exact absurd (hsuffix.subset hbelow) hid.not_mem

end

section

variable {cells cells' : Cells N (Marked N D)} {id x : Nat} {opens signers : List Nat}
  {path : List Location} {recorded : List (Zipper N)} {m n : Marks N} {slot : Option Nat}
  {z : Zipper N}

/-- An edit leaves the list in order. -/
theorem Shelved.put (h : cells.Shelved opens recorded signers) (hid : cells.Lineage id opens path)
    (hcrumbs : z.crumbs = cells.crumbs id)
    (hown : ∀ s : Nat, slot = some s → signers[s]? = some id) :
    cells.Shelved opens (putSlot slot z recorded) (putSlot slot id signers) := by
  refine ⟨h.stowed.put hid hcrumbs hown, fun x hx => ?_⟩
  obtain ⟨n, hn, hreserves⟩ := h.reserves x hx
  have habove : x ∈ cells.idsAbove id := by rwa [hid.idsAbove_eq]
  have hne : x ≠ id := fun heq => hid.not_mem (heq ▸ hx)
  exact ⟨n, hn, hreserves.put habove hne hown⟩

/-- When the edits below a context are cut off, what is left is in order, and its slot is
among it. -/
theorem Shelved.cut (h : cells.Shelved (id :: opens) recorded signers)
    (hid : cells.Lineage id opens path) (hm : cells.marks? id = some m) :
    cells.Shelved opens (recorded.take m.foldStart) (signers.take m.foldStart)
      ∧ ∀ s, m.slot = some s → (signers.take m.foldStart)[s]? = some id := by
  obtain ⟨_, heq, hself⟩ := h.reserves id (List.mem_cons_self ..)
  obtain rfl := Option.some.inj (hm.symm.trans heq)
  have hget : ∀ i j : Nat, (signers.take m.foldStart)[i]? = some j →
      i < m.foldStart ∧ signers[i]? = some j := by
    intro i j hj
    rw [List.getElem?_take] at hj
    split at hj
    · exact ⟨‹_›, hj⟩
    · cases hj
  refine ⟨⟨⟨?_, fun i j hj => ?_, fun i j z hj hz => ?_⟩, fun x hx => ?_⟩, fun s hs => ?_⟩
  · rw [List.length_take, List.length_take, h.stowed.length_eq]
  · obtain ⟨hlt, hj⟩ := hget i j hj
    obtain ⟨ids, path', hlineage, hsuffix⟩ := h.stowed.signer i j hj
    refine ⟨ids, path', hlineage, (List.suffix_cons_iff.1 hsuffix).resolve_left fun heq => ?_⟩
    have hbelow := (hself.below i j hj).2 (by rw [hlineage.idsAbove_eq, heq]; simp)
    omega
  · obtain ⟨hlt, hj⟩ := hget i j hj
    rw [List.getElem?_take, if_pos hlt] at hz
    exact h.stowed.crumbs i j z hj hz
  · obtain ⟨n, hn, hother⟩ := h.reserves x (List.mem_cons_of_mem _ hx)
    have hle := h.stowed.foldStart_le hid hx hself hother
    refine ⟨n, hn, hother.crumbs, fun s hs => ?_, ?_, fun i j hj => ?_⟩
    · obtain ⟨hsigned, hlt⟩ := hother.slot s hs
      exact ⟨by rw [List.getElem?_take, if_pos (by omega), hsigned], hlt⟩
    · have := hother.foldStart_le
      rw [List.length_take]
      omega
    · exact hother.below i j (hget i j hj).2
  · obtain ⟨hsigned, hlt⟩ := hself.slot s hs
    rw [List.getElem?_take, if_pos hlt, hsigned]

/-- A context that is entered joins those that are open. -/
theorem Shelved.opened (h : cells.Shelved opens recorded signers) (hm : cells.marks? id = some m)
    (hself : cells.Reserves signers id m) : cells.Shelved (id :: opens) recorded signers := by
  refine ⟨⟨h.stowed.length_eq, fun i j hj => ?_, h.stowed.crumbs⟩,
    List.forall_mem_cons.2 ⟨⟨m, hm, hself⟩, h.reserves⟩⟩
  obtain ⟨ids, path', hlineage, hsuffix⟩ := h.stowed.signer i j hj
  exact ⟨ids, path', hlineage, hsuffix.trans (List.suffix_cons _ _)⟩

/-- What the marks of a context tell is a matter of the contexts above it alone. -/
theorem Reserves.congr (h : cells.Reserves signers x n)
    (hstowed : cells.Stowed opens recorded signers) {ids : List Nat}
    (hx : cells.Lineage x ids path)
    (hplaces : ∀ k < cells.size, cells'.place? k = cells.place? k)
    (hsame : ∀ k ∈ ids, cells'[k]? = cells[k]?) : cells'.Reserves signers x n := by
  refine ⟨?_, h.slot, h.foldStart_le, fun i j hj => ?_⟩
  · rw [hx.crumbs_congr hplaces hsame, h.crumbs]
  · obtain ⟨ids', path', hlineage, -⟩ := hstowed.signer i j hj
    rw [(hlineage.congr hplaces).idsAbove_eq, ← hlineage.idsAbove_eq]
    exact h.below i j hj

/-- The order of the list is a matter of the open contexts alone. -/
theorem Shelved.congr (h : cells.Shelved opens recorded signers)
    (hid : cells.Lineage id opens path)
    (hplaces : ∀ k < cells.size, cells'.place? k = cells.place? k)
    (hsame : ∀ k ∈ opens, cells'[k]? = cells[k]?) : cells'.Shelved opens recorded signers := by
  refine ⟨⟨h.stowed.length_eq, fun i j hj => ?_, fun i j z hj hz => ?_⟩, fun x hx => ?_⟩
  · obtain ⟨ids, path', hlineage, hsuffix⟩ := h.stowed.signer i j hj
    exact ⟨ids, path', hlineage.congr hplaces, hsuffix⟩
  · obtain ⟨ids, path', hlineage, hsuffix⟩ := h.stowed.signer i j hj
    rw [hlineage.crumbs_congr hplaces fun k hk => hsame k (hsuffix.subset hk)]
    exact h.stowed.crumbs i j z hj hz
  · obtain ⟨n, hn, hreserves⟩ := h.reserves x hx
    obtain ⟨near, ids, path', rfl, hlineage⟩ := hid.of_mem hx
    refine ⟨n, by rw [marks?, hsame x hx]; exact hn, ?_⟩
    exact hreserves.congr h.stowed hlineage hplaces fun k hk => hsame k (by simp [hk])

/-- A context that is entered joins those that are open, and gets children. -/
theorem Shelved.descend (h : cells.Shelved opens recorded signers)
    (hid : cells.Lineage id opens path) (hself : cells.Reserves signers id m)
    (hsize : cells'.size = cells.size) (hplaces : ∀ k, cells'.place? k = cells.place? k)
    (hother : ∀ k, k ≠ id → cells'[k]? = cells[k]?) (hm : cells'.marks? id = some m)
    (kids : List (Frame N (Marked N D))) :
    (cells'.addAll (some id) kids).Shelved (id :: opens) recorded signers := by
  have hold : ∀ k < cells.size, (cells'.addAll (some id) kids)[k]? = cells'[k]? := fun k hk =>
    getElem?_addAll_of_lt cells' _ _ (hsize ▸ hk)
  have hplaces' : ∀ k < cells.size, (cells'.addAll (some id) kids).place? k = cells.place? k :=
    fun k hk => (place?_addAll_of_lt cells' _ _ (hsize ▸ hk)).trans (hplaces k)
  have hsame : ∀ k ∈ opens, (cells'.addAll (some id) kids)[k]? = cells[k]? := by
    intro k hk
    have hlt := hid.lt_of_mem hk
    rw [hold k (Nat.lt_trans hlt hid.lt_size), hother k (Nat.ne_of_lt hlt)]
  have hmarks : (cells'.addAll (some id) kids).marks? id = some m := by
    rw [marks?, hold id hid.lt_size]
    exact hm
  exact (h.congr hid hplaces' hsame).opened hmarks (hself.congr h.stowed hid hplaces' hsame)

end

end Cells

end Topiary
