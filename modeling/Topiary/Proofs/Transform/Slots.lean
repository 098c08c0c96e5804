/-
Topiary.Proofs.Transform.Slots — a slot holds the edit of the node that it belongs to.

A transform goes from callback to callback, and within a callback from edit to edit.
At each stage of a callback, also of one that fails later on, the list of recorded edits
is in order with respect to the context at work and to all contexts above it.

* `Cells.Begins` — a callback that begins; `Cells.Busy` — one that works.
* `Busy.writes`, `Busy.passes` — one edit, and any number.
* `Begins.after` — what a callback leaves behind.
* `Signed.InOrder`, `Begins.inOrder` — what holds at each stage.
* `Worklist.Orderly`, `Orderly.turn`, `Orderly.of_reaches` — one turn of the loop, and
  all of them.
-/
import Topiary.Proofs.Transform.Shelf
import Topiary.Proofs.Tree

namespace Topiary

variable {N D S : Type}

/-! ## Callbacks -/

namespace Cells

/-- A callback on the context `c` begins with the state `s`; the contexts `opens` are above it. -/
structure Begins (cells : Cells N (Marked N D)) (opens : List Nat) (c : Context N (Marked N D))
    (s : List Nat × Edited N S) : Prop where
  lineage : ∃ path, cells.Lineage c.id opens path
  crumbs : c.sight.crumbs = cells.crumbs c.id
  depth : c.sight.crumbs.length = c.sight.frame.depth
  marks : c.sight.frame.data.marks = cells.marks? c.id
  ids : c.ancestors.map Prod.fst = opens
  ancestors : ∀ a ∈ c.ancestors,
    a.2.frame.data.marks = cells.marks? a.1 ∧ a.2.crumbs = cells.crumbs a.1
  visiting : c.sight.frame.phase ≠ .leave →
    cells.Shelved opens s.2.recorded s.1 ∧ cells.marks? c.id = none
  leaving : c.sight.frame.phase = .leave → cells.Shelved (c.id :: opens) s.2.recorded s.1

/-- A callback works on the context `id`, below which no edits are left on the list. -/
structure Busy (cells : Cells N (Marked N D)) (opens : List Nat) (id start : Nat) (b : Signed N) :
    Prop where
  shelved : cells.Shelved opens b.bench.recorded b.signers
  own : ∃ m, b.bench.marks = some m ∧ m.foldStart = start ∧ m.zipper.crumbs = cells.crumbs id
    ∧ ∀ s, m.slot = some s → b.signers[s]? = some id

section

variable {cells : Cells N (Marked N D)} {opens : List Nat} {id start : Nat} {b b' : Signed N}
  {path : List Location} {m m' : Marks N}

/-- An act, or the fold. -/
theorem Busy.writes (h : cells.Busy opens id start b) (hid : cells.Lineage id opens path)
    (hm : b.bench.marks = some m) (hm' : b'.bench.marks = some m')
    (hcontinues : Signed.Continues m m') (hwrites : Signed.Writes id m m' b b') :
    cells.Busy opens id start b' := by
  obtain ⟨_, heq, hstart, hcrumbs, hslot⟩ := h.own
  obtain rfl := Option.some.inj (hm.symm.trans heq)
  have hcrumbs' := hcontinues.crumbs.trans hcrumbs
  have hstart' := hcontinues.foldStart.trans hstart
  cases hwrites with
  | nothing recorded signers slot =>
    refine ⟨by rw [recorded, signers]; exact h.shelved, m', hm', hstart', hcrumbs', ?_⟩
    rw [slot, signers]
    exact hslot
  | @edit slot z own lt recorded crumbs signers kept =>
    have hown : ∀ s : Nat, slot = some s → b.signers[s]? = some id := by
      intro s hs
      rcases own with rfl | rfl
      · cases hs
      · exact hslot s hs
    refine ⟨?_, m', hm', hstart', hcrumbs', fun s hs => ?_⟩
    · rw [recorded, signers]
      exact h.shelved.put hid (crumbs.trans hcrumbs) hown
    · rw [signers, getElem?_putSlot (lt_of_signed hown)]
      split
      · rfl
      · rename_i hne
        rcases kept with hkept | hkept
        · exact hslot s (hkept ▸ hs)
        · rw [hs, ← h.shelved.stowed.length_eq] at hkept
          exact absurd (Option.some.inj hkept) hne

/-- Any number of acts. -/
theorem Busy.passes (h : cells.Busy opens id start b) (hid : cells.Lineage id opens path)
    {acts : List (Act N)} (hpasses : b.Passes id acts b') : cells.Busy opens id start b' := by
  induction hpasses with
  | here => exact h
  | act done _ ih =>
    obtain ⟨m, hm, -⟩ := h.own
    obtain ⟨m', hm', hcontinues, hwrites⟩ := Signed.exists_writes_of_act hm done
    exact ih (h.writes hid hm hm' hcontinues hwrites)

end

namespace Begins

variable [Identified N] {cells : Cells N (Marked N D)} {opens : List Nat}
  {c : Context N (Marked N D)} {s : List Nat × Edited N S} {b : Signed N} {m : Marks N}

omit [Identified N] in
/-- In `enter`. -/
theorem busy_entering (h : cells.Begins opens c s) (hphase : c.sight.frame.phase = .enter)
    {acts : List (Act N)} (hpasses : (Signed.entering c s).Passes c.id acts b) :
    cells.Busy opens c.id 0 b := by
  obtain ⟨path, hid⟩ := h.lineage
  have hshelved := (h.visiting (by simp [hphase])).1
  have hbusy : cells.Busy opens c.id 0 (.entering c s) :=
    ⟨hshelved, _, rfl, rfl, h.crumbs, fun _ hs => by cases hs⟩
  exact hbusy.passes hid hpasses

omit [Identified N] in
/-- In `leave`, with the edits below taken off the list. -/
theorem busy_cut (h : cells.Begins opens c s) (hphase : c.sight.frame.phase = .leave)
    (hm : c.sight.frame.data.marks = some m) :
    cells.Busy opens c.id m.foldStart ((Signed.found c s).cut m.foldStart) := by
  obtain ⟨path, hid⟩ := h.lineage
  have hshelved := h.leaving hphase
  have hmarks := h.marks.symm.trans hm
  obtain ⟨_, heq, hself⟩ := hshelved.reserves c.id (List.mem_cons_self ..)
  obtain rfl := Option.some.inj (hmarks.symm.trans heq)
  obtain ⟨hcut, hslot⟩ := hshelved.cut hid hmarks
  exact ⟨hcut, m, hm, rfl, hself.crumbs, hslot⟩

/-- In `leave`, with the edits below folded. -/
theorem busy_leaving (h : cells.Begins opens c s) (hphase : c.sight.frame.phase = .leave)
    (hm : c.sight.frame.data.marks = some m) {A : Adapter N} {base : Site} {depth : Nat}
    {folded : Signed N} {ledger : List (Rebuild N)}
    (hfold : (Signed.found c s).fold c.id A base depth = .ok (folded, ledger))
    {acts : List (Act N)} (hpasses : folded.Passes c.id acts b) :
    cells.Busy opens c.id m.foldStart b := by
  obtain ⟨path, hid⟩ := h.lineage
  have hlength := (h.leaving hphase).stowed.length_eq
  obtain ⟨m', hm', hcontinues, hwrites⟩ :=
    Signed.exists_writes_of_fold (b := .found c s) hm hlength hfold
  exact ((h.busy_cut hphase hm).writes hid hm hm' hcontinues hwrites).passes hid hpasses

omit [Identified N] in
/-- In `backRef` nothing gets onto the list. -/
theorem eq_of_referring (h : cells.Begins opens c s) (hphase : c.sight.frame.phase = .backRef)
    {acts : List (Act N)} (hpasses : (Signed.found c s).Passes c.id acts b) :
    b.bench.recorded = s.2.recorded ∧ b.signers = s.1 := by
  have hnone : (Signed.found c s).bench.marks = none :=
    h.marks.trans (h.visiting (by simp [hphase])).2
  exact Signed.eq_of_passes_of_no_marks hnone hpasses

omit [Identified N] in
/-- When `enter` is over, the marks tell where the edits below begin. -/
theorem reserves_close (h : cells.Begins opens c s) {start : Nat}
    (hbusy : cells.Busy opens c.id start b) :
    ∃ m, b.close.bench.marks = some m ∧ cells.Reserves b.close.signers c.id m := by
  obtain ⟨path, hid⟩ := h.lineage
  obtain ⟨m, hm, -, hcrumbs, hslot⟩ := hbusy.own
  exact ⟨{ m with foldStart := b.bench.recorded.length }, by simp [Signed.close, hm],
    hbusy.shelved.stowed.close hid hcrumbs hslot rfl⟩

/-- What a callback leaves behind. -/
theorem after (h : cells.Begins opens c s) {t : Transform N D S}
    (hm : t.Moment c s (.last c.sight.frame.phase) b) :
    cells.Shelved opens b.bench.recorded b.signers
      ∧ (c.sight.frame.phase = .enter →
        ∃ m, b.bench.marks = some m ∧ cells.Reserves b.signers c.id m) := by
  cases hphase : c.sight.frame.phase with
  | enter =>
    rw [hphase] at hm
    cases hm with
    | @entered b _ _ done =>
      have hbusy := h.busy_entering hphase (EditVisitor.passes_of_onSigned done)
      exact ⟨hbusy.shelved, fun _ => h.reserves_close hbusy⟩
  | leave =>
    rw [hphase] at hm
    cases hm with
    | leaving _ fold passes =>
      obtain ⟨m, hm, -⟩ := (h.leaving hphase).reserves c.id (List.mem_cons_self ..)
      exact ⟨(h.busy_leaving hphase (h.marks.trans hm) fold passes).shelved, by simp⟩
  | backRef =>
    rw [hphase] at hm
    cases hm with
    | referring _ passes =>
      obtain ⟨hrecorded, hsigners⟩ := h.eq_of_referring hphase passes
      rw [hrecorded, hsigners]
      exact ⟨(h.visiting (by simp [hphase])).1, by simp⟩

end Begins

end Cells

/-! ## What holds during a callback -/

namespace Signed

/-- In the slot that the marks tell is an edit with these breadcrumbs, signed by `id`. -/
def Holds (b : Signed N) (id : Nat) (crumbs : List (Breadcrumb N)) (m : Marks N) : Prop :=
  ∀ s, m.slot = some s → b.signers[s]? = some id
    ∧ ∃ z, b.bench.recorded[s]? = some z ∧ z.crumbs = crumbs

/-- The start that the marks tell parts the edits of the contexts below `id` from all others,
among which is its own. -/
structure Parts (b : Signed N) (cells : Cells N D) (id : Nat) (m : Marks N) : Prop where
  slot_lt : ∀ s, m.slot = some s → s < m.foldStart
  foldStart_le : m.foldStart ≤ b.bench.recorded.length
  below : ∀ i j : Nat, b.signers[i]? = some j → (m.foldStart ≤ i ↔ id ∈ cells.idsAbove j)

/-- The marks of the context that a callback works on. -/
structure Owns (b : Signed N) (cells : Cells N (Marked N D)) (c : Context N (Marked N D))
    (stage : Transform.Stage) (m : Marks N) : Prop where
  marks : b.bench.marks = some m
  slot : b.Holds c.id c.sight.crumbs m
  /-- Once there is a start, it comes no earlier than those of the contexts above. -/
  nested : stage ≠ .entering → ∀ a ∈ c.ancestors, ∀ n, a.2.frame.data.marks = some n →
    n.foldStart ≤ m.foldStart
  parts : stage = .entered ∨ stage = .returning → b.Parts cells c.id m
  /-- When `leave` begins, the edits below are those of children. -/
  one_level : stage = .returning → ∀ z ∈ b.bench.recorded.drop m.foldStart,
    ∃ crumb, z.crumbs = crumb :: c.sight.crumbs
      ∧ (z.rebase c.sight.frame.depth).crumbs = [crumb]

/-- The list of edits is in order at a stage of a callback on the context `c`. -/
structure InOrder (b : Signed N) (cells : Cells N (Marked N D)) (c : Context N (Marked N D))
    (stage : Transform.Stage) : Prop where
  length_eq : b.signers.length = b.bench.recorded.length
  crumbs : ∀ (i j : Nat) (z : Zipper N), b.signers[i]? = some j → b.bench.recorded[i]? = some z →
    z.crumbs = cells.crumbs j
  above : ∀ a ∈ c.ancestors, ∃ m, a.2.frame.data.marks = some m ∧ b.Holds a.1 a.2.crumbs m
    ∧ b.Parts cells a.1 m
  nested : c.ancestors.Pairwise fun near far => ∀ m n, near.2.frame.data.marks = some m →
    far.2.frame.data.marks = some n → n.foldStart ≤ m.foldStart
  own : stage ≠ .referring → ∃ m, b.Owns cells c stage m

end Signed

namespace Cells

variable {cells : Cells N (Marked N D)} {opens opens' : List Nat} {c : Context N (Marked N D)}
  {s : List Nat × Edited N S} {b : Signed N} {m : Marks N} {id : Nat} {stage : Transform.Stage}

theorem Stowed.holds (h : cells.Stowed opens b.bench.recorded b.signers)
    (hown : ∀ s, m.slot = some s → b.signers[s]? = some id) : b.Holds id (cells.crumbs id) m := by
  intro s hs
  obtain ⟨hlt, -⟩ := List.getElem?_eq_some_iff.1 (hown s hs)
  have hz := List.getElem?_eq_getElem (h.length_eq ▸ hlt)
  exact ⟨hown s hs, _, hz, h.crumbs s id _ (hown s hs) hz⟩

theorem Reserves.parts (h : cells.Reserves b.signers id m)
    (hstowed : cells.Stowed opens b.bench.recorded b.signers) : b.Parts cells id m where
  slot_lt := fun s hs => (h.slot s hs).2
  foldStart_le := hstowed.length_eq ▸ h.foldStart_le
  below := h.below

namespace Begins

/-- What there is to say about the contexts above holds throughout. -/
theorem inOrder_of (h : cells.Begins opens c s)
    (hstowed : cells.Stowed opens' b.bench.recorded b.signers)
    (hreserves : ∀ x ∈ opens, ∃ m, cells.marks? x = some m ∧ cells.Reserves b.signers x m)
    (hown : stage ≠ .referring → ∃ m, b.Owns cells c stage m) : b.InOrder cells c stage := by
  have hopen : ∀ a ∈ c.ancestors, a.1 ∈ opens := fun a ha => h.ids ▸ List.mem_map_of_mem ha
  have habove : ∀ a ∈ c.ancestors, ∃ m, a.2.frame.data.marks = some m
      ∧ cells.Reserves b.signers a.1 m := by
    intro a ha
    obtain ⟨m, hm, hmarks⟩ := hreserves a.1 (hopen a ha)
    exact ⟨m, (h.ancestors a ha).1.trans hm, hmarks⟩
  obtain ⟨path, hid⟩ := h.lineage
  refine ⟨hstowed.length_eq, hstowed.crumbs, fun a ha => ?_, ?_, hown⟩
  · obtain ⟨m, hm, hself⟩ := habove a ha
    rw [(h.ancestors a ha).2]
    exact ⟨m, hm, hstowed.holds fun s hs => (hself.slot s hs).1, hself.parts hstowed⟩
  · have hpairs := hid.pairwise
    rw [← h.ids, List.pairwise_map] at hpairs
    refine hpairs.imp_of_mem fun {near far} hnear hfar hup m n hm hn => ?_
    obtain ⟨_, heq, hself⟩ := habove near hnear
    obtain rfl := Option.some.inj (hm.symm.trans heq)
    obtain ⟨_, heq, hother⟩ := habove far hfar
    obtain rfl := Option.some.inj (hn.symm.trans heq)
    obtain ⟨-, ids, path', -, hlineage⟩ := hid.of_mem (hopen near hnear)
    rw [hlineage.idsAbove_eq] at hup
    exact hstowed.foldStart_le hlineage hup hself hother

/-- The context itself, while none of the edits below it are on the list. -/
theorem owns_of_busy (h : cells.Begins opens c s) {start : Nat}
    (hbusy : cells.Busy opens c.id start b) (hentered : stage ≠ .entered)
    (hreturning : stage ≠ .returning)
    (hstart : stage ≠ .entering → ∀ x ∈ opens, ∀ n, cells.marks? x = some n →
      n.foldStart ≤ start) : ∃ m, b.Owns cells c stage m := by
  obtain ⟨m, hm, rfl, -, hslot⟩ := hbusy.own
  refine ⟨m, hm, ?_, fun hstage a ha n hn => ?_, fun hstage => ?_, fun hstage => ?_⟩
  · rw [h.crumbs]
    exact hbusy.shelved.stowed.holds hslot
  · have ha' : a.1 ∈ opens := h.ids ▸ List.mem_map_of_mem ha
    exact hstart hstage a.1 ha' n ((h.ancestors a ha).1.symm.trans hn)
  · exact absurd hstage (by simp [hentered, hreturning])
  · exact absurd hstage hreturning

/-- The context itself, once there is a start. -/
theorem owns_of_reserves (h : cells.Begins opens c s)
    (hstowed : cells.Stowed opens' b.bench.recorded b.signers)
    (hreserves : ∀ x ∈ opens, ∃ m, cells.marks? x = some m ∧ cells.Reserves b.signers x m)
    (hm : b.bench.marks = some m) (hself : cells.Reserves b.signers c.id m)
    (hlevel : stage = .returning → opens' = c.id :: opens) : b.Owns cells c stage m := by
  obtain ⟨path, hid⟩ := h.lineage
  refine ⟨hm, ?_, fun _ a ha n hn => ?_, fun _ => hself.parts hstowed, fun hstage z hz => ?_⟩
  · rw [h.crumbs]
    exact hstowed.holds fun s hs => (hself.slot s hs).1
  · have ha' : a.1 ∈ opens := h.ids ▸ List.mem_map_of_mem ha
    obtain ⟨_, heq, hother⟩ := hreserves a.1 ha'
    obtain rfl := Option.some.inj ((hn.symm.trans (h.ancestors a ha).1).trans heq)
    exact hstowed.foldStart_le hid ha' hself hother
  · obtain rfl := hlevel hstage
    obtain ⟨i, hi⟩ := List.mem_iff_getElem?.1 hz
    rw [List.getElem?_drop] at hi
    obtain ⟨hlt, -⟩ := List.getElem?_eq_some_iff.1 hi
    have hj := List.getElem?_eq_getElem (hstowed.length_eq.symm ▸ hlt)
    obtain ⟨l, hlineage⟩ :=
      hstowed.lineage_of_below hid hj ((hself.below _ _ hj).1 (Nat.le_add_right _ _))
    obtain ⟨cell, hcell⟩ := hid.exists_cell
    have hcrumbs := hstowed.crumbs _ _ z hj hi
    rw [hlineage.crumbs_cons hcell, ← h.crumbs] at hcrumbs
    refine ⟨_, hcrumbs, ?_⟩
    simp [Zipper.rebase, hcrumbs, h.depth]

variable [Identified N]

/-- At every stage of a callback the list is in order. -/
theorem inOrder (h : cells.Begins opens c s) {t : Transform N D S}
    (hmoment : t.Moment c s stage b) : b.InOrder cells c stage := by
  have hleave : c.sight.frame.phase = .leave → ∃ m, c.sight.frame.data.marks = some m
      ∧ cells.Reserves s.1 c.id m ∧ ∀ x ∈ opens, ∀ n, cells.marks? x = some n →
        n.foldStart ≤ m.foldStart := by
    intro hphase
    obtain ⟨path, hid⟩ := h.lineage
    have hshelved := h.leaving hphase
    obtain ⟨m, hm, hself⟩ := hshelved.reserves c.id (List.mem_cons_self ..)
    refine ⟨m, h.marks.trans hm, hself, fun x hx n hn => ?_⟩
    obtain ⟨_, heq, hother⟩ := hshelved.reserves x (List.mem_cons_of_mem _ hx)
    obtain rfl := Option.some.inj (hn.symm.trans heq)
    exact hshelved.stowed.foldStart_le hid hx hself hother
  cases hmoment with
  | entering phase passes =>
    have hbusy := h.busy_entering phase passes
    exact h.inOrder_of hbusy.shelved.stowed hbusy.shelved.reserves fun _ =>
      h.owns_of_busy hbusy (by simp) (by simp) fun hstage => absurd rfl hstage
  | @entered b a phase done =>
    have hbusy := h.busy_entering phase (EditVisitor.passes_of_onSigned done)
    obtain ⟨m, hm, hself⟩ := h.reserves_close hbusy
    exact h.inOrder_of (b := b.close) hbusy.shelved.stowed hbusy.shelved.reserves fun _ =>
      ⟨m, h.owns_of_reserves hbusy.shelved.stowed hbusy.shelved.reserves hm hself (by simp)⟩
  | returning phase =>
    obtain ⟨m, hm, hself, -⟩ := hleave phase
    have hshelved := h.leaving phase
    have hreserves := fun x hx => hshelved.reserves x (List.mem_cons_of_mem _ hx)
    exact h.inOrder_of (b := .found c s) hshelved.stowed hreserves fun _ =>
      ⟨m, h.owns_of_reserves hshelved.stowed hreserves hm hself fun _ => rfl⟩
  | cut phase marks =>
    obtain ⟨_, heq, -, hstart⟩ := hleave phase
    obtain rfl := Option.some.inj (marks.symm.trans heq)
    have hbusy := h.busy_cut phase marks
    exact h.inOrder_of hbusy.shelved.stowed hbusy.shelved.reserves fun _ =>
      h.owns_of_busy hbusy (by simp) (by simp) fun _ => hstart
  | leaving phase fold passes =>
    obtain ⟨m, hm, -, hstart⟩ := hleave phase
    have hbusy := h.busy_leaving phase hm fold passes
    exact h.inOrder_of hbusy.shelved.stowed hbusy.shelved.reserves fun _ =>
      h.owns_of_busy hbusy (by simp) (by simp) fun _ => hstart
  | referring phase passes =>
    obtain ⟨hrecorded, hsigners⟩ := h.eq_of_referring phase passes
    have hshelved := (h.visiting (by simp [phase])).1
    rw [← hrecorded, ← hsigners] at hshelved
    exact h.inOrder_of hshelved.stowed hshelved.reserves fun hstage => absurd rfl hstage

end Begins

end Cells

/-! ## The loop -/

/-- Between two callbacks the list of edits is in order; what waits has no marks. -/
structure Worklist.Orderly (w : Worklist N (Marked N D) (List Nat × Edited N S)) : Prop where
  shelved : w.cells.Shelved (w.pending.filterMap Work.leave?) w.state.2.recorded w.state.1
  waiting : ∀ id, .visit id ∈ w.pending → ∀ cell, w.cells[id]? = some cell →
    cell.frame.phase = .enter ∧ cell.frame.data.marks = none

namespace Worklist.Orderly

variable [Identified N] {t : Transform N D S}
  {w x : Worklist N (Marked N D) (List Nat × Edited N S)} {item : Work} {pending : List Work}
  {c : Context N (Marked N D)} {a : Answer N (Marked N D) (List Nat × Edited N S)}

/-- The next callback. -/
theorem begins (h : w.Orderly) {u : Traversal N (Marked N D) (List Nat × Edited N S)}
    (hplace : u.InPlace w) (hnests : w.cells.Nests w.pending) (hquit : w.quit = false)
    (hpending : w.pending = item :: pending) (hhanded : u.handed? w.cells item = some c) :
    w.cells.Begins (pending.filterMap Work.leave?) c w.state := by
  have hcalling : u.calling? w = some c := by
    rw [Traversal.calling?, hquit, hpending]
    exact hhanded
  have hdepth := (hplace.calling hcalling).2.length_crumbs
  have hshelved := h.shelved
  have hwaiting := h.waiting
  rw [hpending] at hnests hshelved hwaiting
  obtain ⟨⟨path, hid⟩, -⟩ := hnests
  obtain ⟨cell, hcell, rfl⟩ := Traversal.exists_cell_of_handed hhanded
  obtain ⟨phase, visited, hframe⟩ := u.shownFrame_eq w.cells cell.frame item
  have hmarks : w.cells.marks? item.id = cell.frame.data.marks := by simp [Cells.marks?, hcell]
  obtain ⟨hids, hancestors⟩ := hid.ancestors u.rootData (u.shownFrame w.cells cell.frame item)
  refine ⟨⟨path, hid⟩, ?_, hdepth, ?_, hids, fun a ha => ?_, fun hphase => ?_, fun hphase => ?_⟩
  · exact Cells.crumbs_of_cell hcell (by rw [hframe]) u.rootData
  · rw [Cells.context, hmarks, hframe]
  · obtain ⟨up, hup, hdata, hcrumbs⟩ := hancestors a ha
    exact ⟨by rw [hdata, Cells.marks?, hup]; rfl, hcrumbs⟩
  · cases item with
    | leave id => exact absurd rfl hphase
    | visit id =>
      obtain ⟨-, hnone⟩ := hwaiting id (List.mem_cons_self ..) cell hcell
      exact ⟨hshelved, hmarks.trans hnone⟩
  · cases item with
    | leave id => exact hshelved
    | visit id =>
      obtain ⟨hnew, -⟩ := hwaiting id (List.mem_cons_self ..) cell hcell
      have hshown : (u.shownFrame w.cells cell.frame (.visit id)).phase ≠ .leave := by
        simp only [Traversal.shownFrame]
        split <;> simp [hnew]
      exact absurd hphase hshown

/-- What waits is left alone by the next callback. -/
theorem waiting_answered (h : w.Orderly) {u : Traversal N (Marked N D) (List Nat × Edited N S)}
    (hplace : u.InPlace w) (hpending : w.pending = item :: pending)
    (hhanded : u.handed? w.cells item = some c) {id : Nat} (hid : .visit id ∈ pending)
    {cell : Cell N (Marked N D)} (hcell : (w.answered c a).cells[id]? = some cell) :
    cell.frame.phase = .enter ∧ cell.frame.data.marks = none := by
  have hdistinct := hplace.distinct
  rw [hpending, List.map_cons, List.nodup_cons] at hdistinct
  have hne : id ≠ c.id := by
    rw [Traversal.id_of_handed hhanded]
    exact fun heq => hdistinct.1 (List.mem_map.2 ⟨_, hid, heq⟩)
  rw [Traversal.getElem?_answered_of_ne w c a hne] at hcell
  exact h.waiting id (hpending ▸ List.mem_cons_of_mem _ hid) cell hcell

/-- The contexts that are made for children. -/
theorem kid_waits (t : Transform N D S) (cells : Cells N (Marked N D)) (parent : Option Nat)
    (frame : Frame N (Marked N D)) {i : Nat} {kid : Cell N (Marked N D)}
    (h : (cells.addAll parent (t.signing.kidFrames frame))[cells.size + i]? = some kid) :
    kid.frame.phase = .enter ∧ kid.frame.data.marks = none := by
  rw [Cells.getElem?_addAll_add, t.signing.getElem?_kidFrames] at h
  obtain ⟨new, hnew, rfl⟩ := Option.map_eq_some_iff.1 h
  split at hnew
  · cases hnew
  · obtain ⟨located, -, rfl⟩ := Option.map_eq_some_iff.1 hnew
    exact ⟨rfl, rfl⟩

/-- One turn of the loop. -/
theorem turn (h : w.Orderly) (hplace : t.signing.InPlace w) (hnests : w.cells.Nests w.pending)
    (hquit : w.quit = false) (hpending : w.pending = item :: pending)
    (hhanded : t.signing.handed? w.cells item = some c)
    (ha : t.signing.visitor c w.state = .ok a)
    (hturn : t.signing.Turn { w with pending } item c a x) : x.Orderly := by
  have hbegins := h.begins hplace hnests hquit hpending hhanded
  obtain ⟨b, hmoment, hmarks, hsigners, hrecorded⟩ := Transform.exists_moment_of_answer ha
  obtain ⟨hshelved, hentered⟩ := hbegins.after hmoment
  rw [← hsigners, ← hrecorded] at hshelved
  obtain ⟨path, hid⟩ := hbegins.lineage
  -- the callback itself
  let cells := (w.answered c a).cells
  have hplaces : ∀ k, cells.place? k = w.cells.place? k := Traversal.place?_answered hhanded
  have hother : ∀ k, k ≠ c.id → cells[k]? = w.cells[k]? := fun _ =>
    Traversal.getElem?_answered_of_ne w c a
  have hwaiting : ∀ id, .visit id ∈ pending → ∀ cell, cells[id]? = some cell →
      cell.frame.phase = .enter ∧ cell.frame.data.marks = none := fun _ hid _ hcell =>
    h.waiting_answered hplace hpending hhanded hid hcell
  have hkept := hshelved.congr hid (fun k _ => hplaces k) fun k hk =>
    hother k (Nat.ne_of_lt (hid.lt_of_mem hk))
  cases hturn with
  | leave _ => exact ⟨hkept, hwaiting⟩
  | backRef _ => exact ⟨hkept, hwaiting⟩
  | halt _ _ => exact ⟨hkept, hwaiting⟩
  | @descend id _ _ found _ =>
    obtain ⟨parent, hfound⟩ := found
    obtain ⟨hphase, -⟩ := h.waiting id (hpending ▸ List.mem_cons_self ..) _ hfound
    obtain ⟨m, hm, hself⟩ := hentered hphase
    obtain rfl : c.id = id := Traversal.id_of_handed hhanded
    have hcell : cells[c.id]? = some ⟨c.sight.frame.update a, parent⟩ := by
      have hget := Cells.getElem?_setFrame w.cells c.id c.id (c.sight.frame.update a)
      rwa [if_pos rfl, hfound] at hget
    let y : Worklist N (Marked N D) (List Nat × Edited N S) :=
      { Worklist.answered { w with pending } c a with entered := w.entered + 1 }
    rw [t.signing.expand_eq_kids (w := y) hcell]
    let kids := t.signing.kidFrames (c.sight.frame.update a)
    have hsize : cells.size = w.cells.size := Cells.size_setFrame ..
    have hmarks' : cells.marks? c.id = some m := by
      rw [Cells.marks?, hcell]
      exact hmarks.trans hm
    have hopened :=
      hshelved.descend hid (hsigners ▸ hself) hsize hplaces hother hmarks' kids
    refine ⟨?_, fun id hmem kid hkid => ?_⟩
    · show (cells.addAll (some c.id) kids).Shelved
        ((Work.inside c.id cells.size kids.length ++ pending).filterMap Work.leave?) _ _
      rw [List.filterMap_append, Work.filterMap_leave?_inside]
      exact hopened
    · rcases List.mem_append.1 (show Work.visit id
        ∈ Work.inside c.id cells.size kids.length ++ pending from hmem) with hmem | hmem
      · rcases Work.mem_inside_iff.1 hmem with ⟨i, -, heq⟩ | heq
        · obtain rfl := Work.visit.inj heq
          exact kid_waits t cells (some c.id) _ hkid
        · cases heq
      · have hlt := (hplace.placed (.visit id) (hpending ▸ List.mem_cons_of_mem _ hmem)).lt_size
        have hget := Cells.getElem?_addAll_of_lt cells (some c.id) kids (hsize ▸ hlt)
        exact hwaiting id hmem kid (hget.symm.trans hkid)

/-- In the beginning nothing is on the list. -/
theorem start (t : Transform N D S) (root : N) (state : S) :
    (t.signing.start [root] ([], ⟨state, [], []⟩)).Orderly := by
  refine ⟨⟨⟨rfl, by simp [Traversal.start], by simp [Traversal.start]⟩, ?_⟩, fun id _ cell hcell => ?_⟩
  · simp [Traversal.start, Work.leave?, List.range, List.range.loop]
  · rw [Traversal.getElem?_start] at hcell
    obtain ⟨node, -, rfl⟩ := Option.map_eq_some_iff.1 hcell
    exact ⟨rfl, rfl⟩

/-- All turns of the loop. -/
theorem of_reaches (h : w.Orderly) (hplace : t.signing.InPlace w)
    (hnests : w.cells.Nests w.pending) (hreaches : t.signing.Reaches w x) : x.Orderly := by
  induction hreaches with
  | refl => exact h
  | @tail y x hy hnext ih =>
    have hplace' := hplace.of_reaches (.inl rfl) hy
    have hnests' := hnests.of_reaches rfl hy
    obtain ⟨item, pending, hpending, hquit, hcases⟩ := Traversal.next_cases hnext
    rcases hcases with ⟨hnone, -⟩ | ⟨c, a, hhanded, ha, hturn⟩
    · have hlt := (hplace'.placed item (hpending ▸ List.mem_cons_self ..)).lt_size
      exact absurd hnone (by simp [hlt])
    · exact ih.turn hplace' hnests' hquit hpending hhanded ha hturn

end Worklist.Orderly

/-- The work list of a walk that signs its edits, from that of the walk. -/
def Worklist.signedBy (w : Worklist N (Marked N D) (Edited N S)) (signers : List Nat) :
    Worklist N (Marked N D) (List Nat × Edited N S) :=
  ⟨w.cells, w.pending, (signers, w.state), w.entered, w.quit⟩

/-! ## Whole transforms -/

/-- However far a transform has come, its recorded edits can be signed by the contexts that
recorded them, so that at every stage of the next callback, whether it comes to its end or not,
slots and starts are in order: the slot of an entered context, be it the one at work or one
above it, holds an edit with its own breadcrumbs; the edits from its start on are those of the
contexts below it; starts come no earlier further down; and when a node is left, all edits from
its start on lie one level below it. -/
theorem slots_hold_their_owners_edits [Identified N] (t : Transform N D S) (root : N) (state : S)
    {w : Worklist N (Marked N D) (Edited N S)}
    (hw : t.traversal.Reaches (t.traversal.start [root] ⟨state, [], []⟩) w) :
    ∃ signers, t.signing.Reaches (t.signing.start [root] ([], ⟨state, [], []⟩))
        (w.signedBy signers)
      ∧ ∀ c, t.traversal.calling? w = some c → ∀ stage b,
        t.Moment c (signers, w.state) stage b → b.InOrder w.cells c stage := by
  obtain ⟨x, hx, rfl⟩ := t.signing_extends.exists_reaches
    (y := t.signing.start [root] ([], ⟨state, [], []⟩)) hw
  refine ⟨x.state.1, hx, fun c hc stage b hmoment => ?_⟩
  have hplace := (Traversal.InPlace.start t.signing [root] ([], ⟨state, [], []⟩)).of_reaches
    (.inl rfl) hx
  have hnests := (t.signing.nests_start [root] ([], ⟨state, [], []⟩)).of_reaches rfl hx
  have horderly := (Worklist.Orderly.start t root state).of_reaches
    (.start t.signing [root] _) (t.signing.nests_start [root] _) hx
  unfold Traversal.calling? at hc
  split at hc
  · cases hc
  rename_i hquit
  obtain ⟨item, hhead, hhanded⟩ := Option.bind_eq_some_iff.1 hc
  obtain ⟨pending, hpending⟩ := List.head?_eq_some_iff.1 hhead
  exact (horderly.begins hplace hnests (Bool.eq_false_iff.2 hquit) hpending hhanded).inOrder hmoment

/-- Changes the node labelled `b` on entering it, and deletes those labelled `d`. -/
def Transform.relabelling : Transform Tree Unit Unit where
  adapter := Tree.adapter
  visitor := fun c _ =>
    let f := c.sight.frame
    if f.phase = .enter ∧ f.node.label = "b" then
      .ok ⟨.proceed, [.edit (.change (.node (.given 5) "y" f.node.groups))], (), ()⟩
    else if f.phase = .enter ∧ f.node.label = "d" then .ok ⟨.proceed, [.edit .delete], (), ()⟩
    else .ok ⟨.proceed, [], (), ()⟩
  run := 0
  fresh := ()
  rootData := ()

/-- On leaving `b` its own edit is in the first slot, and after it comes the one from below. -/
theorem relabelled_hedge_keeps_slots :
    ∃ w c m signers, Transform.relabelling.traversal.Reaches
        (Transform.relabelling.traversal.start [Tree.hedge] ⟨(), [], []⟩) w
      ∧ Transform.relabelling.traversal.calling? w = some c
      ∧ c.sight.frame.phase = .leave ∧ c.sight.frame.node.render = "y(d,e)"
      ∧ c.sight.frame.data.marks = some m ∧ m.slot = some 0 ∧ m.foldStart = 1
      ∧ w.state.recorded.length = 2
      ∧ (Signed.found c (signers, w.state)).InOrder w.cells c .returning := by
  have hsteps : (Transform.relabelling.traversal.after 6
      (Transform.relabelling.traversal.start [Tree.hedge] ⟨(), [], []⟩) >>= fun w =>
        (Transform.relabelling.traversal.calling? w).bind fun c =>
          c.sight.frame.data.marks.map fun m => (c.sight.frame.phase, c.sight.frame.node.render,
            m.slot, m.foldStart, w.state.recorded.length))
      = some (.leave, "y(d,e)", some 0, 1, 2) := by cbv
  obtain ⟨w, hw, hsteps⟩ := Option.bind_eq_some_iff.1 hsteps
  obtain ⟨c, hc, hsteps⟩ := Option.bind_eq_some_iff.1 hsteps
  obtain ⟨m, hm, hsteps⟩ := Option.map_eq_some_iff.1 hsteps
  simp only [Prod.mk.injEq] at hsteps
  obtain ⟨hphase, hnode, hslot, hstart, hlength⟩ := hsteps
  have hreaches := Traversal.reaches_of_after hw
  obtain ⟨signers, -, hinOrder⟩ :=
    slots_hold_their_owners_edits Transform.relabelling Tree.hedge () hreaches
  exact ⟨w, c, m, signers, hreaches, hc, hphase, hnode, hm, hslot, hstart, hlength,
    hinOrder c hc .returning _ (.returning hphase)⟩

end Topiary
