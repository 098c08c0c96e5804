/-
Topiary.Proofs.Transform.Mirror — the same edits on a bench and on a task.

A bench keeps a node's edits as zippers in a list that the whole walk
shares, with the slot of the node's replacement; a task keeps its own list
and looks the replacement up.  As long as the node is there both hold the
same edits in the same order, at most one of them a replacement, and every
edit is refused by both or by neither.

* `Task.Tally` — the edits of a node that was not deleted.
* `Bench.Mirrors` — a bench and a task after the same edits.
* `Bench.Mirrors.editAll` — the edits of one callback.
-/
import Topiary.Proofs.Transform.Local

namespace Topiary

variable {N D : Type}

/-! ## The edits of a task -/

namespace Task

/-- The edits of a node that was not deleted: insertions and at most one
replacement, which is by the node as it stands; with the replacement's
position. -/
inductive Tally (node reached : N) : Option Nat → List (EditKind × N) → Prop
  | kept {edits : List (EditKind × N)} (hedits : ∀ e ∈ edits, e.1.isInsertion = true)
      (hnode : node = reached) : Tally node reached none edits
  | replaced {before after : List (EditKind × N)}
      (hbefore : ∀ e ∈ before, e.1.isInsertion = true)
      (hafter : ∀ e ∈ after, e.1.isInsertion = true) :
      Tally node reached (some before.length) (before ++ (.replace, node) :: after)

theorem putReplacement_append {before : List (EditKind × N)}
    (h : ∀ e ∈ before, e.1.isInsertion = true) (node : N) (edits : List (EditKind × N)) :
    putReplacement node (before ++ edits) = before ++ putReplacement node edits := by
  induction before with
  | nil => rfl
  | cons e before ih =>
    rw [List.forall_mem_cons] at h
    have hne : e.1 ≠ .replace := by
      intro he
      simp [he, EditKind.isInsertion] at h
    rw [List.cons_append, putReplacement, if_neg hne, ih h.2]
    rfl

/-- Without a replacement one is added at the end. -/
theorem putReplacement_of_insertions {edits : List (EditKind × N)}
    (h : ∀ e ∈ edits, e.1.isInsertion = true) (node : N) :
    putReplacement node edits = edits ++ [(.replace, node)] := by
  simpa [putReplacement] using putReplacement_append h node []

/-- A replacement is overwritten in its place. -/
theorem putReplacement_of_replaced {before : List (EditKind × N)}
    (h : ∀ e ∈ before, e.1.isInsertion = true) (node other : N) (after : List (EditKind × N)) :
    putReplacement node (before ++ (.replace, other) :: after)
      = before ++ (.replace, node) :: after := by
  rw [putReplacement_append h, putReplacement, if_pos rfl]

theorem Tally.insert {node reached : N} {slot : Option Nat} {edits : List (EditKind × N)}
    (h : Tally node reached slot edits) {e : EditKind × N} (he : e.1.isInsertion = true) :
    Tally node reached slot (edits ++ [e]) := by
  cases h with
  | kept hedits hnode =>
    refine .kept (fun d hd => ?_) hnode
    rcases List.mem_append.1 hd with hd | hd
    · exact hedits d hd
    · rw [List.mem_singleton.1 hd, he]
  | replaced hbefore hafter =>
    rw [List.append_assoc, List.cons_append]
    refine .replaced hbefore (fun d hd => ?_)
    rcases List.mem_append.1 hd with hd | hd
    · exact hafter d hd
    · rw [List.mem_singleton.1 hd, he]

/-- Insertions are all that a node without changes of its own may have
besides a replacement. -/
theorem Tally.of_no_insertion {node reached : N} {slot : Option Nat}
    {edits : List (EditKind × N)} (h : Tally node reached slot edits)
    (hnone : (edits.any fun e => e.1.isInsertion) = false) :
    slot = none ∧ edits = [] ∧ node = reached ∨ slot = some 0 ∧ edits = [(.replace, node)] := by
  rw [List.any_eq_false] at hnone
  have hnil : ∀ es : List (EditKind × N), (∀ e ∈ es, e.1.isInsertion = true) →
      (∀ e ∈ es, ¬ e.1.isInsertion = true) → es = [] := by
    intro es hins hno
    exact List.eq_nil_iff_forall_not_mem.2 fun e he => hno e he (hins e he)
  cases h with
  | kept hedits hnode => exact .inl ⟨rfl, hnil _ hedits hnone, hnode⟩
  | @replaced before after hbefore hafter =>
    have hb : before = [] := hnil _ hbefore fun e he => hnone e (List.mem_append_left _ he)
    have ha : after = [] := hnil _ hafter fun e he =>
      hnone e (List.mem_append_right _ (List.mem_cons_of_mem _ he))
    subst hb ha
    exact .inr ⟨rfl, rfl⟩

/-- No edit of a tally is a deletion. -/
theorem Tally.not_delete {node reached : N} {slot : Option Nat} {edits : List (EditKind × N)}
    (h : Tally node reached slot edits) : ∀ e ∈ edits, e.1 ≠ .delete := by
  have hins : ∀ e : EditKind × N, e.1.isInsertion = true → e.1 ≠ .delete := by
    intro e he hd
    rw [hd] at he
    exact Bool.noConfusion he
  cases h with
  | kept hedits _ => exact fun e he => hins e (hedits e he)
  | replaced hbefore hafter =>
    intro e he
    rcases List.mem_append.1 he with he | he
    · exact hins e (hbefore e he)
    rcases List.mem_cons.1 he with rfl | he
    · simp
    · exact hins e (hafter e he)

/-- A node is replaced by itself as it stands. -/
theorem Tally.replacement_eq {node reached : N} {slot : Option Nat} {edits : List (EditKind × N)}
    (h : Tally node reached slot edits) : ∀ e ∈ edits, e.1 = .replace → e.2 = node := by
  have hins : ∀ e : EditKind × N, e.1.isInsertion = true → e.1 ≠ .replace := by
    intro e he hr
    rw [hr] at he
    exact Bool.noConfusion he
  cases h with
  | kept hedits _ => exact fun e he hr => absurd hr (hins e (hedits e he))
  | replaced hbefore hafter =>
    intro e he hr
    rcases List.mem_append.1 he with he | he
    · exact absurd hr (hins e (hbefore e he))
    rcases List.mem_cons.1 he with rfl | he
    · rfl
    · exact absurd hr (hins e (hafter e he))

/-- The edits of a task as zippers on the path `crumbs`. -/
def zippers (crumbs : List (Breadcrumb N)) (t : Task N D) : List (Zipper N) :=
  t.edits.map fun e => ⟨e.2, crumbs, e.1⟩

/-- Siblings were inserted around the node. -/
def inserted (t : Task N D) : Bool := t.edits.any fun e => e.1.isInsertion

/-- A replacement is no insertion. -/
theorem inserted_replace (t : Task N D) (node : N) : (t.replace node).inserted = t.inserted := by
  simp only [inserted, replace]
  induction t.edits with
  | nil => rfl
  | cons e edits ih =>
    unfold putReplacement
    split
    · rfl
    · rw [List.any_cons, List.any_cons, ih]

end Task

/-! ## A bench and a task -/

/-- A frame that is yet to be visited. -/
structure Frame.Unvisited (f : Frame N D) : Prop where
  node : f.node = f.reached
  deleted : f.deleted = false
  phase : f.phase = .enter

/-- The marks of a node that was not deleted, after the edits of a task.
The walk had recorded `offset` edits before. -/
structure Marks.Tracks (m : Marks N) (offset : Nat) (crumbs : List (Breadcrumb N))
    (t : Task N D) : Prop where
  zipper : m.zipper = .ofNode t.frame.node crumbs
  changed : m.changed = t.changed
  inserted : m.inserted = t.inserted
  tally : ∃ slot, m.slot = slot.map (offset + ·)
    ∧ Task.Tally t.frame.node t.frame.reached slot t.edits

/-- A bench and a task after the same edits of a node that was reached as
`f`, with the edits `before` recorded earlier. -/
structure Bench.Mirrors (before : List (Zipper N)) (crumbs : List (Breadcrumb N))
    (f : Frame N D) (foldStart : Nat) (b : Bench N) (t : Task N D) : Prop where
  frame : t.frame = { f with node := b.node, deleted := b.deleted }
  isRoot : b.isRoot = crumbs.isEmpty
  recorded : b.recorded = before ++ t.zippers crumbs
  marks : ∃ m, b.marks = some m ∧ m.foldStart = foldStart
    ∧ (b.deleted = false → m.Tracks before.length crumbs t)
  gone : b.deleted = true → b.isRoot = false ∧ ∃ n, t.edits = [(.delete, n)]
  root : b.isRoot = true → t.inserted = false

namespace Bench

variable {before : List (Zipper N)} {crumbs : List (Breadcrumb N)} {f : Frame N D}
  {foldStart : Nat} {b : Bench N} {t : Task N D}

/-- A replacement goes where the task puts it. -/
theorem record_replacement {m : Marks N} {slot : Option Nat} (node : N)
    (hrec : b.recorded = before ++ t.zippers crumbs)
    (hslot : m.slot = slot.map (before.length + ·))
    (htally : Task.Tally t.frame.node t.frame.reached slot t.edits) :
    ∃ k, b.record m (.ofNode node crumbs)
        = .ok (before ++ (t.replace node).zippers crumbs, before.length + k)
      ∧ Task.Tally node t.frame.reached (some k) (t.replace node).edits := by
  generalize hedits : t.edits = edits at htally
  generalize t.frame.node = current at htally
  cases htally with
  | kept hins hnode =>
    have hput := Task.putReplacement_of_insertions hins node
    refine ⟨edits.length, ?_, ?_⟩
    · simp [record, hslot, hrec, Task.zippers, Task.replace, hedits, hput, Zipper.ofNode]
    · simp only [Task.replace, hedits, hput]
      exact .replaced hins (by simp)
  | @replaced l r hl hr =>
    have hput := Task.putReplacement_of_replaced hl node current r
    refine ⟨l.length, ?_, ?_⟩
    · simp [record, hslot, hrec, Task.zippers, Task.replace, hedits, hput, Zipper.ofNode,
        List.set_append_right]
    · simp only [Task.replace, hedits, hput]
      exact .replaced hl hr

/-- A new current node, from an edit or from a fold. -/
theorem Mirrors.replace (h : b.Mirrors before crumbs f foldStart t) (hd : b.deleted = false)
    (node : N) :
    ∃ b', b.replace node = .ok b' ∧ b'.Mirrors before crumbs f foldStart (t.replace node) := by
  obtain ⟨m, hm, hstart, htracks⟩ := h.marks
  obtain ⟨hzipper, hchanged, hinserted, slot, hslot, htally⟩ := htracks hd
  obtain ⟨k, hrecord, htally'⟩ := record_replacement node h.recorded hslot htally
  have hz : m.zipper.withNode node = .ofNode node crumbs := by rw [hzipper]; rfl
  refine ⟨{ b with
    node, recorded := before ++ (t.replace node).zippers crumbs
    marks := some { m with zipper := .ofNode node crumbs, slot := some (before.length + k) } },
    ?_, ?_⟩
  · simp only [Bench.replace, requireMarks, hm, hz, hrecord, bind, Except.bind, pure, Except.pure]
  exact {
    frame := by rw [Task.replace, h.frame]
    isRoot := h.isRoot
    recorded := rfl
    marks := ⟨_, rfl, hstart, fun _ =>
      ⟨rfl, hchanged, hinserted.trans (t.inserted_replace node).symm, some k, rfl, htally'⟩⟩
    gone := fun hgone => absurd hgone (by simp [hd])
    root := fun hroot => (t.inserted_replace node).trans (h.root hroot) }

/-- Changing the node. -/
theorem Mirrors.change (h : b.Mirrors before crumbs f foldStart t) (node : N) :
    Run.Agrees (Mirrors before crumbs f foldStart) (Run.ofExcept (b.change node))
      (Run.ofExcept (t.change node)) := by
  have hdeleted : t.frame.deleted = b.deleted := by rw [h.frame]
  unfold Bench.change Task.change
  cases hd : b.deleted with
  | true =>
    rw [hdeleted, hd]
    exact .misuse _
  | false =>
    obtain ⟨b', hb', h'⟩ := h.replace hd node
    obtain ⟨m, hm, hstart, htracks⟩ := h'.marks
    rw [hdeleted, hd]
    simp only [hb', Bool.false_eq_true, if_false, bind, Except.bind, pure, Except.pure, hm]
    exact {
      frame := h'.frame
      isRoot := h'.isRoot
      recorded := h'.recorded
      marks := ⟨_, rfl, hstart, fun hgone =>
        ⟨(htracks hgone).zipper, rfl, (htracks hgone).inserted, (htracks hgone).tally⟩⟩
      gone := h'.gone
      root := h'.root }

/-- The deletion takes the place of a replacement that a fold has left. -/
theorem record_delete {m : Marks N} {slot : Option Nat}
    (hrec : b.recorded = before ++ t.zippers crumbs)
    (hslot : m.slot = slot.map (before.length + ·))
    (htally : Task.Tally t.frame.node t.frame.reached slot t.edits)
    (hins : t.inserted = false) (z : Zipper N) :
    ∃ k, b.record m z = .ok (before ++ [z], k) := by
  rcases htally.of_no_insertion hins with ⟨rfl, hedits, -⟩ | ⟨rfl, hedits⟩
  · exact ⟨b.recorded.length, by simp [record, hslot, hrec, Task.zippers, hedits]⟩
  · exact ⟨before.length, by
      simp [record, hslot, hrec, Task.zippers, hedits, List.set_append_right]⟩

/-- Deleting the node. -/
theorem Mirrors.delete (h : b.Mirrors before crumbs f foldStart t) :
    Run.Agrees (Mirrors before crumbs f foldStart) (Run.ofExcept b.delete)
      (Run.ofExcept (t.delete b.isRoot)) := by
  have hdeleted : t.frame.deleted = b.deleted := by rw [h.frame]
  obtain ⟨m, hm, hstart, htracks⟩ := h.marks
  unfold Bench.delete Task.delete
  rw [hdeleted]
  by_cases hroot : b.isRoot = true
  · rw [if_pos hroot, if_pos hroot]
    exact .misuse _
  rw [if_neg hroot, if_neg hroot]
  by_cases hd : b.deleted = true
  · rw [if_pos hd, if_pos hd]
    exact .misuse _
  rw [if_neg hd, if_neg hd]
  have hd' : b.deleted = false := Bool.eq_false_iff.2 hd
  obtain ⟨hzipper, hchanged, hinserted, slot, hslot, htally⟩ := htracks hd'
  have hedited : b.marks.any Marks.edited = (t.changed || t.inserted) := by
    rw [hm, Option.any_some, Marks.edited, hchanged, hinserted]
  rw [hedited]
  by_cases he : (t.changed || t.inserted) = true
  · rw [if_pos he, if_pos (show (t.changed || t.edits.any fun e => e.1.isInsertion) = true from he)]
    exact .misuse _
  rw [if_neg he, if_neg (show ¬ (t.changed || t.edits.any fun e => e.1.isInsertion) = true from he)]
  have hins : t.inserted = false := by
    rw [Bool.or_eq_true, not_or] at he
    exact Bool.eq_false_iff.2 he.2
  obtain ⟨k, hrecord⟩ := record_delete h.recorded hslot htally hins m.zipper.delete
  simp only [requireMarks, hm, hrecord, bind, Except.bind, pure, Except.pure, Run.ofExcept]
  exact {
    frame := by rw [h.frame]
    isRoot := h.isRoot
    recorded := by rw [hzipper]; rfl
    marks := ⟨m, rfl, hstart, fun hgone => Bool.noConfusion hgone⟩
    gone := fun _ => ⟨Bool.eq_false_iff.2 hroot, t.frame.node, rfl⟩
    root := fun hroot' => absurd hroot' hroot }

/-- Inserting a sibling. -/
theorem Mirrors.insert (h : b.Mirrors before crumbs f foldStart t) {kind : EditKind}
    (hkind : kind.isInsertion = true) (node : N) (zipper : Zipper N → Zipper N)
    (hzip : ∀ n, zipper (.ofNode n crumbs) = ⟨node, crumbs, kind⟩) :
    Run.Agrees (Mirrors before crumbs f foldStart) (Run.ofExcept (b.insert zipper))
      (Run.ofExcept (t.insert b.isRoot kind node)) := by
  have hdeleted : t.frame.deleted = b.deleted := by rw [h.frame]
  obtain ⟨m, hm, hstart, htracks⟩ := h.marks
  unfold Bench.insert Task.insert
  rw [hdeleted]
  by_cases hroot : b.isRoot = true
  · rw [if_pos hroot, if_pos hroot]
    exact .misuse _
  rw [if_neg hroot, if_neg hroot]
  by_cases hd : b.deleted = true
  · rw [if_pos hd, if_pos hd]
    exact .misuse _
  rw [if_neg hd, if_neg hd]
  obtain ⟨hzipper, hchanged, hinserted, slot, hslot, htally⟩ := htracks (Bool.eq_false_iff.2 hd)
  simp only [requireMarks, hm, bind, Except.bind, pure, Except.pure, Run.ofExcept]
  exact {
    frame := h.frame
    isRoot := h.isRoot
    recorded := by
      rw [hzipper, hzip, h.recorded, List.append_assoc]
      simp [Task.zippers]
    marks := ⟨_, rfl, hstart, fun _ =>
      ⟨hzipper, hchanged, by simp [Task.inserted, hkind], slot, hslot, htally.insert hkind⟩⟩
    gone := fun hgone => absurd hgone hd
    root := fun hroot' => absurd hroot' hroot }

/-- One edit. -/
theorem Mirrors.edit (h : b.Mirrors before crumbs f foldStart t) (e : Edit N) :
    Run.Agrees (Mirrors before crumbs f foldStart) (Run.ofExcept (b.edit e))
      (Run.ofExcept (t.edit b.isRoot e)) := by
  cases e with
  | change node => exact h.change node
  | delete => exact h.delete
  | insertBefore node => exact h.insert rfl node (·.insertBefore node) fun _ => rfl
  | insertAfter node => exact h.insert rfl node (·.insertAfter node) fun _ => rfl

/-- The edits of one callback. -/
theorem Mirrors.editAll (h : b.Mirrors before crumbs f foldStart t) (es : List (Edit N)) :
    Run.Agrees (Mirrors before crumbs f foldStart) (Run.ofExcept (b.actAll (es.map .edit)))
      (Run.ofExcept (t.editAll crumbs.isEmpty es)) := by
  induction es generalizing b t with
  | nil => exact h
  | cons e es ih =>
    rw [List.map_cons, actAll, Task.editAll, Run.ofExcept_bind, Run.ofExcept_bind]
    exact (h.isRoot ▸ h.edit e).bind fun _ _ h' => ih h'

/-! ## Around the edits -/

/-- Bench and task stay alike when the rest of the frame changes. -/
theorem Mirrors.reframe (h : b.Mirrors before crumbs f foldStart t) {g : Frame N D}
    (hreached : g.reached = f.reached) :
    b.Mirrors before crumbs g foldStart
      { t with frame := { g with node := b.node, deleted := b.deleted } } where
  frame := rfl
  isRoot := h.isRoot
  recorded := h.recorded
  marks := by
    obtain ⟨m, hm, hstart, htracks⟩ := h.marks
    refine ⟨m, hm, hstart, fun hd => ?_⟩
    obtain ⟨hzipper, hchanged, hinserted, htally⟩ := htracks hd
    rw [h.frame] at hzipper htally
    exact ⟨hzipper, hchanged, hinserted, by rw [hreached]; exact htally⟩
  gone := h.gone
  root := h.root

theorem Mirrors.withData (h : b.Mirrors before crumbs f foldStart t) (d : D) :
    b.Mirrors before crumbs { f with data := d } foldStart
      { t with frame := { t.frame with data := d } } := by
  rw [h.frame]
  exact h.reframe rfl

theorem Mirrors.inPhase (h : b.Mirrors before crumbs f foldStart t) (phase : Phase) :
    b.Mirrors before crumbs { f with phase } foldStart (ForkJoin.inPhase phase t) := by
  rw [ForkJoin.inPhase, h.frame]
  exact h.reframe rfl

/-- From now on edits are recorded below the node. -/
theorem Mirrors.mark (h : b.Mirrors before crumbs f foldStart t) (start : Nat) :
    ({ b with marks := b.marks.map fun m => { m with foldStart := start } } : Bench N).Mirrors
      before crumbs f start t where
  frame := h.frame
  isRoot := h.isRoot
  recorded := h.recorded
  marks := by
    obtain ⟨m, hm, -, htracks⟩ := h.marks
    refine ⟨{ m with foldStart := start }, by rw [hm, Option.map_some], rfl, fun hd => ?_⟩
    obtain ⟨hzipper, hchanged, hinserted, htally⟩ := htracks hd
    exact ⟨hzipper, hchanged, hinserted, htally⟩
  gone := h.gone
  root := h.root

/-- The frame of the task itself can be taken for the frame that was reached. -/
theorem Mirrors.at_frame (h : b.Mirrors before crumbs f foldStart t) :
    b.Mirrors before crumbs t.frame foldStart t :=
  { h with frame := by rw [h.frame] }

/-- A node that is about to be entered. -/
theorem Mirrors.start {f : Frame N D} (hf : f.Unvisited) (before : List (Zipper N))
    (crumbs : List (Breadcrumb N)) :
    (⟨f.node, f.deleted, crumbs.isEmpty, some (.start f.node crumbs), before⟩ : Bench N).Mirrors
      before crumbs f 0 (Task.ofFrame f) where
  frame := rfl
  isRoot := rfl
  recorded := by simp [Task.zippers, Task.ofFrame]
  marks := ⟨_, rfl, rfl, fun _ => ⟨rfl, rfl, rfl, none, rfl, .kept (by simp [Task.ofFrame])
    hf.node⟩⟩
  gone := fun hgone => absurd hgone (by simp [hf.deleted])
  root := fun _ => rfl

/-! ## What is left of the edits -/

/-- A deletion is the only edit of its task. -/
theorem Mirrors.apart (h : b.Mirrors before crumbs f foldStart t) :
    t.edits.Pairwise fun a b => a.1 ≠ .delete ∧ b.1 ≠ .delete := by
  cases hd : b.deleted with
  | true =>
    obtain ⟨-, n, hn⟩ := h.gone hd
    rw [hn]
    exact List.pairwise_singleton _ _
  | false =>
    obtain ⟨m, -, -, htracks⟩ := h.marks
    obtain ⟨-, -, -, slot, -, htally⟩ := htracks hd
    exact List.pairwise_of_forall_mem_list fun x hx y hy =>
      ⟨htally.not_delete x hx, htally.not_delete y hy⟩

/-- At the root nothing is recorded but a replacement. -/
theorem Mirrors.root_edits (h : b.Mirrors before crumbs f foldStart t) (hroot : crumbs = []) :
    t.edits = [] ∧ t.frame.node = f.reached ∨ t.edits = [(.replace, t.frame.node)] := by
  have hisRoot : b.isRoot = true := by rw [h.isRoot, hroot]; rfl
  have hd : b.deleted = false := by
    cases hb : b.deleted with
    | true => exact absurd hisRoot (by simp [(h.gone hb).1])
    | false => rfl
  obtain ⟨m, -, -, htracks⟩ := h.marks
  obtain ⟨-, -, -, slot, -, htally⟩ := htracks hd
  rcases htally.of_no_insertion (h.root hisRoot) with ⟨-, hnil, hnode⟩ | ⟨-, hone⟩
  · exact .inl ⟨hnil, hnode.trans (by rw [h.frame])⟩
  · exact .inr hone

end Bench

end Topiary
