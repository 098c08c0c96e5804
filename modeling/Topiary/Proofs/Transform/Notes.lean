/-
Topiary.Proofs.Transform.Notes — the callbacks of a transform, written down.

A note says what a callback was shown and which edits it made.  The notes of
one place tell what stands there in the end: what was inserted before the node,
the node as its last callback left it, unless it was deleted, and what was
inserted after it.  This is what a task that went through these callbacks puts
in its place in the parent.

* `Note`, `callsAt`, `standing` — notes, those of one place, and what they come to.
* `Task.Stands` — what a task has before and after it.
* `Task.Stands.slot_eq` — what its parent puts in its place.
* `Note.Makes` — a callback that leads from one state of a task to the next.
* `Editor.journaled` — the editor that takes notes, and otherwise does the same.
-/
import Topiary.Proofs.Transform.Plan

namespace Topiary

variable {N D S : Type}

/-! ## Notes -/

/-- A callback as it was made. -/
structure Note (N D : Type) where
  /-- What it was shown. -/
  sight : Sight N D
  /-- The edits that it made, in order. -/
  edits : List (Edit N)
deriving DecidableEq, Repr

namespace Note

/-- The place of the callback, nearest step first. -/
def path (n : Note N D) : List Location := n.sight.path

/-- The nodes that its edits of one kind bring in, in order. -/
def supplied (n : Note N D) (kind : EditKind) : List N :=
  Trail.nodesOf (n.edits.filterMap Edit.toKind) kind

/-- The node and the mark of deletion when the callback is over. -/
def outcome (n : Note N D) : N × Bool :=
  n.edits.foldl (fun s e => e.outcome s.1 s.2) (n.sight.frame.node, n.sight.frame.deleted)

end Note

/-- The callbacks at one place. -/
def callsAt (notes : List (Note N D)) (path : List Location) : List (Note N D) :=
  notes.filter fun n => n.path = path

/-- The node as the last of its callbacks left it, unless it was deleted. -/
def remaining (calls : List (Note N D)) : List N :=
  match calls.getLast? with
  | none => []
  | some n => if n.outcome.2 then [] else [n.outcome.1]

/-- What stands in a place after its callbacks. -/
def standing (calls : List (Note N D)) : List N :=
  calls.flatMap (·.supplied .insertBefore) ++ remaining calls
    ++ calls.flatMap (·.supplied .insertAfter)

/-! ## What a task puts in its place -/

namespace Task

open Trail

/-- What stands before and after the node of a task because of its edits: if the node was
deleted, nothing. -/
inductive Stands (t : Task N D) : List N → List N → Prop
  | gone {node : N} (deleted : t.frame.deleted = true) (edits : t.edits = [(.delete, node)]) :
      Stands t [] []
  | there {before after : List N} {new : Option N} (holds : t.Holds before after new)
      (node : t.frame.node = new.getD t.frame.reached) : Stands t before after

variable {t t' : Task N D} {before after : List N} {isRoot : Bool} {e : Edit N}
  {edits : List (Edit N)}

theorem stands_ofFrame {f : Frame N D} (hdeleted : f.deleted = false) (hnode : f.node = f.reached) :
    (ofFrame f).Stands [] [] :=
  .there (holds_ofFrame hdeleted) hnode

/-- Only the edits, the node and the mark of deletion count. -/
theorem Stands.congr (h : t.Stands before after) (hdeleted : t'.frame.deleted = t.frame.deleted)
    (hnode : t'.frame.node = t.frame.node) (hreached : t'.frame.reached = t.frame.reached)
    (hedits : t'.edits = t.edits) : t'.Stands before after := by
  cases h with
  | gone deleted edits => exact .gone (hdeleted.trans deleted) (hedits.trans edits)
  | there holds node =>
    exact .there (holds.congr hdeleted hedits) (by rw [hnode, hreached, node])

/-- A merge puts another node in the place of the old one. -/
theorem Stands.merge (h : t.Stands before after) (A : Adapter N) (site : Site)
    {handed : List (ChildEdit N)} (hdel : t.frame.deleted = true → handed = []) :
    (t.merge A site handed).Stands before after := by
  by_cases hne : handed = []
  · rw [hne, merge_nil]
    exact h
  · rw [merge_of_ne_nil A site t hne]
    cases h with
    | gone deleted _ => exact absurd (hdel deleted) hne
    | there holds _ => exact .there (holds.replace _) rfl

/-- A sibling more. -/
theorem Holds.inserted {new : Option N} (h : t.Holds before after new) {e : Edit N}
    {kind : EditKind} {node : N} (he : e.toKind = some (kind, node))
    (hkind : kind.isInsertion = true) :
    ({ t with edits := t.edits ++ [(kind, node)] } : Task N D).Holds
      (before ++ nodesOf ([e].filterMap Edit.toKind) .insertBefore)
      (after ++ nodesOf ([e].filterMap Edit.toKind) .insertAfter) new := by
  obtain ⟨t₁, h₁, hgrown⟩ := h.insert hkind node
  have ht₁ : t.insert false kind node = .ok { t with edits := t.edits ++ [(kind, node)] } := by
    simp [Task.insert, h.stays]
  obtain rfl := Except.ok.inj (ht₁.symm.trans h₁)
  have hnew : nodesOf [(kind, node)] .replace = [] := by
    cases kind <;> simp_all [EditKind.isInsertion, nodesOf]
  have hholds := hgrown.holds
  rw [hnew] at hholds
  rw [List.filterMap_cons_some he]
  exact hholds

/-- One edit. -/
theorem Stands.takes (h : t.Stands before after) (he : t.Takes isRoot e t') :
    t'.Stands (before ++ nodesOf ([e].filterMap Edit.toKind) .insertBefore)
      (after ++ nodesOf ([e].filterMap Edit.toKind) .insertAfter) := by
  cases h with
  | gone deleted _ => exact absurd deleted (by simp [he.there])
  | @there _ _ new holds node =>
    cases he with
    | @change other _ =>
      have hkept : ({ t.replace other with changed := true } : Task N D).Holds before after
          (some other) := (holds.replace other).congr rfl rfl
      rw [show nodesOf ([Edit.change other].filterMap Edit.toKind) .insertBefore = [] from rfl,
        show nodesOf ([Edit.change other].filterMap Edit.toKind) .insertAfter = [] from rfl,
        List.append_nil, List.append_nil]
      exact .there hkept rfl
    | delete _ _ untouched =>
      have hnone : ∀ kind : EditKind, kind.isInsertion = true → nodesOf t.edits kind = [] := by
        rw [Bool.or_eq_false_iff, List.any_eq_false] at untouched
        intro kind hkind
        exact (nodesOf_eq_nil_iff _ _).2 fun e he hek => untouched.2 e he (hek ▸ hkind)
      have hbefore : before = [] := (holds.kinds .insertBefore).symm.trans (hnone _ rfl)
      have hafter : after = [] := (holds.kinds .insertAfter).symm.trans (hnone _ rfl)
      subst hbefore hafter
      exact .gone rfl rfl
    | @insertBefore other inner _ =>
      exact .there (holds.inserted rfl rfl) node
    | @insertAfter other inner _ =>
      exact .there (holds.inserted rfl rfl) node

/-- The edits of one callback. -/
theorem Stands.editAll (h : t.Stands before after) (hedits : t.editAll isRoot edits = .ok t') :
    t'.Stands (before ++ nodesOf (edits.filterMap Edit.toKind) .insertBefore)
      (after ++ nodesOf (edits.filterMap Edit.toKind) .insertAfter) := by
  induction edits generalizing t before after with
  | nil =>
    obtain rfl := Except.ok.inj hedits
    simpa [nodesOf] using h
  | cons e edits ih =>
    obtain ⟨t₁, htakes, hedits⟩ := exists_takes_of_editAll_cons hedits
    have hsplit : ∀ kind, nodesOf ((e :: edits).filterMap Edit.toKind) kind
        = nodesOf ([e].filterMap Edit.toKind) kind ++ nodesOf (edits.filterMap Edit.toKind) kind := by
      intro kind
      rw [← nodesOf_append, ← List.filterMap_append]
      rfl
    rw [hsplit, hsplit, ← List.append_assoc, ← List.append_assoc]
    exact ih (h.takes htakes) hedits

/-- In the place of a child its parent puts what stands before it, the child as its task has
it, unless it was deleted, and what stands after it. -/
theorem Stands.slot_eq (h : t.Stands before after) {handed : List (ChildEdit N)} {l : Location}
    (hhanded : ∀ kind, ChildEdit.nodesAt handed l kind = nodesOf t.edits kind) :
    ChildEdit.slot handed l t.frame.reached
      = before ++ (if t.frame.deleted then [] else [t.frame.node]) ++ after := by
  simp only [ChildEdit.slot, ChildEdit.center, hhanded]
  cases h with
  | gone deleted edits => simp [deleted, edits, nodesOf]
  | @there _ _ new holds node =>
    simp only [holds.kinds, holds.stays, node]
    cases new <;> simp [Trail.kinds]

end Task

/-! ## Callbacks that edit tasks -/

/-- The callback is shown the task `t` below the frames `above`, and makes it `t'`. -/
structure Note.Makes (n : Note N D) (above : List (Frame N D)) (rootData : D) (t t' : Task N D) :
    Prop where
  sight : n.sight = ⟨t.frame, above, rootData⟩
  edits : ∃ t₁ data, t.editAll above.isEmpty n.edits = .ok t₁
    ∧ t' = { t₁ with frame := { t₁.frame with data } }

namespace Note.Makes

variable {n : Note N D} {above : List (Frame N D)} {rootData : D} {t t' : Task N D}
  {before after : List N}

/-- In the frame only the node, the mark of deletion and the data change. -/
theorem frame (h : n.Makes above rootData t t') :
    ∃ data, t'.frame
      = { t.frame with node := t'.frame.node, deleted := t'.frame.deleted, data } := by
  obtain ⟨t₁, data, hedits, rfl⟩ := h.edits
  exact ⟨data, by rw [Task.frame_of_editAll hedits]⟩

theorem location (h : n.Makes above rootData t t') : t'.frame.location = t.frame.location := by
  obtain ⟨data, hframe⟩ := h.frame
  rw [hframe]

theorem reached (h : n.Makes above rootData t t') : t'.frame.reached = t.frame.reached := by
  obtain ⟨data, hframe⟩ := h.frame
  rw [hframe]

theorem outcome (h : n.Makes above rootData t t') :
    n.outcome = (t'.frame.node, t'.frame.deleted) := by
  obtain ⟨t₁, data, hedits, rfl⟩ := h.edits
  rw [Note.outcome, h.sight, Task.outcome_editAll hedits]

theorem edits_eq_nil_iff (h : n.Makes above rootData t t') :
    t'.edits = [] ↔ t.edits = [] ∧ n.edits = [] := by
  obtain ⟨t₁, data, hedits, rfl⟩ := h.edits
  exact (Task.editAll_eq_nil_iff hedits : t₁.edits = [] ↔ _)

theorem stands (h : n.Makes above rootData t t') (ht : t.Stands before after) :
    t'.Stands (before ++ n.supplied .insertBefore) (after ++ n.supplied .insertAfter) := by
  obtain ⟨t₁, data, hedits, rfl⟩ := h.edits
  exact (ht.editAll hedits).congr rfl rfl rfl rfl

end Note.Makes

/-! ## Taking notes -/

namespace Editor

/-- The editor that takes notes. -/
def journaled (v : Editor N D S) : Editor N D (List (Note N D) × S) where
  call := fun c s => (v.call c s.2).map fun r =>
    ⟨r.control, r.edits, r.data, (s.1 ++ [⟨c.sight, r.edits⟩], r.state)⟩
  backRef_edits := by
    intro c s r hphase h
    cases hcall : v.call c s.2 with
    | error m => simp [hcall, Except.map] at h
    | ok a =>
      rw [hcall] at h
      obtain rfl := Except.ok.inj h
      exact v.backRef_edits c s.2 a hphase hcall

end Editor

/-- A transform of whose visitor less of the state is seen. -/
def Edited.mapState {R : Type} (g : R → S) (s : Edited N R) : Edited N S :=
  ⟨g s.state, s.recorded, s.ledger⟩

/-- The edited tree, and less of the visitor's state. -/
def Transformed.mapState {R : Type} (g : R → S) (r : Transformed N R) : Transformed N S :=
  ⟨r.tree, g r.state, r.ledger⟩

namespace Editor

variable [Identified N] (v : Editor N D S) (A : Adapter N) (run : Nat) (fresh rootData : D)

omit [Identified N] in
theorem onBench_journaled (c : Context N (Marked N D)) (b : Bench N)
    (s : List (Note N D) × S) :
    v.visitor.onBench c b s.2 = (v.journaled.visitor.onBench c b s).map fun r =>
      (⟨r.1.control, r.1.acts, r.1.data, r.1.state.2⟩, r.2) := by
  simp only [EditVisitor.onBench, visitor, journaled]
  cases v.call ((c.mapData Marked.data).withNode b.node) s.2 with
  | error m => rfl
  | ok r =>
    simp only [Except.map, Except.mapError, bind, Except.bind, pure, Except.pure]
    cases b.actAll (r.edits.map .edit) <;> rfl

/-- Taking notes changes nothing in a walk. -/
theorem journaled_extends :
    (v.journaled.transform A run fresh rootData).traversal.Extends
      (v.transform A run fresh rootData).traversal (Edited.mapState Prod.snd) where
  children := rfl
  order := rfl
  fresh := rfl
  rootData := rfl
  visitor := fun c s => by
    show v.visitor.recording A run c _ = (v.journaled.visitor.recording A run c s).map _
    unfold EditVisitor.recording
    cases c.sight.frame.phase with
    | enter =>
      simp only [Edited.mapState, v.onBench_journaled]
      cases v.journaled.visitor.onBench c _ s.state <;> rfl
    | leave =>
      simp only [Edited.mapState]
      cases Bench.foldBelow A ((Site.ofRun run).below c.sight.path) c.sight.frame.depth
          (EditVisitor.bench c c.sight.frame.data.marks s.recorded) with
      | error f => rfl
      | ok r =>
        simp only [v.onBench_journaled, bind, Except.bind]
        cases v.journaled.visitor.onBench c r.1 s.state <;> rfl
    | backRef =>
      simp only [Edited.mapState, v.onBench_journaled]
      cases v.journaled.visitor.onBench c _ s.state <;> rfl

/-- Taking notes changes nothing in a transform. -/
theorem apply_journaled (limit : Nat) (root : N) (state : S) :
    (v.transform A run fresh rootData).apply limit root state
      = Transformed.mapState Prod.snd <$>
          (v.journaled.transform A run fresh rootData).apply limit root ([], state) := by
  have hwalk := (v.journaled_extends A run fresh rootData).walk limit [root] ⟨([], state), [], []⟩
  rw [show Edited.mapState Prod.snd (⟨([], state), [], []⟩ : Edited N (List (Note N D) × S))
    = ⟨state, [], []⟩ from rfl] at hwalk
  unfold Transform.apply
  rw [hwalk]
  cases (v.journaled.transform A run fresh rootData).traversal.walk limit [root]
      ⟨([], state), [], []⟩ with
  | failed f => rfl
  | unfinished => rfl
  | done w =>
    simp only [Run.map_done, Run.done_bind]
    show (Run.ofExcept (MultiZipper.toRoot A (.ofRun run) ⟨root, w.state.recorded⟩) >>= _)
      = _ <$> (Run.ofExcept (MultiZipper.toRoot A (.ofRun run) ⟨root, w.state.recorded⟩) >>= _)
    cases MultiZipper.toRoot A (.ofRun run) ⟨root, w.state.recorded⟩ <;> rfl

end Editor

end Topiary
