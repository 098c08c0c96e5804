/-
Topiary.Proofs.Transform.Agreement — both transforms make the same tree.

The sequential transform records all edits in one list and folds what is
below a node when the node is left; the fork-join transform keeps edits with
their nodes and merges what the children hand over once all of them are
done.  For a visitor that looks at its own context only this makes no
difference.  Such a visitor is an editor without a state, and its recursion
visits the same tasks as the fork-join walk: both walks end with the same
tree, with the same misuse, or not at all.

* `LocalVisitor.editor` — the visitor as an editor.
* `LocalVisitor.agrees_ask` — a callback and its edits.
* `LocalVisitor.agrees_visit` — a node with everything below it.
* `transforms_agree` — whole transforms.
-/
import Topiary.Proofs.Transform.Safety
import Topiary.Tree

namespace Topiary

variable {N D : Type}

/-! ## A visitor without a state -/

/-- The context shows what is seen below the tasks `above`. -/
structure Context.Presents (c : Context N D) (rootData : D) (above : List (Task N D)) : Prop where
  above : c.sight.above = above.map Task.frame
  rootData : c.sight.rootData = rootData

namespace Context.Presents

variable {c : Context N D} {rootData : D} {above : List (Task N D)}

theorem sight_eq (h : c.Presents rootData above) (f : Frame N D) :
    (c.withFrame f).sight = ⟨f, above.map Task.frame, rootData⟩ := by
  rw [← h.above, ← h.rootData]
  rfl

theorem isRoot_eq (h : c.Presents rootData above) : c.sight.isRoot = above.isEmpty := by
  rw [Sight.isRoot, h.above, List.isEmpty_map]

/-- The context of a child. -/
theorem child (h : c.Presents rootData above) (t : Task N D) (id : Nat) (l : Location) (node : N)
    (fresh : D) : ((c.withFrame t.frame).child id l node fresh).Presents rootData (t :: above) where
  above := by
    show t.frame :: c.sight.above = _
    rw [h.above, List.map_cons]
  rootData := h.rootData

end Context.Presents

namespace LocalVisitor

/-- The visitor as an editor. -/
def editor (v : LocalVisitor N D) : Editor N D Unit where
  call := fun c _ => (v.call c.sight).map fun a => ⟨a.control, a.edits, a.data, ()⟩
  backRef_edits := by
    intro c s r hphase h
    cases hcall : v.call c.sight with
    | error m => simp [hcall, Except.map] at h
    | ok a =>
      rw [hcall] at h
      obtain rfl := Except.ok.inj h
      exact v.backRef_edits _ _ hphase hcall

variable (v : LocalVisitor N D) (A : Adapter N) (run : Nat) (fresh rootData : D)
  {c : Context N D} {above : List (Task N D)} {x : Pace Unit}

theorem transform_editor :
    v.editor.transform A run fresh rootData = v.transform A run fresh rootData := by
  have hvisitor : v.editor.visitor = v.inSequence := by
    funext c s
    simp only [Editor.visitor, editor, inSequence, answer]
    cases v.call c.sight <;> rfl
  rw [Editor.transform, hvisitor, transform]

theorem inParallel_neverQuits : v.inParallel.NeverQuits := by
  intro c a h
  cases hcall : v.call c.sight with
  | error m => simp [inParallel, answer, hcall, Except.mapError] at h
  | ok b =>
    simp only [inParallel, answer, hcall, Except.mapError, Except.ok.injEq] at h
    exact h ▸ v.never_quits _ _ hcall

/-- A callback does the same to a task in both recursions. -/
theorem agrees_ask (h : c.Presents rootData above) (t : Task N D) (hx : x.quit = false) :
    Run.Agrees (fun r s => r = (s.1, s.2, x) ∧ s.1 ≠ .quit)
      (Run.ofExcept (v.editor.ask c t x))
      (Run.ofExcept ((v.forkJoin A run fresh rootData).call above t)) := by
  simp only [Editor.ask, editor, h.sight_eq, h.isRoot_eq, ForkJoin.call, forkJoin,
    ForkJoin.transforming, inParallel, TaskContext.sight, answer]
  cases hcall : v.call ⟨t.frame, above.map Task.frame, rootData⟩ with
  | error m => exact .misuse m
  | ok a =>
    have hquit := v.never_quits _ _ hcall
    simp only [Except.map, Except.mapError, bind, Except.bind, pure, Except.pure, if_neg hquit]
    have hkeeps := t.keeps_editAll above.isEmpty a.edits
    cases hedit : t.editAll above.isEmpty a.edits with
    | error f =>
      rw [hedit] at hkeeps
      obtain ⟨m, rfl, -⟩ := hkeeps
      exact .misuse m
    | ok t' =>
      refine ⟨?_, hquit⟩
      obtain ⟨⟨⟩, made, quit⟩ := x
      obtain rfl : quit = false := hx
      simp [hquit]

/-! ## The children of a node -/

/-- Both recursions leave the same task behind, and go on. -/
def SameTask (r : Task N D × Pace Unit) (w : Visit N D) : Prop := r.1 = w.task ∧ r.2.quit = false

/-- Children one after the other. -/
theorem agrees_kids {visit : Context N D → Pace Unit → Run (Task N D × Pace Unit)}
    {visitTask : Task N D → Run (Visit N D)} {parent : Context N D} (fresh : D)
    (hvisit : ∀ id l node x, x.quit = false →
      Run.Agrees SameTask (visit (parent.child id l node fresh) x)
        (visitTask (.ofFrame (parent.sight.frame.child l node fresh))))
    (kids : List (Location × N)) (made : Nat) {x : Pace Unit} (hx : x.quit = false) :
    Run.Agrees (fun rs ws => rs.1 = ws.map Visit.task ∧ rs.2.quit = false)
      (Pace.throughEach visit (parent.below made (parent.sight.frame.childFrames fresh kids)) x)
      (((parent.sight.frame.childFrames fresh kids).map Task.ofFrame).mapM visitTask) := by
  induction kids generalizing made x with
  | nil => exact ⟨rfl, hx⟩
  | cons k kids ih =>
    obtain ⟨l, node⟩ := k
    show Run.Agrees _ _ ((Task.ofFrame (parent.sight.frame.child l node fresh)
      :: (parent.sight.frame.childFrames fresh kids).map Task.ofFrame).mapM visitTask)
    rw [Context.below_cons, Pace.throughEach, List.mapM_cons]
    refine (hvisit made l node x hx).bind fun r w hr => ?_
    rw [if_neg (by simp [hr.2])]
    refine (ih (made + 1) hr.2).bind fun rs ws hrs => ?_
    exact ⟨by rw [List.map_cons, ← hr.1, ← hrs.1], hrs.2⟩

/-- A merge makes its copy at the same site. -/
theorem site_eq (h : c.Presents rootData above) {t : Task N D}
    (hlocation : t.frame.location = c.sight.frame.location) :
    (v.forkJoin A run fresh rootData).site above t = (Site.ofRun run).below c.sight.path := by
  show (Site.ofRun run).below (Sight.path ⟨t.frame, above.map Task.frame, rootData⟩) = _
  rw [← h.sight_eq, Sight.path, c.crumbs_withFrame hlocation]
  rfl

/-! ## Whole subtrees -/

variable [Identified N]

/-- The children of a task that was entered, the merge, and `leave`. -/
theorem agrees_descend (h : c.Presents rootData above) {levels : Nat} {t : Task N D}
    (hvisit : ∀ id l node x, x.quit = false →
      Run.Agrees SameTask
        (v.editor.visit A run fresh levels ((c.withFrame t.frame).child id l node fresh) x)
        ((v.forkJoin A run fresh rootData).visit levels (t :: above)
          (.ofFrame (t.frame.child l node fresh))))
    (hlocation : t.frame.location = c.sight.frame.location) (hx : x.quit = false)
    {finish : List (Visit N D) → Task N D × List (Rebuild N) → Control × Task N D → Visit N D}
    (hfinish : ∀ ws r s, (finish ws r s).task = s.2) :
    Run.Agrees SameTask (v.editor.descend A run fresh (v.editor.visit A run fresh levels) c t x)
      (((v.forkJoin A run fresh rootData).kids t).mapM
          ((v.forkJoin A run fresh rootData).visit levels (t :: above)) >>= fun ws =>
        Run.ofExcept ((v.forkJoin A run fresh rootData).complete above t
          (ws.flatMap fun w => w.task.toChildEdits)) >>= fun r =>
        Run.ofExcept ((v.forkJoin A run fresh rootData).call above
          (ForkJoin.inPhase .leave r.1)) >>= fun s => pure (finish ws r s)) := by
  let below := (c.withFrame t.frame).below x.made (t.frame.childFrames fresh (Editor.kidsOf A t))
  have hkids := agrees_kids fresh hvisit (Editor.kidsOf A t) x.made
    (x := { x with made := x.made + below.length }) hx
  -- Only the fork-join walk can fail in merging, so it must be known here that
  -- what the children hand over goes together.
  have hsound := Run.Keeps.mapM fun k hk => ForkJoin.keeps_visit A v.inParallel run fresh rootData
    v.inParallel_neverQuits levels (t :: above)
    (ForkJoin.coherent_kids (v.forkJoin A run fresh rootData) t k hk)
  have hkidsEq : (v.forkJoin A run fresh rootData).kids t
      = (t.frame.childFrames fresh (Editor.kidsOf A t)).map Task.ofFrame :=
    ForkJoin.kids_transforming A v.inParallel run fresh rootData t
  rw [Editor.descend, Editor.kidFrames_eq, hkidsEq]
  refine (hkids.keep (hkidsEq ▸ hsound)).bind fun rs ws hrs => ?_
  obtain ⟨⟨htasks, hgo⟩, hws⟩ := hrs
  obtain ⟨-, hmerge⟩ := ForkJoin.complete_eq A v.inParallel run fresh rootData above
    (hkidsEq.symm ▸ hws)
  have hedits : rs.1.flatMap Task.toChildEdits = ws.flatMap fun w => w.task.toChildEdits := by
    rw [htasks, List.flatMap_map]
  rw [if_neg (by simp [hgo]), hedits, ← v.site_eq A run fresh rootData h hlocation]
  rw [show (v.forkJoin A run fresh rootData).complete above t _ = _ from hmerge, Run.ofExcept_ok,
    Run.done_bind]
  refine (v.agrees_ask A run fresh rootData h _ hgo).bind fun r s hr => ?_
  rw [hr.1]
  exact ⟨(hfinish ws _ s).symm, hgo⟩

/-- A task with everything below it, by induction on the number of levels. -/
theorem agrees_visit (levels : Nat) {c : Context N D} {above : List (Task N D)} {x : Pace Unit}
    (h : c.Presents rootData above) (hf : c.sight.frame.Unvisited) (hx : x.quit = false) :
    Run.Agrees SameTask (v.editor.visit A run fresh levels c x)
      ((v.forkJoin A run fresh rootData).visit levels above (.ofFrame c.sight.frame)) := by
  induction levels generalizing c above x with
  | zero => trivial
  | succ levels ih =>
    have hsight : c.sight = ⟨c.sight.frame, above.map Task.frame, rootData⟩ := h.sight_eq _
    have henter : ForkJoin.inPhase .enter (Task.ofFrame c.sight.frame)
        = Task.ofFrame c.sight.frame := by
      rw [ForkJoin.inPhase, Task.ofFrame, ← hf.phase]
    rw [Editor.visit, ForkJoin.visit, hsight]
    simp only [henter, show (Task.ofFrame c.sight.frame).frame = c.sight.frame from rfl,
      show (v.forkJoin A run fresh rootData).rootData = rootData from rfl]
    by_cases hrep : Sight.repeatsAbove ⟨c.sight.frame, above.map Task.frame, rootData⟩ = true
    · rw [if_pos hrep, if_pos hrep]
      refine (v.agrees_ask A run fresh rootData h _ hx).bind fun r s hr => ?_
      rw [hr.1]
      exact ⟨rfl, hx⟩
    · rw [if_neg hrep, if_neg hrep]
      have hplaced := ForkJoin.keeps_call A v.inParallel run fresh rootData
        v.inParallel_neverQuits above (Task.ofFrame c.sight.frame)
      refine ((v.agrees_ask A run fresh rootData h _ hx).keep hplaced).bind fun r s hr => ?_
      obtain ⟨⟨rfl, hquit⟩, hafter⟩ := hr
      cases hs : s.1 with
      | proceed =>
        rw [if_pos rfl, if_neg (by simp)]
        refine v.agrees_descend A run fresh rootData h (fun id l node x hx => ?_) hafter.location hx
          fun _ _ _ => rfl
        exact ih (h.child s.2 id l node fresh) ⟨rfl, rfl, rfl⟩ hx
      | abort =>
        rw [if_neg (by simp), if_pos rfl]
        exact ⟨rfl, hx⟩
      | quit => exact absurd hs hquit

/-- A whole walk.  At the root there is no edit to be handed over but a
replacement. -/
theorem agrees_walk (rootData : D) (levels : Nat) (root : N) :
    Run.Agrees (fun o w => o.state.recorded = w.task.zippers []
        ∧ (w.task.edits = [] ∧ w.tree = root ∨ w.task.edits = [(.replace, w.tree)]))
      ((v.transform A run fresh rootData).traversal.recurse levels [root] ⟨(), [], []⟩)
      ((v.forkJoin A run fresh rootData).walk levels root) := by
  have hpresents : (⟨0, ⟨.root root fresh, [], rootData⟩, []⟩ : Context N D).Presents rootData
      [] := ⟨rfl, rfl⟩
  have hwalk := v.agrees_visit A run fresh rootData levels hpresents ⟨rfl, rfl, rfl⟩
    (x := ⟨(), 1, false⟩) rfl
  have hroot := v.editor.agrees_root A run fresh rootData levels root ()
  rw [v.transform_editor] at hroot
  refine (hroot.trans hwalk).mono fun o w how => ?_
  obtain ⟨r, ⟨y, hstate, hends⟩, htask, hquit⟩ := how
  rw [hstate, hends.going (hends.quit_eq ▸ hquit), ← htask]
  exact ⟨rfl, htask ▸ hends.root rfl⟩

end LocalVisitor

/-! ## Whole transforms -/

section Main

variable [Identified N] (v : LocalVisitor N D) (A : Adapter N) (run : Nat) (fresh rootData : D)

/-- For a visitor that looks at its own context only, the sequential and the
fork-join transform of a tree are finite together and end alike: both with
one and the same tree or both with one and the same misuse, and never with a
failure that is reported to the caller.  Nodes that are made are told apart
by where they are made, so under one run number the new nodes of both trees
are the same, too. -/
theorem transforms_agree (root : N) :
    (∀ out, Run.Settles (fun limit =>
        Transformed.tree <$> (v.transform A run fresh rootData).apply limit root ()) out
      ↔ Run.Settles (fun levels =>
        Visit.tree <$> (v.forkJoin A run fresh rootData).walk levels root) out)
    ∧ ∀ fault, Run.Settles (fun levels =>
        Visit.tree <$> (v.forkJoin A run fresh rootData).walk levels root) (.failed fault) →
        ∃ m, fault = .misuse m := by
  let t := v.transform A run fresh rootData
  have happly : (fun limit => Transformed.tree <$> t.apply limit root ()) = fun limit =>
      t.traversal.observe limit [root] ⟨(), [], []⟩ >>= fun o =>
        Transformed.tree <$> t.finish root o.state := by
    funext limit
    rw [t.apply_eq, map_bind]
  have hwalk : (fun levels => t.traversal.recurse levels [root] ⟨(), [], []⟩ >>= fun o =>
        Transformed.tree <$> t.finish root o.state) = fun levels =>
      Visit.tree <$> (v.forkJoin A run fresh rootData).walk levels root := by
    funext levels
    refine (v.agrees_walk A run fresh rootData levels root).bind_eq_map fun o w ho => ?_
    rw [t.finish_of_root_edits ho.1 ho.2]
    rfl
  constructor
  · intro out
    rw [happly, ← hwalk]
    exact Run.settles_bind_congr (Traversal.settles_observe_iff rfl [root] _) _ out
  · rintro fault ⟨-, levels, hfault⟩
    rw [Run.map_eq_failed_iff] at hfault
    exact (v.agrees_walk A run fresh rootData levels root).exists_misuse hfault

end Main

namespace LocalVisitor

/-- Deletes nodes labelled `d` when they are entered.  When a node labelled
`b` is left, `x` is inserted after it and its label becomes `B`. -/
def trimming : LocalVisitor Tree Unit where
  call := fun s =>
    .ok ⟨.proceed,
      if s.frame.phase = .enter ∧ s.frame.node.label = "d" then [.delete]
      else if s.frame.phase = .leave ∧ s.frame.node.label = "b" then
        [.insertAfter (Tree.node (.given 5) "x" []),
          .change (.node (.given 6) "B" s.frame.node.groups)]
      else [], ()⟩
  never_quits := by
    intro s a h
    simp only [Except.ok.injEq] at h
    subst h
    simp
  backRef_edits := by
    intro s a hphase h
    simp only [Except.ok.injEq] at h
    subst h
    simp [hphase]

/-- The tree `a(b(d,e),c)`. -/
def untrimmed : Tree :=
  let d : Tree := .node (.given 3) "d" []
  let e : Tree := .node (.given 4) "e" []
  let b : Tree := .node (.given 1) "b" [(.unnamed, [d, e])]
  .node (.given 0) "a" [(.unnamed, [b, .node (.given 2) "c" []])]

theorem trimming_transforms :
    ∃ tree, tree.render = "a(B(e),x,c)"
      ∧ Run.Settles (fun levels =>
          Visit.tree <$> (trimming.forkJoin Tree.adapter 0 () ()).walk levels untrimmed)
          (.done tree)
      ∧ Run.Settles (fun limit =>
          Transformed.tree <$> (trimming.transform Tree.adapter 0 () ()).apply limit untrimmed ())
          (.done tree) := by
  have hwalk : (fun w : Visit Tree Unit => w.tree.render) <$>
      (trimming.forkJoin Tree.adapter 0 () ()).walk 4 untrimmed = .done "a(B(e),x,c)" := by cbv
  obtain ⟨w, hw, hrender⟩ := (Run.map_eq_done_iff _ _ _).1 hwalk
  have hsettles : Run.Settles (fun levels =>
      Visit.tree <$> (trimming.forkJoin Tree.adapter 0 () ()).walk levels untrimmed)
      (.done w.tree) := ⟨by simp, 4, by simp [hw]⟩
  exact ⟨w.tree, hrender, hsettles,
    ((transforms_agree trimming Tree.adapter 0 () () untrimmed).1 _).2 hsettles⟩

end LocalVisitor

end Topiary
