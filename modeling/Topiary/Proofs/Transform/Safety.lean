/-
Topiary.Proofs.Transform.Safety — what can stop a transform.

An edit can be refused: a node that was deleted is edited again, an anchor or a
changed node is deleted, or the root is.  Nothing else stops a finite
transform.  What the children of a node hand over can always be merged: every
edit is at a place where the node has a child, and a deletion is the only edit
at its place.

* `Misuse.isRefusal` — the refusals of edits.
* `Editor.Blames`, `TaskVisitor.Blames` — the faults that a visitor can bring
  about itself.
* `Run.Keeps` — what a computation ends with, or fails with.
* `Editor.keeps_visit`, `ForkJoin.keeps_visit` — a node with everything below it.
* `unrefused_transforms_return` — both kinds of transforms.
-/
import Mathlib.Data.List.Forall2
import Topiary.Proofs.ChildEdit.Positional
import Topiary.Proofs.Transform.Recursion
import Topiary.Proofs.Tree

namespace Topiary

variable {N D S : Type}

/-! ## Faults of the visitor -/

/-- An edit was refused where it was made. -/
def Misuse.isRefusal : Misuse → Bool
  | changeOfDeleted => true
  | deletionOfRoot => true
  | deletionOfDeleted => true
  | deletionOfEdited => true
  | insertionAroundRoot => true
  | insertionAroundDeleted => true
  | _ => false

/-- The fault is the refusal of an edit. -/
def Fault.IsRefusal (f : Fault) : Prop := ∃ m : Misuse, f = .misuse m ∧ m.isRefusal = true

/-- An edit of the editor can be refused with this fault, or the editor itself
gives up with it. -/
def Editor.Blames (v : Editor N D S) (f : Fault) : Prop :=
  f.IsRefusal ∨ ∃ m c s, f = .misuse m ∧ v.call c s = .error m

/-- An edit of the visitor can be refused with this fault, or the visitor
itself gives up with it. -/
def TaskVisitor.Blames (v : TaskVisitor N D) (f : Fault) : Prop :=
  f.IsRefusal ∨ ∃ c, v c = .error f

/-- No callback asks to quit. -/
def TaskVisitor.NeverQuits (v : TaskVisitor N D) : Prop :=
  ∀ c a, v c = .ok a → a.control ≠ .quit

/-! ## Ends of computations -/

namespace Run

variable {α β : Type}

/-- Done with a value of the one kind, failed with a fault of the other, or
unfinished. -/
def Keeps (P : Fault → Prop) (Q : α → Prop) : Run α → Prop
  | done a => Q a
  | failed f => P f
  | unfinished => True

namespace Keeps

variable {P : Fault → Prop} {Q : α → Prop} {R : β → Prop} {x : Run α}

theorem mono (h : x.Keeps P Q) {P' : Fault → Prop} {Q' : α → Prop} (hP : ∀ f, P f → P' f)
    (hQ : ∀ a, Q a → Q' a) : x.Keeps P' Q' := by
  cases x with
  | done a => exact hQ a h
  | failed f => exact hP f h
  | unfinished => trivial

theorem bind (h : x.Keeps P Q) {f : α → Run β} (hf : ∀ a, Q a → (f a).Keeps P R) :
    (x >>= f).Keeps P R := by
  cases x with
  | done a => exact hf a h
  | failed f => exact h
  | unfinished => trivial

/-- One computation for each element of a list. -/
theorem mapM {γ : Type} {f : γ → Run α} {T : γ → α → Prop} {l : List γ}
    (h : ∀ c ∈ l, (f c).Keeps P (T c)) : (l.mapM f).Keeps P (List.Forall₂ T l) := by
  induction l with
  | nil => exact .nil
  | cons c l ih =>
    rw [List.forall_mem_cons] at h
    rw [List.mapM_cons]
    exact h.1.bind fun a ha => (ih h.2).bind fun as has => .cons ha has

/-- What is finite and fails with nothing of the one kind is done with
something of the other. -/
theorem exists_done (h : x.Keeps P Q) (hfinite : x ≠ .unfinished)
    (hfault : ∀ f, P f → x ≠ .failed f) : ∃ a, x = .done a ∧ Q a := by
  cases x with
  | done a => exact ⟨a, rfl, h⟩
  | failed f => exact absurd rfl (hfault f h)
  | unfinished => exact absurd rfl hfinite

end Keeps

/-- What the second computation ends with is known of it alone. -/
theorem Agrees.keep {P : Fault → Prop} {R : α → β → Prop} {Q : β → Prop} {x : Run α} {y : Run β}
    (h : Agrees R x y) (hy : y.Keeps P Q) : Agrees (fun a b => R a b ∧ Q b) x y := by
  cases x <;> cases y <;> simp only [Agrees] at h ⊢
  · exact ⟨h, hy⟩
  · exact h

end Run

/-! ## Edits -/

namespace Task

/-- A deletion is the only edit of a node that was deleted, and a node that was
not deleted has none. -/
structure Coherent (t : Task N D) : Prop where
  gone : t.frame.deleted = true → ∃ n, t.edits = [(.delete, n)]
  stays : t.frame.deleted = false → ∀ e ∈ t.edits, e.1 ≠ .delete

theorem coherent_ofFrame {f : Frame N D} (h : f.deleted = false) : (ofFrame f).Coherent where
  gone := fun hd => Bool.noConfusion (h.symm.trans hd)
  stays := fun _ _ he => absurd he List.not_mem_nil

theorem mem_putReplacement {node : N} {edits : List (EditKind × N)} {e : EditKind × N}
    (h : e ∈ putReplacement node edits) : e = (.replace, node) ∨ e ∈ edits := by
  induction edits with
  | nil => exact .inl (List.mem_singleton.1 h)
  | cons d edits ih =>
    unfold putReplacement at h
    split at h
    · rename_i hd
      rcases List.mem_cons.1 h with rfl | h
      · exact .inl (by rw [hd])
      · exact .inr (List.mem_cons_of_mem _ h)
    · rcases List.mem_cons.1 h with rfl | h
      · exact .inr List.mem_cons_self
      · exact (ih h).imp_right (List.mem_cons_of_mem _)

/-- A replacement, from an edit or from a merge, of a node that is there. -/
theorem Coherent.replace {t : Task N D} (h : t.Coherent) (hd : t.frame.deleted = false)
    (node : N) : (t.replace node).Coherent where
  gone := fun hgone => Bool.noConfusion (hd.symm.trans hgone)
  stays := fun _ e he => by
    rcases mem_putReplacement he with rfl | he
    · simp
    · exact h.stays hd e he

/-- Only the edits and the mark of deletion count. -/
theorem Coherent.congr {t t' : Task N D} (h : t.Coherent)
    (hdeleted : t'.frame.deleted = t.frame.deleted) (hedits : t'.edits = t.edits) :
    t'.Coherent where
  gone := by
    rw [hdeleted, hedits]
    exact h.gone
  stays := by
    rw [hdeleted, hedits]
    exact h.stays

/-- What children hand over is merged only if the node has children. -/
theorem Coherent.merge {t : Task N D} (h : t.Coherent) (A : Adapter N) (site : Site)
    {edits : List (ChildEdit N)} (hdel : t.frame.deleted = true → edits = []) :
    (t.merge A site edits).Coherent := by
  by_cases hne : edits = []
  · rw [hne, merge_nil]
    exact h
  · rw [merge_of_ne_nil A site t hne]
    exact h.replace (Bool.eq_false_iff.2 fun hd => hne (hdel hd)) _

/-- Edits of one node go together. -/
theorem Coherent.apart {t : Task N D} (h : t.Coherent) :
    t.edits.Pairwise fun a b => a.1 ≠ .delete ∧ b.1 ≠ .delete := by
  cases hd : t.frame.deleted with
  | true =>
    obtain ⟨n, hn⟩ := h.gone hd
    rw [hn]
    exact List.pairwise_singleton _ _
  | false =>
    exact List.pairwise_of_forall_mem_list fun a ha b hb => ⟨h.stays hd a ha, h.stays hd b hb⟩

/-- The same node after some of its edits. -/
structure After (t t' : Task N D) : Prop where
  location : t'.frame.location = t.frame.location
  coherent : t.Coherent → t'.Coherent

/-- One edit: it is carried out, or it is refused. -/
theorem keeps_edit (t : Task N D) (isRoot : Bool) (e : Edit N) :
    (Run.ofExcept (t.edit isRoot e)).Keeps Fault.IsRefusal t.After := by
  have hchange : ∀ node : N, (Run.ofExcept (t.change node)).Keeps Fault.IsRefusal t.After := by
    intro node
    unfold change
    split
    · exact ⟨_, rfl, rfl⟩
    · rename_i hd
      exact ⟨rfl, fun h => (h.replace (Bool.eq_false_iff.2 hd) node).congr rfl rfl⟩
  have hdelete : (Run.ofExcept (t.delete isRoot)).Keeps Fault.IsRefusal t.After := by
    unfold delete
    split
    · exact ⟨_, rfl, rfl⟩
    split
    · exact ⟨_, rfl, rfl⟩
    split
    · exact ⟨_, rfl, rfl⟩
    · exact ⟨rfl, fun _ => ⟨fun _ => ⟨_, rfl⟩, fun hopen => Bool.noConfusion hopen⟩⟩
  have hinsert : ∀ (kind : EditKind) (node : N), kind ≠ .delete →
      (Run.ofExcept (t.insert isRoot kind node)).Keeps Fault.IsRefusal t.After := by
    intro kind node hkind
    unfold insert
    split
    · exact ⟨_, rfl, rfl⟩
    split
    · exact ⟨_, rfl, rfl⟩
    · rename_i hd
      refine ⟨rfl, fun h => ⟨fun hgone => absurd hgone hd, fun hopen e he => ?_⟩⟩
      rcases List.mem_append.1 he with he | he
      · exact h.stays hopen e he
      · rw [List.mem_singleton.1 he]
        exact hkind
  cases e with
  | change node => exact hchange node
  | delete => exact hdelete
  | insertBefore node => exact hinsert .insertBefore node (by simp)
  | insertAfter node => exact hinsert .insertAfter node (by simp)

/-- The edits of one callback. -/
theorem keeps_editAll (t : Task N D) (isRoot : Bool) (edits : List (Edit N)) :
    (Run.ofExcept (t.editAll isRoot edits)).Keeps Fault.IsRefusal t.After := by
  induction edits generalizing t with
  | nil => exact ⟨rfl, id⟩
  | cons e edits ih =>
    rw [editAll, Run.ofExcept_bind]
    refine (t.keeps_edit isRoot e).bind fun t₁ h₁ =>
      (ih t₁).mono (fun _ hf => hf) fun t₂ h₂ => ?_
    exact ⟨h₂.location.trans h₁.location, fun h => h₂.coherent (h₁.coherent h)⟩

end Task

/-! ## Sequential transforms -/

namespace Editor

variable (v : Editor N D S) (A : Adapter N) (run : Nat) (fresh rootData : D)

/-- In a callback nothing goes wrong but that an edit is refused or that the
editor gives up. -/
theorem keeps_ask (d : Context N D) (t : Task N D) (x : Pace S) :
    (Run.ofExcept (v.ask d t x)).Keeps v.Blames fun _ => True := by
  unfold ask
  cases hcall : v.call (d.withFrame t.frame) x.state with
  | error m => exact .inr ⟨m, _, _, rfl, hcall⟩
  | ok r =>
    simp only [Except.mapError]
    show (Run.ofExcept (t.editAll d.sight.isRoot r.edits >>= fun t' => pure _)).Keeps _ _
    rw [Run.ofExcept_bind]
    exact ((t.keeps_editAll _ _).mono (fun f hf => .inl hf) fun _ _ => trivial).bind
      fun _ _ => trivial

theorem keeps_throughEach {visit : Context N D → Pace S → Run (Task N D × Pace S)}
    (hvisit : ∀ c x, (visit c x).Keeps v.Blames fun _ => True) (cs : List (Context N D))
    (x : Pace S) : (Pace.throughEach visit cs x).Keeps v.Blames fun _ => True := by
  induction cs generalizing x with
  | nil => trivial
  | cons c cs ih =>
    rw [Pace.throughEach]
    refine (hvisit c x).bind fun r _ => ?_
    split
    · trivial
    · exact (ih r.2).bind fun _ _ => trivial

/-- A node with everything below it, by induction on the number of levels. -/
theorem keeps_visit [Identified N] (levels : Nat) (c : Context N D) (x : Pace S) :
    (v.visit A run fresh levels c x).Keeps v.Blames fun _ => True := by
  induction levels generalizing c x with
  | zero => trivial
  | succ levels ih =>
    rw [visit]
    split
    · exact (v.keeps_ask _ _ x).bind fun _ _ => trivial
    refine (v.keeps_ask _ _ x).bind fun r _ => ?_
    split
    · rw [descend]
      refine (v.keeps_throughEach ih _ _).bind fun rs _ => ?_
      split
      · trivial
      · exact (v.keeps_ask _ _ _).bind fun _ _ => trivial
    · trivial

/-- The transform folds what is recorded without any fault of its own. -/
theorem keeps_apply [Identified N] (limit : Nat) (root : N) (state : S) :
    ((v.transform A run fresh rootData).apply limit root state).Keeps v.Blames fun _ => True := by
  cases hx : (v.transform A run fresh rootData).apply limit root state with
  | done r => trivial
  | unfinished => trivial
  | failed f =>
    have hsettles : Run.Settles (fun limit =>
        Transformed.tree <$> (v.transform A run fresh rootData).apply limit root state)
        (.failed f) := ⟨by simp, limit, by simp [hx]⟩
    obtain ⟨-, levels, hlevels⟩ :=
      (v.settles_apply_iff A run fresh rootData root state _).1 hsettles
    have hkeeps := v.keeps_visit A run fresh levels
      ⟨0, ⟨.root root fresh, [], rootData⟩, []⟩ ⟨state, 1, false⟩
    rw [show v.visit A run fresh levels _ _ = .failed f from
      (Run.map_eq_failed_iff _ _ _).1 hlevels] at hkeeps
    exact hkeeps

end Editor

/-! ## Fork-join transforms -/

/-- A visit has left a task whose edits go together. -/
structure Visit.Sound (t : Task N D) (w : Visit N D) : Prop where
  location : w.task.frame.location = t.frame.location
  coherent : w.task.Coherent

/-- What the children of a node hand over is at their places and goes together. -/
theorem Visit.compatible_flatMap {ts : List (Task N D)} {ws : List (Visit N D)}
    (h : List.Forall₂ Visit.Sound ts ws)
    (hnd : (ts.map fun t => t.frame.location).Nodup) :
    ChildEdit.Compatible (ws.flatMap fun w => w.task.toChildEdits)
      ∧ ∀ e ∈ ws.flatMap fun w => w.task.toChildEdits,
        some e.location ∈ ts.map fun t => t.frame.location := by
  induction h with
  | nil => exact ⟨.nil, by simp⟩
  | @cons t w ts ws hw _ ih =>
    rw [List.map_cons, List.nodup_cons] at hnd
    obtain ⟨hrest, hplaces⟩ := ih hnd.2
    have hown : ∀ e ∈ w.task.toChildEdits, some e.location = t.frame.location := by
      intro e he
      rw [← hw.location]
      cases hl : w.task.frame.location with
      | none => simp [Task.toChildEdits, hl] at he
      | some l => rw [Task.location_of_toChildEdits hl e he]
    rw [List.flatMap_cons]
    refine ⟨List.pairwise_append.2 ⟨?_, hrest, ?_⟩, List.forall_mem_append.2 ⟨?_, ?_⟩⟩
    · unfold Task.toChildEdits
      split
      · exact .nil
      · rw [List.pairwise_map]
        refine hw.coherent.apart.imp ?_
        intro a b hab _
        exact hab
    · intro e he d hd hed
      have hplace := hplaces d hd
      rw [← hed, hown e he] at hplace
      exact absurd hplace hnd.1
    · intro e he
      rw [hown e he]
      exact List.mem_cons_self
    · exact fun e he => List.mem_cons_of_mem _ (hplaces e he)

namespace ForkJoin

variable (A : Adapter N) (v : TaskVisitor N D) (run : Nat) (fresh rootData : D)

/-- In a callback nothing goes wrong but that an edit is refused or that the
visitor gives up. -/
theorem keeps_call (hquit : v.NeverQuits) (above : List (Task N D)) (t : Task N D) :
    (Run.ofExcept ((transforming A v run fresh rootData).call above t)).Keeps v.Blames
      fun r => t.After r.2 := by
  unfold call
  simp only [show (transforming A v run fresh rootData).visitor = v from rfl]
  cases hcall : v ⟨t, above, (transforming A v run fresh rootData).rootData⟩ with
  | error f => exact .inr ⟨_, hcall⟩
  | ok a =>
    simp only [bind, Except.bind]
    have hedits : (Run.ofExcept (t.editAll above.isEmpty a.edits)).Keeps v.Blames t.After :=
      (t.keeps_editAll above.isEmpty a.edits).mono (fun f hf => .inl hf) fun _ h => h
    cases hedit : t.editAll above.isEmpty a.edits with
    | error f =>
      rw [hedit] at hedits
      exact hedits
    | ok t' =>
      rw [hedit] at hedits
      simp only [if_neg (hquit _ _ hcall)]
      exact ⟨hedits.location, fun h => (hedits.coherent h).congr rfl rfl⟩

/-- A child that is yet to be visited has no edits. -/
theorem coherent_kids (w : ForkJoin N D) (t : Task N D) : ∀ k ∈ w.kids t, k.Coherent := by
  intro k hk
  unfold kids at hk
  split at hk
  · exact absurd hk List.not_mem_nil
  · obtain ⟨f, hf, rfl⟩ := List.mem_map.1 hk
    obtain ⟨p, -, rfl⟩ := List.mem_map.1 hf
    exact Task.coherent_ofFrame rfl

/-- The tasks of the children are yet to be visited. -/
theorem kids_transforming (t : Task N D) :
    (transforming A v run fresh rootData).kids t
      = (t.frame.childFrames fresh (Editor.kidsOf A t)).map Task.ofFrame := by
  unfold kids Editor.kidsOf
  cases t.frame.deleted <;> rfl

/-- The children of a node, each with its place. -/
theorem kids_places (t : Task N D) :
    ((transforming A v run fresh rootData).kids t).map (fun k => k.frame.location)
      = if t.frame.deleted then []
        else ((A.children t.frame.node).locations.map Prod.fst).map some := by
  unfold kids
  split
  · rfl
  · simp only [Frame.kids, List.map_map]
    rfl

/-- Where a copy of a task's node is made. -/
def site (w : ForkJoin N D) (above : List (Task N D)) (t : Task N D) : Site :=
  (Site.ofRun w.run).below (Sight.path ⟨t.frame, above.map Task.frame, w.rootData⟩)

/-- What the children of a node hand over is merged: no edit is refused. -/
theorem complete_eq (above : List (Task N D)) {t : Task N D} {ws : List (Visit N D)}
    (hws : List.Forall₂ Visit.Sound ((transforming A v run fresh rootData).kids t) ws) :
    (t.frame.deleted = true → (ws.flatMap fun w => w.task.toChildEdits) = [])
      ∧ (transforming A v run fresh rootData).complete above t
          (ws.flatMap fun w => w.task.toChildEdits)
        = .ok (t.merge A ((transforming A v run fresh rootData).site above t)
              (ws.flatMap fun w => w.task.toChildEdits),
            t.copies ((transforming A v run fresh rootData).site above t)
              (ws.flatMap fun w => w.task.toChildEdits)) := by
  have hplaces := kids_places A v run fresh rootData t
  cases hd : t.frame.deleted with
  | true =>
    have hnone : (transforming A v run fresh rootData).kids t = [] := if_pos hd
    rw [hnone, List.forall₂_nil_left_iff] at hws
    subst hws
    exact ⟨fun _ => rfl, rfl⟩
  | false =>
    rw [hd, if_neg (by simp)] at hplaces
    obtain ⟨hcomp, hmem⟩ := Visit.compatible_flatMap hws (by
      rw [hplaces]
      exact List.pairwise_map.2 ((NamedChildren.nodup_map_fst_locations _).imp fun hne he =>
        hne (Option.some.inj he)))
    rw [hplaces] at hmem
    have hloc : ChildEdit.Located (A.children t.frame.node)
        (ws.flatMap fun w => w.task.toChildEdits) := by
      intro e he
      obtain ⟨l, hl, hel⟩ := List.mem_map.1 (hmem e he)
      obtain ⟨p, hp, rfl⟩ := List.mem_map.1 hl
      rw [← Option.some.inj hel]
      exact ⟨p.2, (NamedChildren.mem_locations_iff _ _ _).1 hp⟩
    have hedit := (A.children t.frame.node).edit_eq_spread hcomp hloc
    refine ⟨fun hgone => Bool.noConfusion hgone, ?_⟩
    cases hws : ws.flatMap fun w => w.task.toChildEdits with
    | nil => rfl
    | cons e es =>
      rw [hws] at hedit
      simp only [complete, transforming, hedit, bind, Except.bind, pure, Except.pure]
      rfl

/-- A task with everything below it, by induction on the number of levels. -/
theorem keeps_visit [Identified N] (hquit : v.NeverQuits) (levels : Nat)
    (above : List (Task N D)) {t : Task N D} (ht : t.Coherent) :
    ((transforming A v run fresh rootData).visit levels above t).Keeps v.Blames
      (Visit.Sound t) := by
  induction levels generalizing above t with
  | zero => trivial
  | succ levels ih =>
    rw [visit]
    split
    · exact (keeps_call A v run fresh rootData hquit above _).bind fun r hr =>
        ⟨hr.location, hr.coherent (ht.congr rfl rfl)⟩
    refine (keeps_call A v run fresh rootData hquit above _).bind fun r hr => ?_
    have hentered : r.2.Coherent := hr.coherent (ht.congr rfl rfl)
    dsimp only
    split
    · exact ⟨hr.location, hentered⟩
    have hkids := coherent_kids (transforming A v run fresh rootData) r.2
    refine (Run.Keeps.mapM fun k hk => ih (r.2 :: above) (hkids k hk)).bind fun ws hws => ?_
    obtain ⟨hdel, hmerge⟩ := complete_eq A v run fresh rootData above hws
    rw [hmerge, Run.ofExcept_ok, Run.done_bind]
    refine (keeps_call A v run fresh rootData hquit above _).bind fun q hq => ?_
    have hplace := r.2.place_merge A ((transforming A v run fresh rootData).site above r.2)
      (ws.flatMap fun w => w.task.toChildEdits)
    exact ⟨hq.location.trans (hplace.1.trans hr.location),
      hq.coherent ((hentered.merge A _ hdel).congr rfl rfl)⟩

end ForkJoin

/-! ## Both kinds of transforms -/

/-- A finite transform in which no edit is refused returns a tree.  This goes
for every visitor that edits, whatever its callbacks answer, be they called one
after the other, where they may also quit, or by a worker for every node. -/
theorem unrefused_transforms_return [Identified N] (A : Adapter N) (run : Nat)
    (fresh rootData : D) (root : N) :
    (∀ (v : Editor N D S) (state : S) (limit : Nat),
      (v.transform A run fresh rootData).apply limit root state ≠ .unfinished →
      (∀ f, v.Blames f →
        (v.transform A run fresh rootData).apply limit root state ≠ .failed f) →
      ∃ r, (v.transform A run fresh rootData).apply limit root state = .done r)
    ∧ ∀ v : TaskVisitor N D, v.NeverQuits → ∀ limit : Nat,
      (ForkJoin.transforming A v run fresh rootData).walk limit root ≠ .unfinished →
      (∀ f, v.Blames f →
        (ForkJoin.transforming A v run fresh rootData).walk limit root ≠ .failed f) →
      ∃ w, (ForkJoin.transforming A v run fresh rootData).walk limit root = .done w := by
  constructor
  · intro v state limit hfinite hblame
    obtain ⟨r, hr, -⟩ := (v.keeps_apply A run fresh rootData limit root state).exists_done
      hfinite hblame
    exact ⟨r, hr⟩
  · intro v hquit limit hfinite hblame
    have hroot : (Task.ofFrame (.root root fresh)).Coherent := Task.coherent_ofFrame rfl
    obtain ⟨w, hw, -⟩ := (ForkJoin.keeps_visit A v run fresh rootData hquit limit []
      hroot).exists_done hfinite hblame
    exact ⟨w, hw⟩

/-- Deletes the nodes labelled `d`, and on leaving the one labelled `b` puts `x`
after it and quits. -/
def Editor.hasty : Editor Tree Unit Unit where
  call := fun c _ =>
    let f := c.sight.frame
    if f.phase = .enter ∧ f.node.label = "d" then .ok ⟨.proceed, [.delete], (), ()⟩
    else if f.phase = .leave ∧ f.node.label = "b" then
      .ok ⟨.quit, [.insertAfter (.node (.given 5) "x" [])], (), ()⟩
    else .ok ⟨.proceed, [], (), ()⟩
  backRef_edits := by
    intro c s r hphase h
    simp only [hphase, reduceCtorEq, false_and, if_false, Except.ok.injEq] at h
    rw [← h]

/-- Deletes the nodes labelled `d` in a fork-join walk. -/
def TaskVisitor.pruning : TaskVisitor Tree Unit := fun c =>
  let f := c.task.frame
  if f.phase = .enter ∧ f.node.label = "d" then .ok ⟨.proceed, [.delete], ()⟩
  else .ok ⟨.proceed, [], ()⟩

theorem TaskVisitor.pruning_neverQuits : TaskVisitor.pruning.NeverQuits := by
  intro c a h
  simp only [TaskVisitor.pruning] at h
  split at h <;> obtain rfl := Except.ok.inj h <;> simp

theorem pruned_hedges_return :
    (∃ r, (Editor.hasty.transform Tree.adapter 0 () ()).apply 20 Tree.hedge () = .done r)
    ∧ ∃ w, (ForkJoin.transforming Tree.adapter TaskVisitor.pruning 0 () ()).walk 4 Tree.hedge
        = .done w := by
  have happly : (fun r => r.tree.render) <$>
      (Editor.hasty.transform Tree.adapter 0 () ()).apply 20 Tree.hedge ()
        = .done "a(b(e),x,c(d))" := by cbv
  have hwalk : (fun w => w.tree.render) <$>
      (ForkJoin.transforming Tree.adapter TaskVisitor.pruning 0 () ()).walk 4 Tree.hedge
        = .done "a(b(e),c())" := by cbv
  have hreturns := unrefused_transforms_return (D := Unit) (S := Unit) Tree.adapter 0 () ()
    Tree.hedge
  refine ⟨hreturns.1 Editor.hasty () 20 ?_ ?_,
    hreturns.2 TaskVisitor.pruning TaskVisitor.pruning_neverQuits 4 ?_ ?_⟩
  · intro h
    simp [h] at happly
  · intro f _ h
    simp [h] at happly
  · intro h
    simp [h] at hwalk
  · intro f _ h
    simp [h] at hwalk

end Topiary
