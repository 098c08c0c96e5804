/-
Topiary.Proofs.Walk.Alike — the walks visit the same occurrences.

A stack, a queue and forked tasks come to a node at different moments: depth first
all above it is still open, breadth first it has been left.  With a visitor that goes
by a plan this makes no difference to what is called, only to when.

* `Run.mapM_cases` — visits of children: all are done, or one is not.
* `ForkJoin.Follows.visit` — a task makes the callbacks of its errand, in the order
  in which the plan unrolls it.
* `walks_visit_alike` — if one of the walks comes to an end, all of them do, with the
  same callbacks.
-/
import Topiary.Proofs.Walk.Errands
import Topiary.Proofs.Walk.ForkJoin

namespace Topiary

/-- Computations one after the other that do not fail: each is done, or one is not
finished. -/
theorem Run.mapM_cases {α β : Type} {f : α → Run β} {P : α → β → Prop} {Q : α → Prop} {xs : List α}
    (h : ∀ x ∈ xs, (f x = .unfinished ∧ Q x) ∨ ∃ y, f x = .done y ∧ P x y) :
    (xs.mapM f = .unfinished ∧ ∃ x ∈ xs, Q x)
      ∨ ∃ ys, xs.mapM f = .done ys ∧ List.Forall₂ P xs ys := by
  induction xs with
  | nil => exact .inr ⟨[], rfl, .nil⟩
  | cons x xs ih =>
    obtain ⟨hx, hxs⟩ := List.forall_mem_cons.1 h
    rcases hx with ⟨hf, hQ⟩ | ⟨y, hf, hP⟩
    · exact .inl ⟨by simp [List.mapM_cons, hf], x, List.mem_cons_self .., hQ⟩
    · rcases ih hxs with ⟨hrest, x', hx', hQ⟩ | ⟨ys, hrest, hall⟩
      · exact .inl ⟨by simp [List.mapM_cons, hf, hrest], x', List.mem_cons_of_mem _ hx', hQ⟩
      · exact .inr ⟨y :: ys, by simp [List.mapM_cons, hf, hrest], .cons hP hall⟩

namespace ForkJoin.Follows

variable {N D : Type} {tour : Tour N} {w : ForkJoin N D}

/-- Entering puts the node that is to stand there in its place. -/
theorem call_enter (hw : w.Follows tour) {above : List (Task N D)} {t : Task N D}
    {o : Occurrence N} (hshows : (Sight.mk t.frame (above.map Task.frame) w.rootData).Shows o o.reached)
    (hphase : t.frame.phase = .enter) (hdeleted : t.frame.deleted = false) :
    ∃ t' data, w.call above t = .ok ((tour.advice o).control, t')
      ∧ t'.frame = { t.frame with node := tour.standing o, data } := by
  obtain ⟨data, hvisit⟩ := hw.enter ⟨t, above, w.rootData⟩ hphase
  have ho : (TaskContext.mk t above w.rootData).sight.occurrence = o := hshows.occurrence
  have hnode : t.frame.node = o.reached := hshows.node
  have hcontrol : (tour.advice o).control ≠ .quit := by
    rw [Advice.control]
    split <;> simp
  obtain ⟨t', hedit, hframe⟩ : ∃ t', t.editAll above.isEmpty
        ((tour.advice o).change.toList.map .change) = .ok t'
      ∧ t'.frame = { t.frame with node := tour.standing o } := by
    rw [Tour.standing]
    cases (tour.advice o).change with
    | none => exact ⟨t, rfl, by rw [Option.getD_none, ← hnode]⟩
    | some node =>
      exact ⟨{ t.replace node with changed := true },
        by simp [Task.editAll, Task.edit, Task.change, hdeleted, bind, Except.bind], rfl⟩
  rw [ho] at hvisit
  refine ⟨{ t' with frame := { t'.frame with data } }, data, ?_, by rw [hframe]⟩
  simp [ForkJoin.call, hvisit, hedit, hcontrol, bind, Except.bind, pure, Except.pure]

/-- The other callbacks leave the task as it is. -/
theorem call_other (hw : w.Follows tour) (above : List (Task N D)) {t : Task N D}
    (hphase : t.frame.phase ≠ .enter) :
    ∃ control t' data, w.call above t = .ok (control, t')
      ∧ t'.frame = { t.frame with data } := by
  obtain ⟨control, data, hcontrol, hvisit⟩ := hw.others ⟨t, above, w.rootData⟩ hphase
  refine ⟨control, { t with frame := { t.frame with data } }, data, ?_, rfl⟩
  simp [ForkJoin.call, hvisit, Task.editAll, hcontrol, bind, Except.bind, pure, Except.pure]

end ForkJoin.Follows

section

variable {N D : Type} [Identified N] {tour : Tour N} {w : ForkJoin N D}

/-- A visit is what all that comes of the visit of an occurrence says. -/
structure Visit.Unrolls (v : Visit N D) (tour : Tour N) (levels : Nat) (o : Occurrence N) :
    Prop where
  ends : Ends tour.next levels (.visit o)
  calls : (v.calls.map fun c => c.sight.glimpse)
    = (unroll tour.next levels (.visit o)).map tour.glimpse
  entered : v.entered = (v.calls.map fun c => c.sight.glimpse).countP fun g => g.phase = .enter

/-- The visits of children, joined. -/
theorem Visit.Unrolls.join {levels : Nat} {o : Occurrence N} {kids : List (Location × N)}
    {vs : List (Visit N D)}
    (h : List.Forall₂ (fun located v => Unrolls v tour levels (tour.kid o located)) kids vs) :
    (∀ errand ∈ (kids.map (tour.kid o)).map Errand.visit, Ends tour.next levels errand)
      ∧ ((vs.flatMap Visit.calls).map fun c => c.sight.glimpse)
        = (((kids.map (tour.kid o)).map Errand.visit).flatMap (unroll tour.next levels)).map
          tour.glimpse
      ∧ (vs.map Visit.entered).foldr (· + ·) 0
        = ((vs.flatMap Visit.calls).map fun c => c.sight.glimpse).countP
            fun g => g.phase = .enter := by
  induction h with
  | nil => exact ⟨List.forall_mem_nil _, rfl, rfl⟩
  | cons hv _ ih =>
    obtain ⟨hends, hcalls, hentered⟩ := ih
    refine ⟨List.forall_mem_cons.2 ⟨hv.ends, hends⟩, ?_, ?_⟩
    · rw [List.flatMap_cons, List.map_append, hv.calls, hcalls]
      simp only [List.map_cons, List.flatMap_cons, List.map_append]
    · rw [List.map_cons, List.foldr_cons, hv.entered, hentered, List.flatMap_cons, List.map_append,
        List.countP_append]

/-- A task within a walk that has got to an occurrence. -/
structure ForkJoin.At (w : ForkJoin N D) (above : List (Task N D)) (t : Task N D)
    (o : Occurrence N) (node : N) : Prop where
  shows : (Sight.mk t.frame (above.map Task.frame) w.rootData).Shows o node
  deleted : t.frame.deleted = false

omit [Identified N] in
/-- The task of a child has got to the child of the occurrence. -/
theorem ForkJoin.at_kid (w : ForkJoin N D) {above : List (Task N D)} {t : Task N D}
    {o : Occurrence N} (hat : w.At above t o (tour.standing o)) (located : Location × N) :
    w.At (t :: above) (.ofFrame (t.frame.child located.1 located.2 w.fresh)) (tour.kid o located)
      located.2 :=
  ⟨hat.shows.kid located w.fresh, rfl⟩

/-! ## What a plan comes to below an occurrence -/

/-- A node that is descended into: its children come in between. -/
theorem Tour.next_inside {o : Occurrence N} (hrep : o.repeatsAbove = false)
    (hdown : (tour.advice o).descends = true) : tour.next (.visit o) = tour.inside o := by
  rw [Tour.next, hrep, hdown]
  rfl

theorem Tour.unroll_inside {o : Occurrence N} (hrep : o.repeatsAbove = false)
    (hdown : (tour.advice o).descends = true) (levels : Nat) :
    unroll tour.next (levels + 2) (.visit o)
      = .visit o :: (((tour.kids o).map Errand.visit).flatMap (unroll tour.next (levels + 1))
        ++ [.leave o]) := by
  rw [unroll, Tour.next_inside hrep hdown, Tour.inside, List.flatMap_append,
    List.flatMap_singleton]
  rfl

/-! ## Tasks -/

namespace ForkJoin.Follows

/-- A node that repeats one above it: its back reference. -/
theorem visit_repeats (hw : w.Follows tour) {above : List (Task N D)} {t : Task N D}
    {o : Occurrence N} (hat : w.At above t o o.reached) (hrep : o.repeatsAbove = true) (levels : Nat) :
    ∃ v, w.visit (levels + 1) above t = .done v ∧ v.Unrolls tour (levels + 2) o := by
  obtain ⟨control, t', data, hcall, -⟩ := hw.call_other above
    (t := inPhase .backRef { t with frame := { t.frame with visited := true } }) (by simp [inPhase])
  have hnext : tour.next (.visit o) = [] := by rw [Tour.next, hrep, Bool.true_or, if_pos rfl]
  have hseen := (hat.shows.update { t.frame with visited := true, phase := .backRef }
    rfl rfl rfl).glimpse
  have hglimpse : tour.glimpse (.visit o) = o.glimpse .backRef o.reached := by
    rw [Tour.glimpse, if_pos hrep]
  refine ⟨_, by simp only [visit, hat.shows.repeatsAbove, hrep, if_true, hcall]; rfl, ?_, ?_, ?_⟩
  · rw [Ends, hnext]
    exact List.forall_mem_nil _
  · rw [unroll, hnext, List.flatMap_nil, List.map_singleton, List.map_singleton, hglimpse]
    exact congrArg ([·]) (hseen.trans (congrArg _ hat.shows.node))
  · rfl

/-- A node that is not to be descended into: it is entered, and that is all. -/
theorem visit_aborts (hw : w.Follows tour) {above : List (Task N D)} {t : Task N D}
    {o : Occurrence N} (hat : w.At above t o o.reached) (hrep : o.repeatsAbove = false)
    (hdown : (tour.advice o).descends = false) (levels : Nat) :
    ∃ v, w.visit (levels + 1) above t = .done v ∧ v.Unrolls tour (levels + 2) o := by
  obtain ⟨hshows, hdeleted⟩ := hat
  have henter := hshows.update { t.frame with phase := .enter } rfl rfl rfl
  obtain ⟨t', data, hcall, -⟩ := hw.call_enter (t := inPhase .enter t) (hshows.node ▸ henter) rfl
    hdeleted
  rw [Advice.control, hdown] at hcall
  have hnext : tour.next (.visit o) = [] := by rw [Tour.next, hrep, hdown]; rfl
  have hglimpse : tour.glimpse (.visit o) = o.glimpse .enter o.reached := by
    rw [Tour.glimpse, hrep]
    rfl
  refine ⟨_, by
    simp only [visit, hshows.repeatsAbove, hrep, Bool.false_eq_true, if_false, hcall]
    rfl, ?_, ?_, ?_⟩
  · rw [Ends, hnext]
    exact List.forall_mem_nil _
  · rw [unroll, hnext, List.flatMap_nil, List.map_singleton, List.map_singleton, hglimpse]
    exact congrArg ([·]) (henter.glimpse.trans (congrArg _ hshows.node))
  · rfl

omit [Identified N] in
/-- A node that is to be descended into is entered, and is then what its children are of. -/
theorem enters (hw : w.Follows tour) {above : List (Task N D)} {t : Task N D} {o : Occurrence N}
    (hat : w.At above t o o.reached) (hdown : (tour.advice o).descends = true) :
    ∃ t', w.call above (inPhase .enter t) = .ok (.proceed, t')
      ∧ w.At above t' o (tour.standing o) := by
  obtain ⟨hshows, hdeleted⟩ := hat
  have henter := hshows.update { t.frame with phase := .enter } rfl rfl rfl
  obtain ⟨t', data, hcall, hframe⟩ := hw.call_enter (t := inPhase .enter t) (hshows.node ▸ henter)
    rfl hdeleted
  rw [Advice.control, hdown, if_pos rfl] at hcall
  refine ⟨t', hcall, ?_, by rw [hframe]; exact hdeleted⟩
  have hupdate := hshows.update t'.frame (by rw [hframe]; rfl) (by rw [hframe]; rfl)
    (by rw [hframe]; rfl)
  rwa [show t'.frame.node = tour.standing o by rw [hframe]] at hupdate

omit [Identified N] in
/-- The tasks of the children have got to the children of the occurrence. -/
theorem mapM_kids (hw : w.Follows tour) {above : List (Task N D)} {t : Task N D} {o : Occurrence N}
    (hat : w.At above t o (tour.standing o)) (visit : Task N D → Run (Visit N D)) :
    (w.kids t).mapM visit = (tour.children (tour.standing o)).locations.mapM fun located =>
      visit (.ofFrame (t.frame.child located.1 located.2 w.fresh)) := by
  have hkids : w.kids t = (tour.children (tour.standing o)).locations.map fun located =>
      .ofFrame (t.frame.child located.1 located.2 w.fresh) := by
    rw [kids_eq hat.deleted, hw.children, hat.shows.node]
  rw [hkids, List.mapM_map]
  rfl

/-- Any other node: its children are visited in between, if they come to an end. -/
theorem visit_descends (hw : w.Follows tour) {above : List (Task N D)} {t : Task N D}
    {o : Occurrence N} (hat : w.At above t o o.reached) (hrep : o.repeatsAbove = false)
    (hdown : (tour.advice o).descends = true) {levels : Nat}
    (hkid : ∀ {above : List (Task N D)} {t : Task N D} {o : Occurrence N},
      w.At above t o o.reached →
        (w.visit levels above t = .unfinished ∧ ¬ Ends tour.next levels (.visit o))
          ∨ ∃ v, w.visit levels above t = .done v ∧ v.Unrolls tour (levels + 1) o) :
    (w.visit (levels + 1) above t = .unfinished ∧ ¬ Ends tour.next (levels + 1) (.visit o))
      ∨ ∃ v, w.visit (levels + 1) above t = .done v ∧ v.Unrolls tour (levels + 2) o := by
  have hshows := hat.shows
  obtain ⟨t', hcall, hat'⟩ := hw.enters hat hdown
  have hnext := Tour.next_inside hrep hdown
  have hmapM := hw.mapM_kids hat' (w.visit levels (t' :: above))
  rcases Run.mapM_cases fun located (_ : located ∈ (tour.children (tour.standing o)).locations) =>
    hkid (w.at_kid hat' located) with ⟨hrun, located, hlocated, hnot⟩ | ⟨vs, hvs, hunrolls⟩
  · refine .inl ⟨?_, fun hends => hnot ?_⟩
    · simp only [visit, hshows.repeatsAbove, hrep, Bool.false_eq_true, if_false, hcall,
        Run.ofExcept, Run.done_bind, reduceCtorEq, hmapM, hrun, Run.unfinished_bind]
    · refine hends _ (hnext ▸ ?_)
      exact List.mem_append_left _ (List.mem_map_of_mem (List.mem_map_of_mem hlocated))
  · obtain ⟨control, t'', data', hcall', -⟩ := hw.call_other above (t := inPhase .leave t')
      (by simp [inPhase])
    have hcomplete : ∀ edits, w.complete above t' edits = .ok (t', []) := fun edits => by
      simp [complete, hw.merging]
    -- The first callback sees the node as it was reached, the last one what then stood there.
    have hfirst : (TaskContext.mk (inPhase .enter t) above w.rootData).sight.glimpse
        = tour.glimpse (.visit o) := by
      rw [Tour.glimpse, hrep]
      exact (hshows.update { t.frame with phase := .enter } rfl rfl rfl).glimpse.trans
        (congrArg (o.glimpse .enter ·) hshows.node)
    have hlast : (TaskContext.mk (inPhase .leave t') above w.rootData).sight.glimpse
        = tour.glimpse (.leave o) :=
      ((hat'.shows.update { t'.frame with phase := .leave } rfl rfl rfl).glimpse).trans
        (congrArg (o.glimpse .leave ·) hat'.shows.node)
    obtain ⟨hends, hcalls, hentered⟩ := Visit.Unrolls.join hunrolls
    refine .inr ⟨_, by
      simp only [visit, hshows.repeatsAbove, hrep, Bool.false_eq_true, if_false, hcall,
        Run.ofExcept, Run.done_bind, reduceCtorEq, hmapM, hvs, hcomplete, hcall']
      rfl, ?_, ?_, ?_⟩
    · intro new hnew
      rw [hnext, Tour.inside, List.mem_append, List.mem_singleton] at hnew
      rcases hnew with hnew | rfl
      · exact hends new hnew
      · exact List.forall_mem_nil _
    · rw [Tour.unroll_inside hrep hdown]
      simp only [List.cons_append, List.map_cons, List.map_append, List.map_nil, hfirst, hlast,
        hcalls]
      rfl
    · simp only [List.cons_append, List.map_cons, List.map_append, List.map_nil, hfirst, hlast,
        List.countP_cons, List.countP_append, hentered]
      simp [Tour.glimpse, Occurrence.glimpse, hrep]

/-- Every task makes the callbacks of its errand, or there are too few levels. -/
theorem visit (hw : w.Follows tour) : ∀ (levels : Nat) {above : List (Task N D)} {t : Task N D}
    {o : Occurrence N}, w.At above t o o.reached →
      (w.visit levels above t = .unfinished ∧ ¬ Ends tour.next levels (.visit o))
        ∨ ∃ v, w.visit levels above t = .done v ∧ v.Unrolls tour (levels + 1) o := by
  intro levels
  induction levels with
  | zero => exact fun _ => .inl ⟨rfl, fun h => h⟩
  | succ levels ih =>
    intro above t o hat
    cases hrep : o.repeatsAbove with
    | true => exact .inr (hw.visit_repeats hat hrep levels)
    | false =>
      cases hdown : (tour.advice o).descends with
      | false => exact .inr (hw.visit_aborts hat hrep hdown levels)
      | true => exact hw.visit_descends hat hrep hdown ih

end ForkJoin.Follows

end

section Main

variable {N D E F S T : Type} [Identified N] {tour : Tour N}

omit [Identified N] in
/-- The root of a fork-join walk is where the plan begins. -/
theorem ForkJoin.at_root (w : ForkJoin N D) (root : N) :
    w.At [] (.ofFrame (.root root w.fresh)) (.root root) root :=
  ⟨.root root w.fresh w.rootData, rfl⟩

/-- If a fork-join walk comes to an end, all that comes of the root's visit ends. -/
theorem ForkJoin.Follows.ends {w : ForkJoin N D} (hw : w.Follows tour) {root : N} {levels : Nat}
    (h : w.walk levels root ≠ .unfinished) :
    ∃ levels, Ends tour.next levels (.visit (.root root)) := by
  rcases hw.visit levels (w.at_root root) with ⟨hunfinished, -⟩ | ⟨v, -, hv⟩
  · exact absurd hunfinished h
  · exact ⟨levels + 1, hv.ends⟩

/-- What a fork-join walk comes to if all that comes of its root's visit ends. -/
theorem ForkJoin.Follows.walk {w : ForkJoin N D} (hw : w.Follows tour) {root : N} {levels : Nat}
    (hends : Ends tour.next levels (.visit (.root root))) :
    ∃ v, Run.Settles (fun levels => w.walk levels root) (.done v)
      ∧ (v.calls.map fun c => c.sight.glimpse)
        = (unroll tour.next levels (.visit (.root root))).map tour.glimpse
      ∧ v.entered = (v.calls.map fun c => c.sight.glimpse).countP fun g => g.phase = .enter := by
  rcases hw.visit levels (w.at_root root) with ⟨-, hnot⟩ | ⟨v, hv, hunrolls⟩
  · exact absurd hends hnot
  · exact ⟨v, ⟨by simp, levels, hv⟩, by rw [hunrolls.calls, hends.unroll_succ], hunrolls.entered⟩

/-- Walks with one plan visit the same occurrences: two walks with a work list, each with
the order in which it takes its items, depth first or breadth first, and a fork-join walk.
If one of them comes to an end then all do, and no callback quits.  They make the same
callbacks, which see the same node, the same node as first reached, the same depth,
location and breadcrumbs; no path comes twice in one phase; and they count the same number
of nodes entered. -/
theorem walks_visit_alike {s : Traversal N D S} {q : Traversal N E T} {w : ForkJoin N F}
    (hs : s.Follows tour) (hq : q.Follows tour) (hw : w.Follows tour) (root : N) (state : S)
    (state' : T)
    (hfinite : (∃ limit, s.walk limit [root] state ≠ .unfinished)
      ∨ (∃ limit, q.walk limit [root] state' ≠ .unfinished)
      ∨ ∃ levels, w.walk levels root ≠ .unfinished) :
    ∃ l m v,
      Run.Settles (fun limit => s.logged.walk limit [root] ([], state)) (.done l)
      ∧ Run.Settles (fun limit => s.walk limit [root] state) (.done l.unlogged)
      ∧ Run.Settles (fun limit => q.logged.walk limit [root] ([], state')) (.done m)
      ∧ Run.Settles (fun limit => q.walk limit [root] state') (.done m.unlogged)
      ∧ Run.Settles (fun levels => w.walk levels root) (.done v)
      ∧ l.quit = false ∧ m.quit = false
      ∧ (l.state.1.map fun c => c.sight.glimpse).Perm (m.state.1.map fun c => c.sight.glimpse)
      ∧ (l.state.1.map fun c => c.sight.glimpse).Perm (v.calls.map fun c => c.sight.glimpse)
      ∧ (l.state.1.map fun c => c.sight.glimpse.key).Nodup
      ∧ l.entered = m.entered ∧ l.entered = v.entered := by
  obtain ⟨levels, hends⟩ : ∃ levels, Ends tour.next levels (.visit (.root root)) := by
    rcases hfinite with ⟨limit, h⟩ | ⟨limit, h⟩ | ⟨levels, h⟩
    · exact hs.ends h
    · exact hq.ends h
    · exact hw.ends h
  obtain ⟨l, hl, hlquit, hlperm, hlentered⟩ := hs.walk hends state
  obtain ⟨m, hm, hmquit, hmperm, hmentered⟩ := hq.walk hends state'
  obtain ⟨v, hv, hcalls, hventered⟩ := hw.walk hends
  rw [← hcalls] at hlperm hmperm
  have hsame := hlperm.trans hmperm.symm
  refine ⟨l, m, v, hl, s.settles_unlogged hl, hm, q.settles_unlogged hm, hv, hlquit, hmquit, hsame,
    hlperm, ?_, ?_, ?_⟩
  · have hkeys := hlperm.map Glimpse.key
    rw [hcalls, List.map_map, List.map_map] at hkeys
    exact hkeys.nodup_iff.2 Tour.nodup_keys
  · rw [hlentered, hmentered, hsame.countP_eq]
  · rw [hlentered, hventered, hlperm.countP_eq]

/-- A visitor that goes by a plan and counts its callbacks. -/
def Tour.walking (tour : Tour N) (order : TraversalOrder) : Traversal N Nat Nat where
  children := tour.children
  order := order
  visitor := fun c n =>
    let a := if c.sight.frame.phase = .enter then tour.advice c.sight.occurrence else ⟨false, none⟩
    .ok ⟨a.control, a.change.getD c.sight.frame.node, false, n, n + 1⟩
  fresh := 0
  rootData := 0

/-- The same in a fork-join walk, without the count. -/
def Tour.forking (tour : Tour N) : ForkJoin N Unit where
  children := tour.children
  visitor := fun c =>
    let a := if c.sight.frame.phase = .enter then tour.advice c.sight.occurrence else ⟨false, none⟩
    .ok ⟨a.control, a.change.toList.map .change, ()⟩
  merging := none
  run := 0
  fresh := ()
  rootData := ()

omit [Identified N] in
theorem Tour.walking_follows (tour : Tour N) (order : TraversalOrder) :
    (tour.walking order).Follows tour where
  children := rfl
  enter c n hphase := ⟨n, n + 1, by simp only [walking, hphase, if_true]⟩
  others c n hphase := ⟨.abort, n, n + 1, by simp, by simp only [walking, hphase, if_false]; rfl⟩

omit [Identified N] in
theorem Tour.forking_follows (tour : Tour N) : tour.forking.Follows tour where
  children := rfl
  merging := rfl
  enter c hphase := ⟨(), by simp only [forking, hphase, if_true]⟩
  others c hphase := ⟨.abort, (), by simp, by simp only [forking, hphase, if_false]; rfl⟩

/-- Below node 0 of the knotted graph the first node 1 is not descended into, and the
second one is replaced by node 2. -/
def signposted : Tour NodeIndex where
  children := knotted
  advice := fun o =>
    if o.path = [.unnamed 1] then ⟨false, none⟩
    else if o.path = [.unnamed 2] then ⟨true, some ⟨2⟩⟩
    else ⟨true, none⟩

/-- All three walks come to an end and make the same callbacks, with one node left out and
another one put in the place of a child. -/
theorem signposted_walks_alike :
    ∃ l m v,
      Run.Settles (fun limit => (signposted.walking .depthFirst).walk limit [⟨0⟩] 0)
        (.done (Worklist.unlogged l))
      ∧ Run.Settles (fun limit => (signposted.walking .breadthFirst).walk limit [⟨0⟩] 0)
        (.done (Worklist.unlogged m))
      ∧ Run.Settles (fun levels => signposted.forking.walk levels ⟨0⟩) (.done v)
      ∧ (l.state.1.map fun c => c.sight.glimpse).Perm (m.state.1.map fun c => c.sight.glimpse)
      ∧ (l.state.1.map fun c => c.sight.glimpse).Perm (v.calls.map fun c => c.sight.glimpse) := by
  have hfinite : signposted.forking.walk 3 ⟨0⟩ ≠ .unfinished := by decide
  obtain ⟨l, m, v, -, hl, -, hm, hv, -, -, hlm, hlv, -⟩ := walks_visit_alike
    (signposted.walking_follows .depthFirst) (signposted.walking_follows .breadthFirst)
    signposted.forking_follows ⟨0⟩ 0 0 (.inr (.inr ⟨3, hfinite⟩))
  exact ⟨l, m, v, hl, hm, hv, hlm, hlv⟩

end Main

end Topiary
