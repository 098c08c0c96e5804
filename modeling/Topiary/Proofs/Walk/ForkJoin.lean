/-
Topiary.Proofs.Walk.ForkJoin — what the walks explore of a graph with cycles.

A fork-join walk goes down all at once: each node visits its children on its own and
waits for them.  With a visitor that leaves the nodes alone, a task and everything
below it make the callbacks of `unfolding`, in this order.

* `Edit.IsInsertion`, `ForkJoin.Passive` — visitors that leave the nodes alone and
  go on.
* `ForkJoin.Unfolds` — what the visit of a task comes to.
* `ForkJoin.exists_visit` — each task comes to this, if it has enough levels.
* `walks_explore_graph` — the work list in either order and the fork-join walk
  explore a finite graph.
-/
import Topiary.Parallel.Walk
import Topiary.Proofs.Parallel.Task
import Topiary.Proofs.Walk.Exploration

namespace Topiary

/-! ## Passive visitors -/

/-- The edit puts a sibling next to the node. -/
def Edit.IsInsertion {N : Type} : Edit N → Prop
  | .insertBefore _ => True
  | .insertAfter _ => True
  | _ => False

/-- Insertions are noted and leave the frame alone. -/
theorem Task.editAll_insertions {N D : Type} (isRoot : Bool) {edits : List (Edit N)}
    (hedits : ∀ e ∈ edits, e.IsInsertion) (hroot : isRoot = true → edits = []) {t : Task N D}
    (hdeleted : t.frame.deleted = false) :
    ∃ t', t.editAll isRoot edits = .ok t' ∧ t'.frame = t.frame := by
  induction edits generalizing t with
  | nil => exact ⟨t, rfl, rfl⟩
  | cons e es ih =>
    have hbelow : isRoot = false := by
      cases isRoot with
      | false => rfl
      | true => exact absurd (hroot rfl) (List.cons_ne_nil _ _)
    subst hbelow
    rw [List.forall_mem_cons] at hedits
    have hinsert : ∀ kind node, ∃ t', t.insert false kind node = .ok t' ∧ t'.frame = t.frame :=
      fun kind node => ⟨{ t with edits := t.edits ++ [(kind, node)] },
        by simp [Task.insert, hdeleted], rfl⟩
    obtain ⟨t', hedit, hframe⟩ : ∃ t', t.edit false e = .ok t' ∧ t'.frame = t.frame := by
      cases e with
      | insertBefore node => exact hinsert .insertBefore node
      | insertAfter node => exact hinsert .insertAfter node
      | change node => exact hedits.1.elim
      | delete => exact hedits.1.elim
    obtain ⟨t'', hrest, hframe'⟩ := ih hedits.2 (fun h => nomatch h) (t := t') (hframe ▸ hdeleted)
    exact ⟨t'', by simp [Task.editAll, hedit, hrest, bind, Except.bind], hframe'.trans hframe⟩

namespace ForkJoin

variable {N D : Type}

/-- A callback touches nothing in a frame but the node, the mark of deletion and the
data. -/
theorem frame_of_call {w : ForkJoin N D} {above : List (Task N D)} {t t' : Task N D}
    {control : Control} (h : w.call above t = .ok (control, t')) :
    ∃ data, t'.frame
      = { t.frame with node := t'.frame.node, deleted := t'.frame.deleted, data } := by
  unfold call at h
  cases hvisit : w.visitor ⟨t, above, w.rootData⟩ with
  | error f => simp [hvisit, bind, Except.bind] at h
  | ok a =>
    cases hedit : t.editAll above.isEmpty a.edits with
    | error f => simp [hvisit, hedit, bind, Except.bind] at h
    | ok t₁ =>
      by_cases hquit : a.control = .quit
      · simp [hvisit, hedit, hquit, bind, Except.bind, throw, throwThe, MonadExceptOf.throw] at h
      · simp only [hvisit, hedit, hquit, if_false, bind, Except.bind, pure, Except.pure,
          Except.ok.injEq, Prod.mk.injEq] at h
        obtain ⟨-, rfl⟩ := h
        exact ⟨a.data, by rw [Task.frame_of_editAll hedit]⟩

/-- Merging touches nothing in a frame but the node. -/
theorem frame_of_complete {w : ForkJoin N D} {above : List (Task N D)} {t t' : Task N D}
    {edits : List (ChildEdit N)} {copies : List (Rebuild N)}
    (h : w.complete above t edits = .ok (t', copies)) :
    t'.frame = { t.frame with node := t'.frame.node } := by
  unfold complete at h
  split at h
  · next A e es _ =>
    cases hedit : (A.children t.frame.node).editBy .integers (e :: es) with
    | error f => simp [hedit, bind, Except.bind] at h
    | ok c =>
      simp only [hedit, bind, Except.bind, pure, Except.pure, Except.ok.injEq, Prod.mk.injEq] at h
      obtain ⟨rfl, -⟩ := h
      rfl
  · obtain ⟨rfl, -⟩ := Prod.mk.inj (Except.ok.inj h)
    rfl

/-- The walk merges no edits, and its visitor makes none but insertions, none of them
around the root, and always goes on. -/
def Passive (w : ForkJoin N D) : Prop :=
  w.merging = none ∧ ∀ c, ∃ edits data, w.visitor c = .ok ⟨.proceed, edits, data⟩
    ∧ (∀ e ∈ edits, e.IsInsertion) ∧ (c.above = [] → edits = [])

/-- A callback changes nothing in a frame but its data. -/
theorem Passive.call {w : ForkJoin N D} (hw : w.Passive) (above : List (Task N D))
    {t : Task N D} (hdeleted : t.frame.deleted = false) :
    ∃ t' data, w.call above t = .ok (.proceed, t') ∧ t'.frame = { t.frame with data } := by
  obtain ⟨edits, data, hvisit, hedits, hroot⟩ := hw.2 ⟨t, above, w.rootData⟩
  obtain ⟨t', hedit, hframe⟩ := Task.editAll_insertions above.isEmpty hedits
    (fun h => hroot (List.isEmpty_iff.1 h)) hdeleted
  refine ⟨{ t' with frame := { t'.frame with data } }, data, ?_, by rw [hframe]⟩
  simp [ForkJoin.call, hvisit, hedit, bind, Except.bind, pure, Except.pure]

end ForkJoin

/-! ## One task -/

/-- The way to a task below others. -/
def Task.way {N D : Type} (above : List (Task N D)) (t : Task N D) : Way N :=
  ⟨(Sight.crumbsBelow t.frame (above.map Task.frame)).map Breadcrumb.location,
    t.frame.node :: above.map fun p => p.frame.node⟩

/-- The way is the same after a callback and in another phase. -/
theorem Task.way_congr {N D : Type} (above : List (Task N D)) {t t' : Task N D}
    (hnode : t'.frame.node = t.frame.node) (hlocation : t'.frame.location = t.frame.location) :
    t'.way above = t.way above := by
  cases above with
  | nil => simp [way, Sight.crumbsBelow, hnode]
  | cons p above => simp [way, Sight.crumbsBelow, hnode, hlocation]

/-- The place at which a task is shown, for its phase; a fork-join walk has one root. -/
def TaskContext.mark {N D : Type} (c : TaskContext N D) : Mark :=
  ⟨0, c.sight.path, c.sight.frame.phase⟩

/-- What a callback sees of a task. -/
theorem TaskContext.mark_eq {N D : Type} (above : List (Task N D)) (rootData : D) (t t' : Task N D)
    (hnode : t'.frame.node = t.frame.node) (hlocation : t'.frame.location = t.frame.location) :
    (TaskContext.mk t' above rootData).mark = ⟨0, (t.way above).path, t'.frame.phase⟩
      ∧ (⟨(TaskContext.mk t' above rootData).sight.path,
          (TaskContext.mk t' above rootData).sight.nodes⟩ : Way N) = t.way above := by
  have hway : (⟨(TaskContext.mk t' above rootData).sight.path,
      (TaskContext.mk t' above rootData).sight.nodes⟩ : Way N) = t'.way above := by
    simp [TaskContext.sight, Sight.path, Sight.crumbs, Sight.nodes, Sight.nodesAbove, Task.way]
  rw [Task.way_congr above hnode hlocation] at hway
  exact ⟨congrArg (Mark.mk 0 · _) (congrArg Way.path hway), hway⟩

namespace ForkJoin

variable {N D : Type} [Identified N]

/-- The visit of a task makes the callbacks at its node and below it. -/
structure Unfolds (w : ForkJoin N D) (levels : Nat) (way : Way N) (above : List N) (node : N)
    (v : Visit N D) : Prop where
  calls : v.calls.map TaskContext.mark = unfolding w.children 0 levels way.path above node
  entered : v.entered = (v.calls.map TaskContext.mark).countP fun mark => mark.phase = .enter
  /-- The visitor sees the nodes along the paths. -/
  sees : ∀ c ∈ v.calls, Relation.ReflTransGen (Way.Step w.children) way
    ⟨c.sight.path, c.sight.nodes⟩

variable {w : ForkJoin N D} {ids : List NodeId} {levels : Nat} {above : List (Task N D)}
  {t : Task N D}

/-- The visits of children, one after the other. -/
theorem Unfolds.exists_mapM {visit : Location × N → Run (Visit N D)} {path : List Location}
    {nodes : List N} {kids : List (Location × N)}
    (h : ∀ located ∈ kids, ∃ v, visit located = .done v
      ∧ w.Unfolds levels ⟨located.1 :: path, located.2 :: nodes⟩ nodes located.2 v) :
    ∃ vs, kids.mapM visit = .done vs
      ∧ (vs.flatMap Visit.calls).map TaskContext.mark = kids.flatMap (fun located =>
          unfolding w.children 0 levels (located.1 :: path) nodes located.2)
      ∧ (vs.map Visit.entered).foldr (· + ·) 0 = ((vs.flatMap Visit.calls).map TaskContext.mark).countP
          (fun mark => mark.phase = .enter)
      ∧ ∀ c ∈ vs.flatMap Visit.calls, ∃ located ∈ kids, Relation.ReflTransGen
          (Way.Step w.children) ⟨located.1 :: path, located.2 :: nodes⟩
          ⟨c.sight.path, c.sight.nodes⟩ := by
  induction kids with
  | nil => exact ⟨[], rfl, rfl, rfl, fun c hc => absurd hc List.not_mem_nil⟩
  | cons located kids ih =>
    obtain ⟨⟨v, hv, hunfolds⟩, hothers⟩ := List.forall_mem_cons.1 h
    obtain ⟨vs, hvs, hcalls, hentered, hsees⟩ := ih hothers
    refine ⟨v :: vs, by simp [List.mapM_cons, hv, hvs], ?_, ?_, fun c hc => ?_⟩
    · rw [List.flatMap_cons, List.map_append, hunfolds.calls, hcalls, List.flatMap_cons]
    · rw [List.map_cons, List.foldr_cons, hunfolds.entered, hentered, List.flatMap_cons,
        List.map_append, List.countP_append]
    · rcases List.mem_append.1 hc with hc | hc
      · exact ⟨located, List.mem_cons_self .., hunfolds.sees c hc⟩
      · obtain ⟨other, hother, hsteps⟩ := hsees c hc
        exact ⟨other, List.mem_cons_of_mem _ hother, hsteps⟩

omit [Identified N] in
theorem kids_eq (hdeleted : t.frame.deleted = false) :
    w.kids t = (w.children t.frame.node).locations.map fun located =>
      .ofFrame (t.frame.child located.1 located.2 w.fresh) := by
  simp only [kids, hdeleted, Frame.kids, List.map_map]
  rfl

theorem repeatsAbove_iff (w : ForkJoin N D) (above : List (Task N D)) (t : Task N D) :
    (Sight.mk t.frame (above.map Task.frame) w.rootData).repeatsAbove = true
      ↔ nodeId t.frame.node ∈ (above.map fun p => p.frame.node).map nodeId := by
  rw [← any_sameId_iff, List.any_map, Sight.repeatsAbove, List.any_map]
  rfl

/-- A node that repeats one above it: its back reference. -/
theorem exists_visit_of_repeats (hw : w.Passive) (hdeleted : t.frame.deleted = false)
    (hrep : nodeId t.frame.node ∈ (above.map fun p => p.frame.node).map nodeId) :
    ∃ v, w.visit (levels + 1) above t = .done v
      ∧ w.Unfolds (levels + 1) (t.way above) (above.map fun p => p.frame.node) t.frame.node v := by
  obtain ⟨t', data, hcall, -⟩ := hw.call above
    (t := inPhase .backRef { t with frame := { t.frame with visited := true } }) hdeleted
  obtain ⟨hmark, hway⟩ := TaskContext.mark_eq above w.rootData t
    (inPhase .backRef { t with frame := { t.frame with visited := true } }) rfl rfl
  have hunfolding : unfolding w.children 0 (levels + 1) (t.way above).path
      (above.map fun p => p.frame.node) t.frame.node = [⟨0, (t.way above).path, .backRef⟩] := by
    rw [unfolding, if_pos ((any_sameId_iff _ _).2 hrep)]
  refine ⟨_, by simp only [visit, (w.repeatsAbove_iff above t).2 hrep, if_true, hcall]; rfl,
    ?_, ?_, ?_⟩
  · rw [hunfolding, List.map_singleton, hmark]
    rfl
  · rw [List.map_singleton, hmark]
    rfl
  · intro c hc
    obtain rfl := List.mem_singleton.1 hc
    rw [hway]

/-- Any other node: it is entered, then its children are visited, then it is left. -/
theorem exists_visit_of_simple (hw : w.Passive) (hdeleted : t.frame.deleted = false)
    (hrep : nodeId t.frame.node ∉ (above.map fun p => p.frame.node).map nodeId)
    (hkids : ∀ t' : Task N D, t'.frame.node = t.frame.node →
      t'.frame.location = t.frame.location → ∀ located ∈ (w.children t.frame.node).locations,
        ∃ v, w.visit levels (t' :: above)
            (.ofFrame (t'.frame.child located.1 located.2 w.fresh)) = .done v
          ∧ w.Unfolds levels ⟨located.1 :: (t.way above).path, located.2 :: (t.way above).nodes⟩
            (t.way above).nodes located.2 v) :
    ∃ v, w.visit (levels + 1) above t = .done v
      ∧ w.Unfolds (levels + 1) (t.way above) (above.map fun p => p.frame.node) t.frame.node v := by
  obtain ⟨t', data, hcall, hframe⟩ := hw.call above (t := inPhase .enter t) hdeleted
  have hnode : t'.frame.node = t.frame.node := by rw [hframe]; rfl
  have hlocation : t'.frame.location = t.frame.location := by rw [hframe]; rfl
  have hdeleted' : t'.frame.deleted = false := by rw [hframe]; exact hdeleted
  obtain ⟨t'', data', hcall', -⟩ := hw.call above (t := inPhase .leave t') hdeleted'
  obtain ⟨henter, henterway⟩ := TaskContext.mark_eq above w.rootData t (inPhase .enter t) rfl rfl
  obtain ⟨hleave, hleaveway⟩ := TaskContext.mark_eq above w.rootData t (inPhase .leave t') hnode
    hlocation
  obtain ⟨vs, hvs, hcalls, hentered, hsees⟩ := Unfolds.exists_mapM (hkids t' hnode hlocation)
  have hmapM : (w.kids t').mapM (w.visit levels (t' :: above)) = .done vs := by
    rw [kids_eq hdeleted', hnode, List.mapM_map]
    exact hvs
  have hcomplete : ∀ edits, w.complete above t' edits = .ok (t', []) := fun edits => by
    simp [complete, hw.1]
  have hunfolding : unfolding w.children 0 (levels + 1) (t.way above).path
      (above.map fun p => p.frame.node) t.frame.node
      = ⟨0, (t.way above).path, .enter⟩ :: (vs.flatMap Visit.calls).map TaskContext.mark
        ++ [⟨0, (t.way above).path, .leave⟩] := by
    rw [unfolding, if_neg (mt (any_sameId_iff _ _).1 hrep), hcalls]
    rfl
  refine ⟨_, by
    simp only [visit, mt (w.repeatsAbove_iff above t).1 hrep, if_false, hcall, Run.ofExcept,
      Run.done_bind, hmapM, hcomplete, hcall', reduceCtorEq]
    rfl, ?_, ?_, ?_⟩
  · rw [hunfolding, List.map_append, List.map_cons, List.map_singleton, henter, hleave]
    rfl
  · rw [List.map_append, List.map_cons, List.map_singleton, henter, hleave, List.countP_append,
      List.countP_cons, ← hentered]
    rfl
  · intro c hc
    simp only [List.cons_append, List.mem_cons, List.mem_append, List.not_mem_nil, or_false] at hc
    rcases hc with rfl | hc | rfl
    · rw [henterway]
    · obtain ⟨located, hlocated, hsteps⟩ := hsees c hc
      exact .head (.down hlocated) hsteps
    · rw [hleaveway]

/-- The visit of a task comes to an end if there are as many levels as nodes that are
not above it. -/
theorem exists_visit (hw : w.Passive) (hids : StaysIn w.children ids) {levels : Nat} :
    ∀ {above : List (Task N D)} {t : Task N D}, t.frame.deleted = false →
      ((above.map fun p => p.frame.node).map nodeId).Nodup →
      (∀ node ∈ t.frame.node :: above.map fun p => p.frame.node, nodeId node ∈ ids) →
      ids.length < levels + above.length →
      ∃ v, w.visit levels above t = .done v
        ∧ w.Unfolds levels (t.way above) (above.map fun p => p.frame.node) t.frame.node v := by
  induction levels with
  | zero =>
    intro above t _ hnodup hmem hlevels
    have hlength := length_le_of_nodup hnodup fun node hnode =>
      hmem node (List.mem_cons_of_mem _ hnode)
    rw [List.length_map] at hlength
    omega
  | succ levels ih =>
    intro above t hdeleted hnodup hmem hlevels
    by_cases hrep : nodeId t.frame.node ∈ (above.map fun p => p.frame.node).map nodeId
    · exact exists_visit_of_repeats hw hdeleted hrep
    · refine exists_visit_of_simple hw hdeleted hrep fun t' hnode hlocation located hlocated => ?_
      have habove : (t' :: above).map (fun p => p.frame.node) = (t.way above).nodes :=
        congrArg (· :: _) hnode
      have hway : Task.way (t' :: above) (.ofFrame (t'.frame.child located.1 located.2 w.fresh))
          = ⟨located.1 :: (t.way above).path, located.2 :: (t.way above).nodes⟩ := by
        rw [← Task.way_congr above hnode hlocation]
        rfl
      have hkid : ∀ node ∈ located.2 :: (t.way above).nodes, nodeId node ∈ ids :=
        List.forall_mem_cons.2 ⟨hids _ (hmem _ (List.mem_cons_self ..)) _ hlocated, hmem⟩
      rw [← hway, ← habove]
      refine ih rfl ?_ ?_ ?_
      · rw [habove]
        exact List.nodup_cons.2 ⟨hrep, hnodup⟩
      · rw [habove]
        exact hkid
      · rw [List.length_cons]
        omega

/-- A passive visitor is called exactly for the callbacks of the graph, and sees the
nodes along the paths. -/
theorem explores_walk (hw : w.Passive) (hids : StaysIn w.children ids) {root : N}
    (hroot : nodeId root ∈ ids) :
    ∃ v, Run.Settles (fun limit => w.walk limit root) (.done v)
      ∧ Explores w.children [root] (v.calls.map TaskContext.mark) v.entered
      ∧ ∀ c ∈ v.calls, Descends w.children [root] 0 ⟨c.sight.path, c.sight.nodes⟩ := by
  have hroots : ∀ node ∈ [root], nodeId node ∈ ids := by simpa using hroot
  obtain ⟨v, hv, hunfolds⟩ : ∃ v, w.walk (ids.length + 1) root = .done v
      ∧ w.Unfolds (ids.length + 1) (.root root) [] root v :=
    exists_visit hw hids rfl List.nodup_nil hroots (Nat.lt_succ_self _)
  have hall : v.calls.map TaskContext.mark = unfoldings w.children ids.length [root] := by
    rw [hunfolds.calls]
    exact (List.append_nil _).symm
  have hexplores := explores_of_perm hids hroots (.of_eq hall) fun i path hmem => by
    rw [hunfolds.calls] at hmem ⊢
    obtain rfl : i = 0 := (of_mem_unfolding hmem).1
    exact later_unfolding hmem
  rw [← hunfolds.entered] at hexplores
  exact ⟨v, ⟨by simp, _, hv⟩, hexplores, fun c hc => ⟨root, rfl, hunfolds.sees c hc⟩⟩

end ForkJoin

/-! ## Finite graphs -/

/-- The references to the nodes of an arena are closed under going down. -/
theorem staysIn_arena {children : NodeIndex → NamedChildren NodeIndex} {size : Nat}
    (h : ∀ i < size, ∀ located ∈ (children ⟨i⟩).locations, located.2.index < size) :
    StaysIn children ((List.range size).map .given) := by
  intro node hnode located hlocated
  obtain ⟨i, hi, hgiven⟩ := List.mem_map.1 hnode
  obtain rfl : i = node.index := NodeId.given.inj hgiven
  exact List.mem_map_of_mem (List.mem_range.2 (h _ (List.mem_range.1 hi) _ hlocated))

section Main

variable {N D E S : Type} [Identified N]

/-- In a finite graph the walks come to an end, for a visitor that leaves the nodes alone
and always goes on: the walk with a work list in either order, from any roots, and the
fork-join walk from one root.  They enter and later leave each path on which no node
occurs twice exactly once, and call each path that ends with its first repetition a back
reference exactly once; they call nothing else and count the paths that they enter. -/
theorem walks_explore_graph (t : Traversal N D S) (w : ForkJoin N E) (ht : t.Passive)
    (hw : w.Passive) (hsame : w.children = t.children) {ids : List NodeId}
    (hids : StaysIn t.children ids) (roots : List N) (hroots : ∀ root ∈ roots, nodeId root ∈ ids)
    (state : S) :
    (∃ l, Run.Settles (fun limit => t.logged.walk limit roots ([], state)) (.done l)
      ∧ Run.Settles (fun limit => t.walk limit roots state) (.done l.unlogged)
      ∧ l.quit = false
      ∧ Explores t.children roots (l.state.1.map Context.mark) l.entered
      ∧ ∀ c ∈ l.state.1, Descends t.children roots c.mark.root ⟨c.mark.path, c.sight.nodes⟩)
    ∧ ∀ root, nodeId root ∈ ids → ∃ v, Run.Settles (fun limit => w.walk limit root) (.done v)
      ∧ Explores t.children [root] (v.calls.map TaskContext.mark) v.entered
      ∧ ∀ c ∈ v.calls, Descends t.children [root] 0 ⟨c.sight.path, c.sight.nodes⟩ := by
  constructor
  · obtain ⟨l, hsettles, hquit, hexplores, hsees⟩ := Traversal.explores_walk ht hids hroots state
    exact ⟨l, hsettles, t.settles_unlogged hsettles, hquit, hexplores, hsees⟩
  · intro root hroot
    rw [← hsame] at hids ⊢
    exact ForkJoin.explores_walk hw hids hroot

/-- Node 0 has itself and, twice, node 1 below it, and node 1 has node 0 below it. -/
def knotted (node : NodeIndex) : NamedChildren NodeIndex :=
  .unnamed (if node.index = 0 then [⟨0⟩, ⟨1⟩, ⟨1⟩] else [⟨0⟩])

/-- A visitor that counts its callbacks and keeps the count where it is. -/
def Traversal.counting (order : TraversalOrder) : Traversal NodeIndex Nat Nat where
  children := knotted
  order := order
  visitor := fun c n => .ok ⟨.proceed, c.sight.frame.node, false, n, n + 1⟩
  fresh := 0
  rootData := 0

/-- A visitor that asks for a copy before each node but the root. -/
def ForkJoin.doubling : ForkJoin NodeIndex Unit where
  children := knotted
  visitor := fun c =>
    .ok ⟨.proceed, if c.above.isEmpty then [] else [.insertBefore c.task.frame.node], ()⟩
  merging := none
  run := 0
  fresh := ()
  rootData := ()

theorem staysIn_knotted : StaysIn knotted ((List.range 2).map .given) := by
  refine staysIn_arena fun i hi located hlocated => ?_
  have hall : ∀ i < 2, ∀ located ∈ (knotted ⟨i⟩).locations, located.2.index < 2 := by decide
  exact hall i hi located hlocated

/-- Both occurrences of node 1 below node 0 are entered, and that of node 0 is a back
reference. -/
theorem knotted_walks_explore :
    (∃ l, Run.Settles (fun limit =>
          (Traversal.counting .breadthFirst).walk limit [⟨1⟩, ⟨0⟩] 0) (.done (Worklist.unlogged l))
        ∧ ∀ index, index = 1 ∨ index = 2 →
          ⟨1, [.unnamed index], .enter⟩ ∈ l.state.1.map Context.mark)
      ∧ ∃ v, Run.Settles (fun limit => ForkJoin.doubling.walk limit ⟨0⟩) (.done v)
        ∧ ⟨0, [.unnamed 0], .backRef⟩ ∈ v.calls.map TaskContext.mark := by
  have hcounting : (Traversal.counting .breadthFirst).Passive := fun c n => ⟨n, n + 1, rfl⟩
  have hdoubling : ForkJoin.doubling.Passive := by
    refine ⟨rfl, fun c => ⟨_, _, rfl, ?_, fun h => by simp [h]⟩⟩
    cases c.above <;> simp [Edit.IsInsertion]
  obtain ⟨⟨l, -, hwalk, -, hl, -⟩, hforkJoin⟩ := walks_explore_graph
    (Traversal.counting .breadthFirst) ForkJoin.doubling hcounting hdoubling rfl staysIn_knotted
    [⟨1⟩, ⟨0⟩] (by decide) 0
  obtain ⟨v, hv, hexplores, -⟩ := hforkJoin ⟨0⟩ (by decide)
  refine ⟨⟨l, hwalk, fun index hindex => (hl.enter_iff _ _).2 ?_⟩,
    v, hv, (hexplores.backRef_iff _ _).2 ?_⟩
  · have hdown : (Location.unnamed index, (⟨1⟩ : NodeIndex)) ∈ (knotted ⟨0⟩).locations := by
      rcases hindex with rfl | rfl <;> decide
    refine ⟨[⟨1⟩, ⟨0⟩], ⟨⟨0⟩, rfl, .single (.down hdown)⟩, ?_⟩
    show (([⟨1⟩, ⟨0⟩] : List NodeIndex).map nodeId).Nodup
    decide
  · have hdown : (Location.unnamed 0, (⟨0⟩ : NodeIndex)) ∈ (knotted ⟨0⟩).locations := by decide
    exact ⟨[⟨0⟩, ⟨0⟩], ⟨⟨0⟩, rfl, .single (.down hdown)⟩, ⟨0⟩, [⟨0⟩], rfl, by decide, by decide⟩

end Main

end Topiary
