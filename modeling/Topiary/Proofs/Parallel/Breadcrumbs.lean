/-
Topiary.Proofs.Parallel.Breadcrumbs — breadcrumbs in a fork-join walk, and in every walk.

A task that was forked waits for its children, so nothing above a task changes as long
as it is on its way, in whatever order the tasks run.

* `ForkJoin.Offers` — the contexts that the next callback of a strand may be made on.
* `Strand.Hangs` — the invariant: each task on its way hangs below those above it.
* `Step.hangs`, `Runs.hangs` — one callback, and any number of them.
* `callbacks_retrace_their_paths` — the breadcrumbs in all callbacks of all walks.
-/
import Mathlib.Data.List.Permutation
import Topiary.Proofs.Parallel.Interleaving
import Topiary.Proofs.Walk.Alike
import Topiary.Proofs.Walk.Breadcrumbs
import Topiary.Proofs.Walk.ForkJoin

namespace Topiary

variable {N D S : Type}

/-! ## Strands -/

namespace ForkJoin

/-- The contexts on which the next callback of a strand may be made, be it that this fails
or not.  Where several tasks wait, any of them may be the next one. -/
inductive Offers [Identified N] (w : ForkJoin N D) :
    List (Task N D) → Strand N D → TaskContext N D → Prop
  | backRef {above : List (Task N D)} {t : Task N D}
    (repeats : (Sight.mk t.frame (above.map Task.frame) w.rootData).repeatsAbove = true) :
    Offers w above (.waiting t) ⟨asBackRef t, above, w.rootData⟩
  | enter {above : List (Task N D)} {t : Task N D}
    (fresh : (Sight.mk t.frame (above.map Task.frame) w.rootData).repeatsAbove = false) :
    Offers w above (.waiting t) ⟨inPhase .enter t, above, w.rootData⟩
  | inner {above : List (Task N D)} {t : Task N D} {kids : List (Strand N D)} {kid : Strand N D}
    {c : TaskContext N D} (mem : kid ∈ kids) (offers : Offers w (t :: above) kid c) :
    Offers w above (.forked t kids) c
  | leave {above : List (Task N D)} {t t' : Task N D} {joined : List (Task N D)}
    {copies : List (Rebuild N)}
    (completed : w.complete above t (joined.flatMap Task.toChildEdits) = .ok (t', copies)) :
    Offers w above (.forked t (joined.map .finished)) ⟨inPhase .leave t', above, w.rootData⟩

end ForkJoin

/-- Each task that is on its way hangs below the tasks above it. -/
inductive Strand.Hangs (children : N → NamedChildren N) : List (Task N D) → Strand N D → Prop
  | waiting {above : List (Task N D)} {t : Task N D}
    (hangs : t.frame.Hangs children (above.map Task.frame)) : Hangs children above (.waiting t)
  | forked {above : List (Task N D)} {t : Task N D} {kids : List (Strand N D)}
    (hangs : t.frame.Hangs children (above.map Task.frame))
    (inner : ∀ kid ∈ kids, Hangs children (t :: above) kid) : Hangs children above (.forked t kids)
  | finished {above : List (Task N D)} {t : Task N D} : Hangs children above (.finished t)

namespace ForkJoin

variable {w : ForkJoin N D} {above : List (Task N D)} {t t' kid : Task N D} {s s' : Strand N D}
  {e : Event N D} {es : List (Event N D)} {c : TaskContext N D}

/-- The children of a node hang below it. -/
theorem hangs_of_mem_kids (ht : t.frame.Hangs w.children (above.map Task.frame))
    (hkid : kid ∈ w.kids t) : kid.frame.Hangs w.children ((t :: above).map Task.frame) := by
  unfold kids at hkid
  split at hkid
  · exact absurd hkid List.not_mem_nil
  · obtain ⟨frame, hframe, rfl⟩ := List.mem_map.1 hkid
    obtain ⟨⟨l, node⟩, hlocated, rfl⟩ := List.mem_map.1 hframe
    exact .child rfl rfl ((NamedChildren.mem_locations_iff _ _ _).1 hlocated) ht

variable [Identified N]

/-- Whatever callback is made was one of those on offer. -/
theorem Step.offers (h : w.Step above s e s') : w.Offers above s e.context := by
  induction h with
  | backRef repeats _ => exact .backRef repeats
  | abort fresh _ => exact .enter fresh
  | fork fresh _ _ => exact .enter fresh
  | inner _ ih => exact .inner (List.mem_append_right _ (List.mem_cons_self ..)) ih
  | leave completed _ => exact .leave completed

/-- A callback changes a task only when all below it has finished or nothing has begun. -/
theorem Step.hangs (h : w.Step above s e s') (hs : s.Hangs w.children above) :
    s'.Hangs w.children above := by
  induction h with
  | backRef _ _ => exact .finished
  | abort _ _ => exact .finished
  | @fork above t t' control _ called _ =>
    cases hs with
    | waiting hangs =>
      obtain ⟨data, hframe⟩ := frame_of_call called
      have hentered : t'.frame.Hangs w.children (above.map Task.frame) :=
        hangs.congr (by rw [hframe]; rfl) (by rw [hframe]; rfl) (by rw [hframe]; rfl)
      refine .forked hentered fun strand hstrand => ?_
      obtain ⟨kid, hkid, rfl⟩ := List.mem_map.1 hstrand
      exact .waiting (hangs_of_mem_kids hentered hkid)
  | @inner above t before after kid kid' _ _ ih =>
    cases hs with
    | forked hangs inner =>
      refine .forked hangs fun strand hstrand => ?_
      rcases List.mem_append.1 hstrand with hmem | hmem
      · exact inner strand (List.mem_append_left _ hmem)
      · rcases List.mem_cons.1 hmem with rfl | hmem
        · exact ih (inner kid (List.mem_append_right _ (List.mem_cons_self ..)))
        · exact inner strand (List.mem_append_right _ (List.mem_cons_of_mem _ hmem))
  | leave _ _ => exact .finished

theorem Runs.hangs (h : w.Runs above s es s') (hs : s.Hangs w.children above) :
    s'.Hangs w.children above := by
  induction h with
  | refl => exact hs
  | tail _ step ih => exact step.hangs ih

/-- The breadcrumbs in a callback that is on offer. -/
theorem Offers.retraces (h : w.Offers above s c) (hs : s.Hangs w.children above) :
    c.sight.Retraces w.children := by
  have hshown : ∀ {above : List (Task N D)} {t t' : Task N D},
      t.frame.Hangs w.children (above.map Task.frame) → t'.frame.location = t.frame.location →
      t'.frame.depth = t.frame.depth → t'.frame.reached = t.frame.reached →
      (TaskContext.mk t' above w.rootData).sight.Retraces w.children :=
    fun hangs hl hd hr => (hangs.congr hl hd hr).retraces w.rootData
  induction h with
  | backRef _ =>
    cases hs with
    | waiting hangs => exact hshown hangs rfl rfl rfl
  | enter _ =>
    cases hs with
    | waiting hangs => exact hshown hangs rfl rfl rfl
  | inner mem _ ih =>
    cases hs with
    | forked _ inner => exact ih (inner _ mem)
  | leave completed =>
    cases hs with
    | forked hangs _ =>
      have hframe := frame_of_complete completed
      exact hshown hangs (by simp only [inPhase]; rw [hframe]) (by simp only [inPhase]; rw [hframe])
        (by simp only [inPhase]; rw [hframe])

end ForkJoin

/-! ## All walks -/

section

variable [Identified N]

/-- In every callback the breadcrumbs describe the real path.  This is so in every walk
that is depth first, in every walk that is breadth first if the callback `leave` leaves
the node alone, and in every fork-join walk in whatever order its tasks run, for any
visitor and also if the walk fails later or never ends.  There are as many frames above,
nodes above and breadcrumbs as the depth says, and none exactly at a root; in the contexts
by number, following the parents leads to a root over just these frames.  Each breadcrumb
holds the node above as it stands, and among the children of this node its location finds
the node below as that was reached. -/
theorem callbacks_retrace_their_paths {F : Type} :
    (∀ t : Traversal N D S, t.order = .depthFirst ∨ t.LeavesNodes → ∀ roots state,
      (∀ x c, t.Reaches (t.start roots state) x → t.calling? x = some c →
        x.cells.Leads c ∧ c.sight.Retraces t.children)
      ∧ ∀ limit x, t.logged.walk limit roots ([], state) = .done x →
        ∀ c ∈ x.state.1, c.sight.Retraces t.children)
    ∧ ∀ (w : ForkJoin N F) (root : N) es s c,
      w.Runs [] (.waiting (.ofFrame (.root root w.fresh))) es s → w.Offers [] s c →
        c.sight.Retraces w.children := by
  refine ⟨fun t ht roots state => ⟨fun x c hreaches hcalling => ?_, fun limit x hx => ?_⟩,
    fun w root es s c hruns hoffers => ?_⟩
  · exact ((Traversal.InPlace.start t roots state).of_reaches ht hreaches).calling hcalling
  · exact (Traversal.InPlace.start t.logged roots ([], state)).log_retraces
      (ht.imp_right Traversal.LeavesNodes.logged) (List.forall_mem_nil _) (.of_run hx)
  · exact hoffers.retraces (hruns.hangs (.waiting (.root rfl rfl)))

end

/-- Breadth first node 2, which was put in the place of a child of node 0, is above its own
child; in the fork-join walk that child of node 0 is on offer as soon as node 0 is
entered. -/
theorem signposted_callbacks_retrace :
    (∃ x c, (signposted.walking .breadthFirst).Reaches
          ((signposted.walking .breadthFirst).start [⟨0⟩] 0) x
        ∧ (signposted.walking .breadthFirst).calling? x = some c
        ∧ c.sight.crumbs = [⟨⟨2⟩, .unnamed 0⟩, ⟨⟨0⟩, .unnamed 2⟩]
        ∧ x.cells.Leads c ∧ c.sight.Retraces knotted)
    ∧ ∃ es s c, signposted.forking.Runs [] (.waiting (.ofFrame (.root ⟨0⟩ ()))) es s
        ∧ signposted.forking.Offers [] s c ∧ c.sight.crumbs = [⟨⟨0⟩, .unnamed 2⟩]
        ∧ c.sight.Retraces knotted := by
  obtain ⟨hsequential, hparallel⟩ :=
    callbacks_retrace_their_paths (N := NodeIndex) (D := Nat) (S := Nat) (F := Unit)
  have hleaves : (signposted.walking .breadthFirst).LeavesNodes := by
    rintro c s a hphase ha
    simp only [Tour.walking, hphase] at ha
    rw [← Except.ok.inj ha]
    rfl
  have hsteps : ((signposted.walking .breadthFirst).after 5
        ((signposted.walking .breadthFirst).start [⟨0⟩] 0) >>= fun x =>
      ((signposted.walking .breadthFirst).calling? x).map fun c => c.sight.crumbs)
      = some [⟨⟨2⟩, .unnamed 0⟩, ⟨⟨0⟩, .unnamed 2⟩] := by cbv
  constructor
  · obtain ⟨x, hx, hcalling⟩ := Option.bind_eq_some_iff.1 hsteps
    obtain ⟨c, hc, hcrumbs⟩ := Option.map_eq_some_iff.1 hcalling
    have hreaches := Traversal.reaches_of_after hx
    exact ⟨x, c, hreaches, hc, hcrumbs,
      (hsequential _ (.inr hleaves) [⟨0⟩] 0).1 x c hreaches hc⟩
  · have hroot : signposted.forking.call [] (.ofFrame (.root ⟨0⟩ ()))
        = .ok (.proceed, .ofFrame (.root ⟨0⟩ ())) := rfl
    have hrun : signposted.forking.Runs [] (.waiting (.ofFrame (.root ⟨0⟩ ()))) _ _ :=
      (ForkJoin.Step.fork (by decide) hroot (by decide)).runs
    have hkid : Task.ofFrame ((Frame.root ⟨0⟩ ()).child (.unnamed 2) ⟨1⟩ ())
        ∈ signposted.forking.kids (.ofFrame (.root ⟨0⟩ ())) := by decide
    have hoffers : signposted.forking.Offers [] (.forked (.ofFrame (.root ⟨0⟩ ())) _) _ :=
      .inner (List.mem_map_of_mem hkid) (.enter (by decide))
    exact ⟨_, _, _, hrun, hoffers, rfl, hparallel _ _ _ _ _ hrun hoffers⟩

end Topiary
