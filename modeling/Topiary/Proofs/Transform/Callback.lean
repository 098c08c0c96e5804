/-
Topiary.Proofs.Transform.Callback — the callbacks of one node.

A node of the transform is a context with marks, and its edits are at the end
of the recorded ones; a node of the recursion is a task.  When both show an
editor the same, its callback does the same to both, and the fold of what was
recorded below a node does what the merge of the edits that its children hand
over does.

* `Context.Placed` — a context at the end of a trail.
* `Bench.Mirrors.fold` — folding and merging.
* `Course.Ends` — what a visit leaves behind, be the walk over or not.
* `Editor.agrees_enter`, `Editor.agrees_leave`, `Editor.agrees_backRef` — the
  callbacks.
-/
import Topiary.Proofs.Transform.Editor

namespace Topiary

variable {N D S : Type}

/-! ## Places -/

namespace Sight

theorem crumbsBelow_mapData {E : Type} (g : D → E) (f : Frame N D) (above : List (Frame N D)) :
    crumbsBelow (f.mapData g) (above.map (Frame.mapData g)) = crumbsBelow f above := by
  induction above generalizing f with
  | nil => rfl
  | cons parent above ih =>
    simp only [List.map_cons, crumbsBelow, ih]
    rfl

/-- The way to the root does not depend on data. -/
theorem crumbs_mapData {E : Type} (g : D → E) (s : Sight N D) :
    (s.mapData g).crumbs = s.crumbs :=
  crumbsBelow_mapData g s.frame s.above

end Sight

theorem Context.crumbs_withFrame (c : Context N D) {g : Frame N D}
    (hloc : g.location = c.sight.frame.location) :
    (c.withFrame g).sight.crumbs = c.sight.crumbs :=
  Sight.crumbsBelow_congr hloc c.sight.above

namespace Context

theorem mapData_isRoot {E : Type} (g : D → E) (c : Context N D) :
    (c.mapData g).sight.isRoot = c.sight.isRoot := by
  simp [mapData, Sight.mapData, Sight.isRoot]

theorem mapData_repeatsAbove [Identified N] {E : Type} (g : D → E) (c : Context N D) :
    (c.mapData g).sight.repeatsAbove = c.sight.repeatsAbove := by
  simp [mapData, Sight.mapData, Sight.repeatsAbove, Frame.mapData, List.any_map, Function.comp_def]

theorem mapData_path {E : Type} (g : D → E) (c : Context N D) :
    (c.mapData g).sight.path = c.sight.path := by
  rw [Sight.path, mapData, Sight.crumbs_mapData]
  rfl

/-- A context at the end of a trail. -/
structure Placed (c : Context N D) (trail : List (Ancestor N)) : Prop where
  crumbs : c.sight.crumbs = Trail.crumbs trail
  depth : c.sight.frame.depth = trail.length
  isRoot : c.sight.isRoot = trail.isEmpty

theorem Placed.withFrame {c : Context N D} {trail : List (Ancestor N)} (h : c.Placed trail)
    {g : Frame N D} (hloc : g.location = c.sight.frame.location)
    (hdepth : g.depth = c.sight.frame.depth) : (c.withFrame g).Placed trail :=
  ⟨(c.crumbs_withFrame hloc).trans h.crumbs, hdepth.trans h.depth, h.isRoot⟩

end Context

theorem Task.location_of_toChildEdits {t : Task N D} {l : Location}
    (hl : t.frame.location = some l) : ∀ e ∈ t.toChildEdits, e.location = l := by
  intro e he
  simp only [toChildEdits, hl, List.mem_map] at he
  obtain ⟨_, -, rfl⟩ := he
  rfl

theorem Trail.isEmpty_crumbs (trail : List (Ancestor N)) :
    (Trail.crumbs trail).isEmpty = trail.isEmpty := by
  cases trail <;> rfl

/-! ## Folding and merging -/

namespace Bench

variable {before : List (Zipper N)} {crumbs : List (Breadcrumb N)} {f : Frame N D}
  {foldStart : Nat} {b : Bench N} {t : Task N D}

/-- Below a node its own path is cut off. -/
theorem rebase_zipper (x : N) (crumbs : List (Breadcrumb N)) (edits : List (ChildEdit N)) :
    (edits.map (ChildEdit.zipper x crumbs)).map (·.rebase crumbs.length)
      = edits.map (ChildEdit.zipper x []) := by
  rw [List.map_map]
  refine List.map_congr_left fun e _ => ?_
  simp [ChildEdit.zipper, Zipper.rebase]

theorem foldBelow_of_none [Identified N] {m : Marks N} (hm : b.marks = some m)
    (hstart : m.foldStart = b.recorded.length) (A : Adapter N) (base : Site) (depth : Nat) :
    b.foldBelow A base depth = .ok (b, []) := by
  simp [Bench.foldBelow, hm, hstart]

theorem foldBelow_of_some [Identified N] {m : Marks N} (hm : b.marks = some m) (A : Adapter N)
    (base : Site) (depth : Nat) (hle : ¬ m.foldStart > b.recorded.length)
    (hne : b.recorded.drop m.foldStart ≠ []) :
    b.foldBelow A base depth
      = (MultiZipper.toRoot A base
          ⟨b.node, (b.recorded.drop m.foldStart).map (·.rebase depth)⟩ >>= fun r =>
        ({ b with recorded := b.recorded.take m.foldStart }.replace r.1).map (·, r.2)) := by
  unfold Bench.foldBelow
  rw [hm]
  simp only [if_neg hle]
  rfl

/-- What was recorded below a node is one batch of edits of the node. -/
theorem foldBelow_of_edits [Identified N] {m : Marks N} (hm : b.marks = some m)
    (hstart : m.foldStart = b.recorded.length) {A : Adapter N} (base : Site)
    {edits : List (ChildEdit N)} (hne : edits ≠ []) {c : NamedChildren N}
    (hloc : ChildEdit.Located (A.children b.node) edits)
    (hc : (A.children b.node).editBy .integers edits = .ok c) :
    { b with recorded := b.recorded ++ edits.map (ChildEdit.zipper b.node crumbs) }.foldBelow A
        base crumbs.length
      = (b.replace (A.rebuild base b.node c)).map (·, [⟨base, b.node⟩]) := by
  have hdrop : (b.recorded ++ edits.map (ChildEdit.zipper b.node crumbs)).drop m.foldStart
      = edits.map (ChildEdit.zipper b.node crumbs) := by
    rw [hstart, List.drop_left]
  have htake : (b.recorded ++ edits.map (ChildEdit.zipper b.node crumbs)).take m.foldStart
      = b.recorded := by
    rw [hstart, List.take_left]
  have hle : ¬ m.foldStart
      > (b.recorded ++ edits.map (ChildEdit.zipper b.node crumbs)).length := by
    rw [hstart, List.length_append]
    omega
  rw [foldBelow_of_some (b := { b with
    recorded := b.recorded ++ edits.map (ChildEdit.zipper b.node crumbs) }) hm A base _ hle
    (by rw [hdrop]; simpa using hne)]
  simp only [hdrop, htake, rebase_zipper, MultiZipper.toRoot_of_children hne hloc hc]
  rfl

theorem Mirrors.fits (h : b.Mirrors before crumbs f foldStart t) :
    Trail.Fits crumbs.isEmpty t.edits where
  apart := h.apart
  root := by
    intro hroot
    rcases h.root_edits (List.isEmpty_iff.1 hroot) with ⟨hnil, -⟩ | hone
    · exact .inl hnil
    · exact .inr ⟨_, hone⟩

/-- To fold what the children have recorded is to merge what they hand over. -/
theorem Mirrors.fold [Identified N] (h : b.Mirrors before crumbs f b.recorded.length t)
    {A : Adapter N} (site : Site) {edits : List (ChildEdit N)}
    (hloc : ChildEdit.Located (A.children b.node) edits)
    (hcomp : ChildEdit.Compatible edits) (hdel : b.deleted = true → edits = []) :
    ∃ b',
      { b with recorded := b.recorded ++ edits.map (ChildEdit.zipper b.node crumbs) }.foldBelow A
          site crumbs.length = .ok (b', t.copies site edits)
      ∧ b'.deleted = b.deleted
      ∧ b'.Mirrors before crumbs f b.recorded.length (t.merge A site edits) := by
  obtain ⟨m, hm, hstart, -⟩ := h.marks
  have hnode : t.frame.node = b.node := by rw [h.frame]
  by_cases hne : edits = []
  · subst hne
    refine ⟨b, ?_, rfl, h⟩
    rw [List.map_nil, List.append_nil]
    exact foldBelow_of_none hm hstart A _ _
  · have hd : b.deleted = false := by
      cases hb : b.deleted with
      | true => exact absurd (hdel hb) hne
      | false => rfl
    have hedit := (A.children b.node).edit_eq_spread hcomp hloc
    obtain ⟨b', hb', h'⟩ := h.replace hd (A.rebuild site b.node
      ((A.children b.node).spread (ChildEdit.slot edits)))
    have hsame : b'.deleted = b.deleted := by
      have hf : t.frame.deleted = b'.deleted := congrArg Frame.deleted h'.frame
      rw [← hf, h.frame]
    refine ⟨b', ?_, hsame, ?_⟩
    · rw [foldBelow_of_edits hm hstart _ hne hloc hedit, hb', Task.copies_of_ne_nil site t hne, hnode]
      rfl
    · rw [Task.merge_of_ne_nil A site t hne, hnode]
      exact h'

end Bench

/-! ## What a visit leaves behind -/

/-- How far a walk has come, without what its transform keeps. -/
def Course.pace (x : Course N (Marked N D) (Edited N S)) : Pace S :=
  ⟨x.state.state, x.made, x.quit⟩

/-- What a visit that has found the frame `f` leaves behind: as long as the
walk goes on, the edits of the task at the end of the recorded ones; once it
has quit, edits that come to the same tree. -/
structure Course.Ends [Identified N] (A : Adapter N) (base : Site) (trail : List (Ancestor N))
    (f : Frame N D) (y : Course N (Marked N D) (Edited N S)) (r : Task N D × Pace S) : Prop where
  pace : y.pace = r.2
  location : r.1.frame.location = f.location
  fits : Trail.Fits trail.isEmpty r.1.edits
  root : trail = [] →
    r.1.edits = [] ∧ r.1.frame.node = f.reached ∨ r.1.edits = [(.replace, r.1.frame.node)]
  going : y.quit = false →
    y.state.recorded = Trail.recorded trail ++ r.1.zippers (Trail.crumbs trail)
  stopped : y.quit = true → ∀ root,
    (MultiZipper.toRoot A base ⟨root, y.state.recorded⟩).map Prod.fst
      = .ok (Trail.close A base root trail r.1.edits)

namespace Course.Ends

variable [Identified N] {A : Adapter N} {base : Site} {trail : List (Ancestor N)} {f : Frame N D}
  {y : Course N (Marked N D) (Edited N S)} {r : Task N D × Pace S}

/-- In both cases the edits recorded come to the same tree as those of the task. -/
theorem toRoot (h : y.Ends A base trail f r) (hsound : Trail.Sound A trail) (root : N) :
    (MultiZipper.toRoot A base ⟨root, y.state.recorded⟩).map Prod.fst
      = .ok (Trail.close A base root trail r.1.edits) := by
  cases hq : y.quit with
  | true => exact h.stopped hq root
  | false =>
    rw [h.going hq]
    exact Trail.toRoot_recorded hsound h.fits

theorem quit_eq (h : y.Ends A base trail f r) : r.2.quit = y.quit :=
  (congrArg Pace.quit h.pace).symm

/-- Of the frame that was found only its place counts. -/
theorem congr (h : y.Ends A base trail f r) {g : Frame N D} (hlocation : f.location = g.location)
    (hreached : f.reached = g.reached) : y.Ends A base trail g r :=
  ⟨h.pace, h.location.trans hlocation, h.fits, hreached ▸ h.root, h.going, h.stopped⟩

/-- As long as a node's edits are the last ones recorded it does not matter
whether the walk goes on. -/
theorem of_recorded (hsound : Trail.Sound A trail) (hfits : Trail.Fits trail.isEmpty r.1.edits)
    (hroot : trail = [] →
      r.1.edits = [] ∧ r.1.frame.node = f.reached ∨ r.1.edits = [(.replace, r.1.frame.node)])
    (hlocation : r.1.frame.location = f.location)
    (hrec : y.state.recorded = Trail.recorded trail ++ r.1.zippers (Trail.crumbs trail))
    (hpace : y.pace = r.2) : y.Ends A base trail f r :=
  ⟨hpace, hlocation, hfits, hroot, fun _ => hrec, fun _ root => by
    rw [hrec]
    exact Trail.toRoot_recorded hsound hfits⟩

theorem of_mirrors (hsound : Trail.Sound A trail) {b : Bench N} {foldStart : Nat}
    (h : b.Mirrors (Trail.recorded trail) (Trail.crumbs trail) f foldStart r.1)
    (hrec : y.state.recorded = b.recorded) (hpace : y.pace = r.2) :
    y.Ends A base trail f r := by
  have hfits := h.fits
  rw [Trail.isEmpty_crumbs] at hfits
  refine .of_recorded hsound hfits ?_ (by rw [h.frame]) (hrec.trans h.recorded) hpace
  rintro rfl
  exact h.root_edits rfl

end Course.Ends

/-! ## A callback -/

namespace Editor

open Bench

variable (v : Editor N D S) {before : List (Zipper N)} {crumbs : List (Breadcrumb N)}
  {f : Frame N D} {foldStart : Nat} {b : Bench N} {t : Task N D} {c : Context N (Marked N D)}
  {d : Context N D}

/-- A callback does the same to a bench and to a task. -/
theorem agrees_onBench (hm : b.Mirrors before crumbs f foldStart t)
    (hs : (c.mapData Marked.data).withNode b.node = d.withFrame t.frame)
    (hroot : d.sight.isRoot = crumbs.isEmpty) (x : Pace S) :
    Run.Agrees (fun r s => s.1 = r.1.control
        ∧ s.2.2 = ⟨r.1.state, x.made, r.1.control == Control.quit⟩
        ∧ r.2.Mirrors before crumbs { f with data := r.1.data } foldStart s.2.1)
      (Run.ofExcept (v.visitor.onBench c b x.state)) (Run.ofExcept (v.ask d t x)) := by
  simp only [EditVisitor.onBench, visitor, ask, hs, hroot]
  cases v.call (d.withFrame t.frame) x.state with
  | error m => exact .misuse m
  | ok r =>
    simp only [Except.mapError, bind, Except.bind, pure, Except.pure]
    show Run.Agrees _
      (Run.ofExcept ((b.actAll (r.edits.map .edit)).map fun b' =>
        ((⟨r.control, r.edits.map .edit, r.data, r.state⟩ : EditAnswer N D S), b')))
      (Run.ofExcept ((t.editAll crumbs.isEmpty r.edits).map fun t' =>
        (r.control, { t' with frame := { t'.frame with data := r.data } },
          { x with state := r.state, quit := r.control == Control.quit })))
    exact (hm.editAll r.edits).except_map fun b' t' h' => ⟨rfl, rfl, h'.withData r.data⟩

end Editor

/-! ## Entering a node -/

/-- A context that was entered, at the end of a trail, and the task that shows
the same. -/
structure Context.Opened (e : Context N (Marked N D)) (d : Context N D)
    (trail : List (Ancestor N)) (recorded : List (Zipper N)) (t : Task N D) : Prop where
  shows : e.mapData Marked.data = d.withFrame t.frame
  path : d.sight.path = steps (Trail.crumbs trail)
  isRoot : d.sight.isRoot = (Trail.crumbs trail).isEmpty
  placed : e.Placed trail
  mirrors : (EditVisitor.bench e e.sight.frame.data.marks recorded).Mirrors
    (Trail.recorded trail) (Trail.crumbs trail) t.frame recorded.length t

namespace Context.Opened

variable {e : Context N (Marked N D)} {d : Context N D} {trail : List (Ancestor N)}
  {recorded : List (Zipper N)} {t : Task N D}

theorem frame_eq (he : e.Opened d trail recorded t) :
    e.sight.frame.mapData Marked.data = t.frame :=
  congrArg (fun c : Context N D => c.sight.frame) he.shows

theorem node_eq (he : e.Opened d trail recorded t) : e.sight.frame.node = t.frame.node :=
  congrArg Frame.node he.frame_eq

theorem deleted_eq (he : e.Opened d trail recorded t) :
    e.sight.frame.deleted = t.frame.deleted :=
  congrArg Frame.deleted he.frame_eq

/-- Folding what was recorded below a node, and merging what its children hand
over. -/
theorem fold [Identified N] (he : e.Opened d trail recorded t) {A : Adapter N} (site : Site)
    {edits : List (ChildEdit N)} (hloc : ChildEdit.Located (A.children t.frame.node) edits)
    (hcomp : ChildEdit.Compatible edits) (hdel : t.frame.deleted = true → edits = []) :
    ∃ b,
      (EditVisitor.bench e e.sight.frame.data.marks
          (recorded ++ edits.map (ChildEdit.zipper t.frame.node (Trail.crumbs trail)))).foldBelow A
        site (Trail.crumbs trail).length = .ok (b, t.copies site edits)
      ∧ b.deleted = t.frame.deleted
      ∧ b.Mirrors (Trail.recorded trail) (Trail.crumbs trail) t.frame recorded.length
          (t.merge A site edits) := by
  rw [← he.node_eq] at hloc ⊢
  rw [← he.deleted_eq] at hdel ⊢
  exact Bench.Mirrors.fold (b := EditVisitor.bench e e.sight.frame.data.marks recorded)
    he.mirrors site hloc hcomp hdel

end Context.Opened

namespace EditVisitor

variable {S : Type}

/-- What becomes of a context and of the walk when its visitor has answered. -/
def take (c : Context N (Marked N D)) (x : Course N (Marked N D) (Edited N S))
    (a : EditAnswer N D S) (b : Bench N) (ledger : List (Rebuild N)) :
    Control × Context N (Marked N D) × Course N (Marked N D) (Edited N S) :=
  (a.control, c.withFrame (c.sight.frame.update (answer a b ledger)),
    { x with
      calls := x.calls ++ [c]
      state := ⟨a.state, b.recorded, ledger⟩
      quit := a.control == .quit })

theorem bench_take {c : Context N (Marked N D)} {b : Bench N}
    (hroot : b.isRoot = c.sight.isRoot) (hd : c.sight.frame.deleted = false)
    (x : Course N (Marked N D) (Edited N S)) (a : EditAnswer N D S) (ledger : List (Rebuild N)) :
    bench (take c x a b ledger).2.1 (take c x a b ledger).2.1.sight.frame.data.marks b.recorded
      = b := by
  obtain ⟨node, deleted, isRoot, marks, recorded⟩ := b
  obtain rfl : isRoot = c.sight.isRoot := hroot
  simp only [bench, take, Context.withFrame, Frame.update, answer, hd, Bool.false_or]
  rfl

variable [Identified N] {t : Traversal N (Marked N D) (Edited N S)} {A : Adapter N} {run : Nat}
  {v : EditVisitor N D S}

/-- In `enter` edits are made from the node itself; those below it begin
where its own end. -/
theorem consult_enter (ht : t.visitor = v.recording A run) {c : Context N (Marked N D)}
    (hphase : c.sight.frame.phase = .enter) (x : Course N (Marked N D) (Edited N S)) :
    t.consult c x
      = (v.onBench c (bench c (some (.start c.sight.frame.node c.sight.crumbs))
          x.state.recorded) x.state.state).map fun r => take c x r.1
            { r.2 with marks := r.2.marks.map fun m => { m with foldStart := r.2.recorded.length } }
            x.state.ledger := by
  simp only [Traversal.consult, ht, recording, hphase]
  cases v.onBench c (bench c (some (.start c.sight.frame.node c.sight.crumbs))
    x.state.recorded) x.state.state <;> rfl

end EditVisitor

namespace Editor

open Bench EditVisitor

variable (v : Editor N D S) (A : Adapter N) (run : Nat) (fresh rootData : D)
  {trail : List (Ancestor N)} {c e : Context N (Marked N D)} {t : Task N D}

/-- A context as it is after `enter`. -/
theorem opened_take (hc : c.Placed trail) (hdeleted : c.sight.frame.deleted = false)
    {b : Bench N} {a : EditAnswer N D S}
    (hb : b.Mirrors (Trail.recorded trail) (Trail.crumbs trail)
      { (c.mapData Marked.data).sight.frame with data := a.data } b.recorded.length t)
    (x : Course N (Marked N D) (Edited N S)) (ledger : List (Rebuild N)) :
    (take c x a b ledger).2.1.Opened (c.mapData Marked.data) trail b.recorded t := by
  have hisRoot : c.sight.isRoot = (Trail.crumbs trail).isEmpty :=
    hc.isRoot.trans (Trail.isEmpty_crumbs trail).symm
  refine ⟨?_, ?_, (c.mapData_isRoot _).trans hisRoot, hc.withFrame rfl rfl, ?_⟩
  · rw [hb.frame]
    simp [take, Context.withFrame, Context.mapData, Sight.mapData, Frame.mapData, Frame.update,
      answer, hdeleted]
  · rw [c.mapData_path, Sight.path, hc.crumbs]
    rfl
  · rw [bench_take (hb.isRoot.trans hisRoot.symm) hdeleted]
    exact hb.at_frame

/-- Entering a node. -/
theorem agrees_enter [Identified N] (hc : c.Placed trail)
    (hf : (c.mapData Marked.data).sight.frame.Unvisited)
    {x : Course N (Marked N D) (Edited N S)} (hx : x.state.recorded = Trail.recorded trail) :
    Run.Agrees (fun r s => r.1 = s.1 ∧ r.2.2.pace = s.2.2 ∧ (r.1 = .proceed → r.2.2.quit = false)
        ∧ s.2.1.frame.location = c.sight.frame.location
        ∧ s.2.1.frame.reached = c.sight.frame.reached
        ∧ r.2.2.state.ledger = x.state.ledger
        ∧ r.2.1.Opened (c.mapData Marked.data) trail r.2.2.state.recorded s.2.1)
      (Run.ofExcept ((v.transform A run fresh rootData).traversal.consult c x))
      (Run.ofExcept (v.ask (c.mapData Marked.data)
        (.ofFrame (c.mapData Marked.data).sight.frame) x.pace)) := by
  have hisRoot : c.sight.isRoot = (Trail.crumbs trail).isEmpty :=
    hc.isRoot.trans (Trail.isEmpty_crumbs trail).symm
  have hstart := Mirrors.start hf (Trail.recorded trail) (Trail.crumbs trail)
  have hcalled := v.agrees_onBench hstart (c := c) (d := c.mapData Marked.data) rfl
    ((c.mapData_isRoot Marked.data).trans hisRoot) x.pace
  rw [EditVisitor.consult_enter rfl hf.phase, EditVisitor.bench, hc.crumbs, hx, hisRoot]
  refine hcalled.map_left fun r s hr => ?_
  obtain ⟨hcontrol, hpace, hm⟩ := hr
  refine ⟨hcontrol.symm, hpace.symm, fun hp => ?_, by rw [hm.frame]; rfl, by rw [hm.frame]; rfl,
    rfl, ?_⟩
  · have hne : r.1.control = .proceed := hp
    simp [take, hne]
  · exact opened_take hc hf.deleted (hm.mark r.2.recorded.length) x x.state.ledger

end Editor

/-! ## Leaving a node -/

/-- In `leave` the edits below are folded first. -/
theorem EditVisitor.consult_leave [Identified N] {t : Traversal N (Marked N D) (Edited N S)}
    {A : Adapter N} {run : Nat} {v : EditVisitor N D S} (ht : t.visitor = v.recording A run)
    {c : Context N (Marked N D)} (hphase : c.sight.frame.phase = .leave)
    (x : Course N (Marked N D) (Edited N S)) {b : Bench N}
    {ledger : List (Rebuild N)}
    (hfold : (bench c c.sight.frame.data.marks x.state.recorded).foldBelow A
      ((Site.ofRun run).below c.sight.path) c.sight.frame.depth = .ok (b, ledger)) :
    t.consult c x
      = (v.onBench c b x.state.state).map fun r =>
          take c x r.1 r.2 (x.state.ledger ++ ledger) := by
  simp only [Traversal.consult, ht, recording, hphase, hfold]
  show (do
    let a ← v.onBench c b x.state.state >>= fun r => pure (answer r.1 r.2 _)
    pure (a.control, _, _)) = _
  cases v.onBench c b x.state.state <;> rfl

namespace Editor

open Bench EditVisitor

variable (v : Editor N D S) (A : Adapter N) (run : Nat) (fresh rootData : D)
  {trail : List (Ancestor N)} {e : Context N (Marked N D)} {t : Task N D}

/-- Leaving a node whose children are done. -/
theorem agrees_leave [Identified N] (hsound : Trail.Sound A trail)
    {d : Context N D} {recorded : List (Zipper N)} (he : e.Opened d trail recorded t)
    {edits : List (ChildEdit N)}
    (hloc : ChildEdit.Located (A.children t.frame.node) edits)
    (hcomp : ChildEdit.Compatible edits) (hdel : t.frame.deleted = true → edits = [])
    {y : Course N (Marked N D) (Edited N S)} (hq : y.quit = false)
    (hy : y.state.recorded
      = recorded ++ edits.map (ChildEdit.zipper t.frame.node (Trail.crumbs trail))) :
    Run.Agrees (fun z s => z.Ends A (.ofRun run) trail t.frame s.2 ∧ z.state.ledger
        = y.state.ledger ++ t.copies ((Site.ofRun run).below d.sight.path) edits)
      (Run.ofExcept ((v.transform A run fresh rootData).traversal.callLeave e y))
      (Run.ofExcept (v.ask d (ForkJoin.inPhase .leave
        (t.merge A ((Site.ofRun run).below d.sight.path) edits)) y.pace)) := by
  let leaving := e.withFrame { e.sight.frame with phase := .leave }
  obtain ⟨b, hfold, hdeleted, hm⟩ :=
    he.fold ((Site.ofRun run).below d.sight.path) hloc hcomp hdel
  have hleave := hm.inPhase .leave
  have hshows : (leaving.mapData Marked.data).withNode b.node
      = d.withFrame (ForkJoin.inPhase .leave
          (t.merge A ((Site.ofRun run).below d.sight.path) edits)).frame := by
    rw [hleave.frame, hdeleted, ← he.frame_eq]
    show (e.mapData Marked.data).withFrame _ = _
    rw [he.shows]
    rfl
  have hbelow : (bench leaving leaving.sight.frame.data.marks y.state.recorded).foldBelow A
      ((Site.ofRun run).below leaving.sight.path) leaving.sight.frame.depth
      = .ok (b, t.copies ((Site.ofRun run).below d.sight.path) edits) := by
    have hplaced : leaving.Placed trail := he.placed.withFrame rfl rfl
    have hlength : (Trail.crumbs trail).length = trail.length := List.length_map ..
    rw [hy, hplaced.depth, Sight.path, hplaced.crumbs, ← hlength]
    rw [he.path] at hfold ⊢
    exact hfold
  have hcall : (v.transform A run fresh rootData).traversal.callLeave e y
      = (v.visitor.onBench leaving b y.state.state).map fun r =>
          (take leaving y r.1 r.2 (y.state.ledger
            ++ t.copies ((Site.ofRun run).below d.sight.path) edits)).2.2 := by
    rw [Traversal.callLeave, if_neg (by simp [hq]), consult_leave (c := leaving) rfl rfl y hbelow]
    exact Run.except_map_map _ _ _
  rw [hcall]
  refine (v.agrees_onBench hleave hshows he.isRoot y.pace).map_left fun r s hr => ?_
  obtain ⟨-, hpace, hm'⟩ := hr
  refine ⟨.congr (f := { t.frame with phase := .leave, data := r.1.data }) ?_ rfl rfl, rfl⟩
  exact .of_mirrors hsound hm' rfl hpace.symm

end Editor

/-! ## Back references -/

theorem EditVisitor.consult_backRef [Identified N]
    {t : Traversal N (Marked N D) (Edited N S)} {A : Adapter N} {run : Nat} {v : EditVisitor N D S}
    (ht : t.visitor = v.recording A run) {c : Context N (Marked N D)}
    (hphase : c.sight.frame.phase = .backRef) (x : Course N (Marked N D) (Edited N S)) :
    t.consult c x
      = (v.onBench c (bench c c.sight.frame.data.marks x.state.recorded) x.state.state).map
          fun r => take c x r.1 r.2 x.state.ledger := by
  simp only [Traversal.consult, ht, recording, hphase]
  cases v.onBench c (bench c c.sight.frame.data.marks x.state.recorded) x.state.state <;> rfl

namespace Editor

open Bench EditVisitor

variable (v : Editor N D S) (A : Adapter N) (run : Nat) (fresh rootData : D)
  {trail : List (Ancestor N)} {c : Context N (Marked N D)} {t : Task N D}

theorem onBench_backRef (hphase : c.sight.frame.phase = .backRef) (b : Bench N) (s : S) :
    v.visitor.onBench c b s
      = ((v.call ((c.mapData Marked.data).withNode b.node) s).mapError .misuse).map fun r =>
          (⟨r.control, [], r.data, r.state⟩, b) := by
  simp only [onBench, visitor]
  cases hcall : v.call ((c.mapData Marked.data).withNode b.node) s with
  | error m => rfl
  | ok r =>
    have hedits := v.backRef_edits _ _ _ hphase hcall
    simp only [Except.mapError, Except.map, bind, Except.bind, hedits]
    rfl

theorem ask_backRef (hphase : t.frame.phase = .backRef) (d : Context N D) (x : Pace S) :
    v.ask d t x = ((v.call (d.withFrame t.frame) x.state).mapError .misuse).map fun r =>
      (r.control, { t with frame := { t.frame with data := r.data } },
        { x with state := r.state, quit := r.control == Control.quit }) := by
  unfold ask
  cases hcall : v.call (d.withFrame t.frame) x.state with
  | error m => rfl
  | ok r =>
    have hedits := v.backRef_edits _ _ _ hphase hcall
    simp only [Except.mapError, Except.map, bind, Except.bind, hedits]
    rfl

/-- A back reference has no edits. -/
theorem agrees_backRef [Identified N] (hsound : Trail.Sound A trail)
    (hnode : c.sight.frame.node = c.sight.frame.reached)
    {x : Course N (Marked N D) (Edited N S)} (hx : x.state.recorded = Trail.recorded trail) :
    Run.Agrees (fun y r => y.Ends A (.ofRun run) trail (c.mapData Marked.data).sight.frame r.2
        ∧ y.state.ledger = x.state.ledger)
      (Run.ofExcept ((v.transform A run fresh rootData).traversal.callBackRef c x))
      (Run.ofExcept (v.ask (c.mapData Marked.data) (.ofFrame
        { (c.mapData Marked.data).sight.frame with visited := true, phase := .backRef })
        x.pace)) := by
  rw [Traversal.callBackRef, consult_backRef (v := v.visitor) rfl rfl, v.onBench_backRef rfl,
    v.ask_backRef rfl, Run.except_map_map, Run.except_map_map]
  refine (Run.Agrees.of_mapError _).except_map fun r r' hr => ?_
  subst hr
  refine ⟨.of_recorded hsound ?_ ?_ rfl ?_ rfl, rfl⟩
  · exact ⟨.nil, fun _ => .inl rfl⟩
  · exact fun _ => .inl ⟨rfl, hnode⟩
  · exact hx.trans (List.append_nil _).symm

end Editor

end Topiary
