/-
Topiary.Proofs.Transform.Recursion — the transform does what the recursion does.

Node by node the walk with its list of recorded edits keeps to the recursion
in which every node has its own: the children of a node leave their edits
behind in order, and so does the node when it is left.  If a callback quits,
what was recorded at all depths folds to the root that the recursion comes to
by merging on the way out.

* `Course.EndsAll` — what the visits of some children leave behind.
* `Editor.agrees_kids`, `Editor.agrees_descend` — the children of a node that
  was entered, and its `leave`.
* `Editor.agrees_visit` — a node with everything below it.
* `Editor.settles_apply_iff` — whole transforms.
-/
import Topiary.Proofs.Transform.Callback
import Topiary.Proofs.Walk.DepthFirst

namespace Topiary

variable {N D S : Type}

/-! ## The children of a node -/

/-- The frames of children. -/
def Frame.childFrames (parent : Frame N D) (fresh : D) (kids : List (Location × N)) :
    List (Frame N D) :=
  kids.map fun k => parent.child k.1 k.2 fresh

/-- The context of a child. -/
def Context.child (c : Context N D) (id : Nat) (l : Location) (node : N) (fresh : D) :
    Context N D :=
  ⟨id, ⟨c.sight.frame.child l node fresh, c.sight.frame :: c.sight.above, c.sight.rootData⟩,
    c.id :: c.idsAbove⟩

theorem Context.below_cons (c : Context N D) (made : Nat) (fresh : D) (l : Location) (node : N)
    (kids : List (Location × N)) :
    c.below made (c.sight.frame.childFrames fresh ((l, node) :: kids))
      = c.child made l node fresh :: c.below (made + 1) (c.sight.frame.childFrames fresh kids) := by
  simp only [below, Frame.childFrames, List.map_cons, List.zipIdx_cons]
  rfl

namespace Context.Opened

variable {e : Context N (Marked N D)} {d : Context N D} {trail : List (Ancestor N)}
  {recorded : List (Zipper N)} {t : Task N D} {A : Adapter N}

theorem tally (he : e.Opened d trail recorded t) (hd : t.frame.deleted = false) :
    ∃ slot, Task.Tally t.frame.node t.frame.reached slot t.edits := by
  obtain ⟨m, -, -, htracks⟩ := he.mirrors.marks
  obtain ⟨slot, -, htally⟩ := (htracks (he.deleted_eq.trans hd)).tally
  exact ⟨slot, htally⟩

/-- The node as the walk goes on below it. -/
theorem ancestor (he : e.Opened d trail recorded t) (hd : t.frame.deleted = false) {l : Location}
    {node : N} (hchild : (A.children t.frame.node).childAt l = .ok node)
    {done : List (ChildEdit N)} (hloc : ChildEdit.Located (A.children t.frame.node) done)
    (hcomp : ChildEdit.Compatible done) (hahead : ∀ e ∈ done, e.location ≠ l) :
    Ancestor.Sound A trail.isEmpty ⟨t.frame.node, l, t.edits, done⟩ where
  child := ⟨node, hchild⟩
  located := hloc
  compatible := hcomp
  ahead := hahead
  stays := by
    obtain ⟨slot, htally⟩ := he.tally hd
    exact fun x hx => ⟨htally.not_delete x hx, htally.replacement_eq x hx⟩
  fits := by
    have hfits := he.mirrors.fits
    rwa [Trail.isEmpty_crumbs] at hfits

theorem child_placed (he : e.Opened d trail recorded t) (id : Nat) (l : Location) (node : N)
    (fresh : Marked N D) (own : List (EditKind × N)) (done : List (ChildEdit N)) :
    (e.child id l node fresh).Placed (⟨t.frame.node, l, own, done⟩ :: trail) := by
  refine ⟨?_, congrArg (· + 1) he.placed.depth, rfl⟩
  show ⟨e.sight.frame.node, l⟩ :: e.sight.crumbs = _
  rw [he.placed.crumbs, he.node_eq]
  rfl

theorem child_shows (he : e.Opened d trail recorded t) (id : Nat) (l : Location) (node : N)
    (fresh : D) : (e.child id l node ⟨fresh, none⟩).mapData Marked.data
      = (d.withFrame t.frame).child id l node fresh := by
  rw [← he.shows]
  rfl

end Context.Opened

/-- What the visits of some children leave behind: as long as the walk goes on,
the edits that they hand over, after those of the node. -/
structure Course.EndsAll [Identified N] (A : Adapter N) (base : Site) (trail : List (Ancestor N))
    (t : Task N D) (edits : List (ChildEdit N)) (y : Course N (Marked N D) (Edited N S))
    (p : Pace S) : Prop where
  pace : y.pace = p
  located : ChildEdit.Located (A.children t.frame.node) edits
  compatible : ChildEdit.Compatible edits
  going : y.quit = false →
    y.state.recorded = Trail.recorded trail ++ t.zippers (Trail.crumbs trail)
      ++ edits.map (ChildEdit.zipper t.frame.node (Trail.crumbs trail))
  stopped : y.quit = true → ∀ root,
    (MultiZipper.toRoot A base ⟨root, y.state.recorded⟩).map Prod.fst
      = .ok (Trail.close A base root trail
          (Trail.merge A (base.below (steps (Trail.crumbs trail))) t.frame.node t.edits edits))

/-- Before the first child nothing was handed over. -/
theorem Context.Opened.endsAll_nil [Identified N] {e : Context N (Marked N D)} {d : Context N D}
    {trail : List (Ancestor N)} {t : Task N D} {x : Course N (Marked N D) (Edited N S)}
    (he : e.Opened d trail x.state.recorded t) (hq : x.quit = false) (A : Adapter N)
    (base : Site) : x.EndsAll A base trail t [] x.pace := by
  refine ⟨rfl, by simp [ChildEdit.Located], .nil, fun _ => ?_, fun hquit => ?_⟩
  · simpa [EditVisitor.bench] using he.mirrors.recorded
  · simp [hq] at hquit

/-- A node that is not left because the walk has quit. -/
theorem Context.Opened.ends_merged [Identified N] {e : Context N (Marked N D)} {d : Context N D}
    {trail : List (Ancestor N)} {recorded : List (Zipper N)} {t : Task N D} {A : Adapter N}
    {run : Nat} (he : e.Opened d trail recorded t) (hd : t.frame.deleted = false)
    {edits : List (ChildEdit N)} {y : Course N (Marked N D) (Edited N S)} {p : Pace S}
    (h : y.EndsAll A (.ofRun run) trail t edits p) (hq : y.quit = true) :
    y.Ends A (.ofRun run) trail t.frame
      (t.merge A ((Site.ofRun run).below d.sight.path) edits, p) := by
  obtain ⟨slot, htally⟩ := he.tally hd
  obtain ⟨_, -, -, hm⟩ := he.fold ((Site.ofRun run).below d.sight.path) h.located
    h.compatible (by simp [hd])
  have hfits := hm.fits
  rw [Trail.isEmpty_crumbs] at hfits
  refine ⟨h.pace, by rw [hm.frame], hfits, ?_, fun hgo => ?_, fun _ root => ?_⟩
  · rintro rfl
    exact hm.root_edits rfl
  · rw [hq] at hgo
    cases hgo
  · rw [h.stopped hq root, he.path]
    exact congrArg _ (htally.alike_merge A _ edits).close.symm

/-- One child more. -/
theorem Course.Ends.endsAll [Identified N] {A : Adapter N} {base : Site}
    {trail : List (Ancestor N)} {t : Task N D} {l : Location} {done : List (ChildEdit N)}
    {y : Course N (Marked N D) (Edited N S)} {r : Task N D × Pace S} {f : Frame N D}
    (h : y.Ends A base (⟨t.frame.node, l, t.edits, done⟩ :: trail) f r)
    (hl : f.location = some l)
    (ha : Ancestor.Sound A trail.isEmpty ⟨t.frame.node, l, t.edits, done⟩) :
    y.EndsAll A base trail t (done ++ r.1.toChildEdits) r.2 := by
  have hedits : r.1.toChildEdits = Trail.handOver l r.1.edits := by
    simp [Task.toChildEdits, h.location, hl, Trail.handOver]
  rw [hedits]
  refine ⟨h.pace, ?_, h.fits.compatible ha.compatible ha.ahead, fun hgo => ?_, h.stopped⟩
  · refine List.forall_mem_append.2 ⟨ha.located, fun x hx => ?_⟩
    obtain ⟨c, -, rfl⟩ := List.mem_map.1 hx
    exact ha.child
  · rw [h.going hgo]
    simp [Trail.recorded, Task.zippers, Trail.zippers, Trail.handOver, Trail.crumbs,
      ChildEdit.zipper]

namespace Editor

/-- Two ways to visit do the same below a node. -/
def VisitsAgree [Identified N] (A : Adapter N) (base : Site) (trail : List (Ancestor N))
    (visit : Context N (Marked N D) → Course N (Marked N D) (Edited N S) →
      Run (Course N (Marked N D) (Edited N S)))
    (visitTask : Context N D → Pace S → Run (Task N D × Pace S)) : Prop :=
  ∀ a c x, Ancestor.Sound A trail.isEmpty a → c.Placed (a :: trail) →
    (c.mapData Marked.data).sight.frame.Unvisited →
    x.state.recorded = Trail.recorded (a :: trail) →
    Run.Agrees (fun y r => y.Ends A base (a :: trail) (c.mapData Marked.data).sight.frame r)
      (visit c x) (visitTask (c.mapData Marked.data) x.pace)

variable (v : Editor N D S) (A : Adapter N) (run : Nat) (fresh rootData : D)
  {trail : List (Ancestor N)} {e : Context N (Marked N D)} {d : Context N D} {t : Task N D}
  {recorded : List (Zipper N)}
  {visit : Context N (Marked N D) → Course N (Marked N D) (Edited N S) →
    Run (Course N (Marked N D) (Edited N S))}
  {visitTask : Context N D → Pace S → Run (Task N D × Pace S)}

/-- Visiting children one after the other. -/
theorem agrees_kids [Identified N] {base : Site}
    (hvisit : VisitsAgree A base trail visit visitTask)
    (he : e.Opened d trail recorded t) (hd : t.frame.deleted = false)
    (kids : List (Location × N)) (hnd : (kids.map Prod.fst).Nodup)
    (hkids : ∀ k ∈ kids, (A.children t.frame.node).childAt k.1 = .ok k.2)
    {done : List (ChildEdit N)} (hahead : ∀ e ∈ done, e.location ∉ kids.map Prod.fst)
    (made : Nat) {x : Course N (Marked N D) (Edited N S)} (hq : x.quit = false)
    (hx : x.EndsAll A base trail t done x.pace) :
    Run.Agrees (fun y r => y.EndsAll A base trail t (done ++ r.1.flatMap Task.toChildEdits) r.2)
      (Course.throughEach visit
        (e.below made (e.sight.frame.childFrames ⟨fresh, none⟩ kids)) x)
      (Pace.throughEach visitTask
        ((d.withFrame t.frame).below made (t.frame.childFrames fresh kids)) x.pace) := by
  induction kids generalizing made x done with
  | nil =>
    show x.EndsAll A base trail t (done ++ [].flatMap Task.toChildEdits) x.pace
    rw [List.flatMap_nil, List.append_nil]
    exact hx
  | cons k kids ih =>
    obtain ⟨l, node⟩ := k
    rw [List.map_cons, List.nodup_cons] at hnd
    rw [List.forall_mem_cons] at hkids
    have ha := he.ancestor hd hkids.1 hx.located hx.compatible
      fun x hx hl => hahead x hx (hl ▸ List.mem_cons_self)
    have hfirst := hvisit _ _ x ha (he.child_placed made l node ⟨fresh, none⟩ t.edits done)
      ⟨rfl, rfl, rfl⟩ (hx.going hq)
    have hbelow := (d.withFrame t.frame).below_cons made fresh l node kids
    simp only [show (d.withFrame t.frame).sight.frame = t.frame from rfl] at hbelow
    rw [he.child_shows] at hfirst
    rw [e.below_cons, hbelow, Course.throughEach, Pace.throughEach]
    refine hfirst.bind fun y r hy => ?_
    have hends := hy.endsAll rfl ha
    rw [hy.quit_eq]
    cases hyq : y.quit with
    | true =>
      show y.EndsAll A base trail t (done ++ [r.1].flatMap Task.toChildEdits) r.2
      simpa using hends
    | false =>
      have hahead' : ∀ x ∈ done ++ r.1.toChildEdits, x.location ∉ kids.map Prod.fst := by
        refine List.forall_mem_append.2 ⟨fun x hx hmem => ?_, fun x hx => ?_⟩
        · exact hahead x hx (List.mem_cons_of_mem _ hmem)
        · rw [Task.location_of_toChildEdits hy.location x hx]
          exact hnd.1
      have hrest := ih hnd.2 hkids.2 hahead' (made + 1) hyq (hy.pace ▸ hends)
      rw [hy.pace] at hrest
      refine hrest.map_right fun z rs hz => ?_
      rw [List.flatMap_cons, ← List.append_assoc]
      exact hz

/-- The children of a task as it stands; none if it is deleted. -/
def kidsOf (A : Adapter N) (t : Task N D) : List (Location × N) :=
  if t.frame.deleted then [] else (A.children t.frame.node).locations

theorem kidsOf_of_deleted (A : Adapter N) (h : t.frame.deleted = true) : kidsOf A t = [] := if_pos h

theorem kidsOf_of_open (A : Adapter N) (h : t.frame.deleted = false) :
    kidsOf A t = (A.children t.frame.node).locations := if_neg (by simp [h])

theorem mem_kidsOf_iff (A : Adapter N) (t : Task N D) (l : Location) (x : N) :
    (l, x) ∈ kidsOf A t
      ↔ t.frame.deleted = false ∧ (A.children t.frame.node).childAt l = .ok x := by
  cases hd : t.frame.deleted with
  | true => simp [kidsOf_of_deleted A hd]
  | false => simp [kidsOf_of_open A hd, NamedChildren.mem_locations_iff]

theorem nodup_kidsOf (A : Adapter N) (t : Task N D) : ((kidsOf A t).map Prod.fst).Nodup := by
  unfold kidsOf
  split
  · exact List.nodup_nil
  · exact NamedChildren.nodup_map_fst_locations _

theorem kidFrames_eq (A : Adapter N) (fresh : D) (t : Task N D) :
    kidFrames A fresh t = t.frame.childFrames fresh (kidsOf A t) := by
  unfold kidFrames kidsOf
  cases t.frame.deleted <;> rfl

theorem traversal_kidFrames_eq [Identified N] (he : e.Opened d trail recorded t) :
    (v.transform A run fresh rootData).traversal.kidFrames e.sight.frame
      = e.sight.frame.childFrames ⟨fresh, none⟩ (kidsOf A t) := by
  unfold Traversal.kidFrames kidsOf
  rw [he.node_eq, he.deleted_eq]
  cases t.frame.deleted <;> rfl

/-- All children of a node. -/
theorem agrees_allKids [Identified N] {base : Site}
    (hvisit : VisitsAgree A base trail visit visitTask)
    {x : Course N (Marked N D) (Edited N S)} (he : e.Opened d trail x.state.recorded t)
    (hq : x.quit = false) (made : Nat) :
    Run.Agrees (fun y r => y.EndsAll A base trail t (r.1.flatMap Task.toChildEdits) r.2
        ∧ (t.frame.deleted = true → y.quit = false ∧ r.1.flatMap Task.toChildEdits = []))
      (Course.throughEach visit
        (e.below made (e.sight.frame.childFrames ⟨fresh, none⟩ (kidsOf A t))) x)
      (Pace.throughEach visitTask
        ((d.withFrame t.frame).below made (kidFrames A fresh t)) x.pace) := by
  have hstart := he.endsAll_nil hq A base
  rw [kidFrames_eq]
  by_cases hd : t.frame.deleted = true
  · rw [kidsOf_of_deleted A hd]
    exact ⟨hstart, fun _ => ⟨hq, rfl⟩⟩
  · have hd' : t.frame.deleted = false := Bool.eq_false_iff.2 hd
    refine (agrees_kids A fresh hvisit he hd' (kidsOf A t) (nodup_kidsOf A t)
      (fun k hk => ((mem_kidsOf_iff A t k.1 k.2).1 hk).2) (by simp) made hq hstart).mono
        fun y r hy => ⟨?_, fun hgone => absurd hgone hd⟩
    simpa using hy

/-- The children of a node, and then its `leave`. -/
theorem agrees_descend [Identified N] (hsound : Trail.Sound A trail)
    (hvisit : VisitsAgree A (.ofRun run) trail visit visitTask)
    {x : Course N (Marked N D) (Edited N S)} (he : e.Opened d trail x.state.recorded t)
    (hq : x.quit = false) :
    Run.Agrees (fun y r => y.Ends A (.ofRun run) trail t.frame r)
      ((v.transform A run fresh rootData).traversal.descend visit e x)
      (v.descend A run fresh visitTask d t x.pace) := by
  have hlength : (e.below x.made (e.sight.frame.childFrames ⟨fresh, none⟩ (kidsOf A t))).length
      = ((d.withFrame t.frame).below x.made (kidFrames A fresh t)).length := by
    rw [kidFrames_eq, Context.length_below, Context.length_below]
    simp [Frame.childFrames]
  rw [Traversal.descend, v.traversal_kidFrames_eq A run fresh rootData he, Editor.descend]
  simp only [hlength]
  let z : Course N (Marked N D) (Edited N S) :=
    { x with made := x.made + ((d.withFrame t.frame).below x.made (kidFrames A fresh t)).length }
  refine (agrees_allKids A fresh hvisit (x := z) he hq x.made).bind fun y r hy => ?_
  obtain ⟨hends, hgone⟩ := hy
  rw [show r.2.quit = y.quit from (congrArg Pace.quit hends.pace).symm]
  cases hyq : y.quit with
  | true =>
    have hopen : t.frame.deleted = false := by
      refine Bool.eq_false_iff.2 fun hd => ?_
      rw [(hgone hd).1] at hyq
      exact Bool.noConfusion hyq
    rw [Traversal.callLeave, if_pos hyq]
    exact he.ends_merged hopen hends hyq
  | false =>
    have hrec : x.state.recorded = Trail.recorded trail ++ t.zippers (Trail.crumbs trail) :=
      he.mirrors.recorded
    have hleave := v.agrees_leave A run fresh rootData hsound he hends.located hends.compatible
      (fun hd => (hgone hd).2) hyq (hrec ▸ hends.going hyq)
    rw [hends.pace] at hleave
    exact hleave.map_right fun z s hz => hz.1

/-! ## Whole subtrees -/

/-- A node with everything below it, by induction on the number of levels. -/
theorem agrees_visit [Identified N] (levels : Nat) : ∀ {trail : List (Ancestor N)}
    {c : Context N (Marked N D)} {x : Course N (Marked N D) (Edited N S)},
    Trail.Sound A trail → c.Placed trail → (c.mapData Marked.data).sight.frame.Unvisited →
    x.state.recorded = Trail.recorded trail →
    Run.Agrees (fun y r => y.Ends A (.ofRun run) trail (c.mapData Marked.data).sight.frame r)
      ((v.transform A run fresh rootData).traversal.visit levels c x)
      (v.visit A run fresh levels (c.mapData Marked.data) x.pace) := by
  induction levels with
  | zero => exact fun _ _ _ _ => trivial
  | succ levels ih =>
    intro trail c x hsound hc hf hx
    by_cases hrep : c.sight.repeatsAbove = true
    · rw [Traversal.visit, if_pos hrep, visit, if_pos ((c.mapData_repeatsAbove _).trans hrep)]
      exact (v.agrees_backRef A run fresh rootData hsound hf.node hx).map_right fun y s hy => hy.1
    · rw [Traversal.visit_of_not_repeatsAbove _ hrep, visit,
        if_neg (by rw [c.mapData_repeatsAbove]; exact hrep)]
      refine (v.agrees_enter A run fresh rootData hc hf
        (x := { x with entered := x.entered + 1 }) hx).bind fun r s hr => ?_
      obtain ⟨hcontrol, hpace, hgoing, hlocation, hreached, -, hopened⟩ := hr
      rw [← hcontrol]
      by_cases hp : r.1 = .proceed
      · rw [if_pos hp, if_pos hp, ← hpace]
        have hkids : VisitsAgree A (.ofRun run) trail
            ((v.transform A run fresh rootData).traversal.visit levels)
            (v.visit A run fresh levels) :=
          fun a c x ha hc hf hx => ih ⟨ha, hsound⟩ hc hf hx
        exact (v.agrees_descend A run fresh rootData hsound hkids hopened (hgoing hp)).mono
          fun y r hy => hy.congr hlocation hreached
      · rw [if_neg hp, if_neg hp]
        have hends : Course.Ends A (.ofRun run) trail s.2.1.frame r.2.2 s.2 :=
          .of_mirrors hsound hopened.mirrors rfl hpace
        exact hends.congr hlocation hreached

/-- A whole walk. -/
theorem agrees_root [Identified N] (levels : Nat) (root : N) (state : S) :
    Run.Agrees (fun o r => ∃ y : Course N (Marked N D) (Edited N S),
        o.state = y.state ∧ y.Ends A (.ofRun run) [] (.root root fresh) r)
      ((v.transform A run fresh rootData).traversal.recurse levels [root] ⟨state, [], []⟩)
      (v.visitRoot A run fresh rootData levels root state) := by
  have hplaced : (⟨0, ⟨.root root ⟨fresh, none⟩, [], ⟨rootData, none⟩⟩, []⟩ :
      Context N (Marked N D)).Placed [] := ⟨rfl, rfl, rfl⟩
  have hvisit := v.agrees_visit A run fresh rootData levels (show Trail.Sound A [] from trivial)
    hplaced ⟨rfl, rfl, rfl⟩ (x := ⟨⟨[], ⟨state, [], []⟩, 0, false⟩, 1⟩) rfl
  have hright : v.visitRoot A run fresh rootData levels root state
      = v.visitRoot A run fresh rootData levels root state >>= pure := (bind_pure _).symm
  rw [Traversal.recurse_singleton, map_eq_pure_bind, hright]
  exact hvisit.bind fun y r hy => ⟨y, rfl, hy⟩

end Editor

/-! ## Whole transforms -/

namespace Transform

variable [Identified N]

/-- What becomes of the edits that are left when the walk is over. -/
def finish (t : Transform N D S) (root : N) (s : Edited N S) : Run (Transformed N S) := do
  let (tree, ledger) ←
    Run.ofExcept (MultiZipper.toRoot t.adapter (.ofRun t.run) ⟨root, s.recorded⟩)
  return ⟨tree, s.state, s.ledger ++ ledger⟩

theorem apply_eq (t : Transform N D S) (limit : Nat) (root : N) (state : S) :
    t.apply limit root state
      = t.traversal.observe limit [root] ⟨state, [], []⟩ >>= fun o => t.finish root o.state := by
  unfold apply Traversal.observe
  rw [Traversal.walk_unlogged]
  cases t.traversal.logged.walk limit [root] ([], ⟨state, [], []⟩) <;> rfl

theorem tree_finish {t : Transform N D S} {root tree : N} {s : Edited N S}
    (h : (MultiZipper.toRoot t.adapter (.ofRun t.run) ⟨root, s.recorded⟩).map Prod.fst = .ok tree) :
    Transformed.tree <$> t.finish root s = .done tree := by
  unfold finish
  cases hroot : MultiZipper.toRoot t.adapter (.ofRun t.run) ⟨root, s.recorded⟩ with
  | error f =>
    rw [hroot] at h
    cases h
  | ok r =>
    rw [hroot] at h
    obtain rfl := Except.ok.inj h
    rfl

/-- A root has no edit but a replacement, which is then the tree. -/
theorem finish_of_root_edits (t : Transform N D S) {root tree : N} {s : Edited N S}
    {task : Task N D} (hrecorded : s.recorded = task.zippers [])
    (h : task.edits = [] ∧ tree = root ∨ task.edits = [(.replace, tree)]) :
    t.finish root s = .done ⟨tree, s.state, s.ledger⟩ := by
  rw [finish, hrecorded, Task.zippers]
  rcases h with ⟨hnil, rfl⟩ | hone
  · rw [hnil]
    show Run.done (⟨tree, s.state, s.ledger ++ []⟩ : Transformed N S) = _
    rw [List.append_nil]
  · rw [hone]
    show Run.done (⟨tree, s.state, s.ledger ++ []⟩ : Transformed N S) = _
    rw [List.append_nil]

end Transform

namespace Editor

variable [Identified N] (v : Editor N D S) (A : Adapter N) (run : Nat) (fresh rootData : D)

/-- The transform with an editor ends as the recursion does. -/
theorem settles_apply_iff (root : N) (state : S) (out : Run N) :
    Run.Settles (fun limit =>
        Transformed.tree <$> (v.transform A run fresh rootData).apply limit root state) out
      ↔ Run.Settles (fun levels =>
        (fun r => r.1.rootNode root) <$> v.visitRoot A run fresh rootData levels root state)
        out := by
  let t := v.transform A run fresh rootData
  have happly : (fun limit => Transformed.tree <$> t.apply limit root state) = fun limit =>
      t.traversal.observe limit [root] ⟨state, [], []⟩ >>= fun o =>
        Transformed.tree <$> t.finish root o.state := by
    funext limit
    rw [t.apply_eq, map_bind]
  have hvisit : (fun levels => t.traversal.recurse levels [root] ⟨state, [], []⟩ >>= fun o =>
        Transformed.tree <$> t.finish root o.state) = fun levels =>
      (fun r => r.1.rootNode root) <$> v.visitRoot A run fresh rootData levels root state := by
    funext levels
    refine (v.agrees_root A run fresh rootData levels root state).bind_eq_map fun o r ho => ?_
    obtain ⟨y, hstate, hends⟩ := ho
    rw [hstate]
    exact t.tree_finish (hends.toRoot trivial root)
  rw [happly, ← hvisit]
  exact Run.settles_bind_congr (Traversal.settles_observe_iff rfl [root] _) _ out

end Editor

end Topiary
