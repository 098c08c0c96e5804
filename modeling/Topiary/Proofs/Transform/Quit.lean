/-
Topiary.Proofs.Transform.Quit — quitting loses no edit.

An editor that quits leaves edits behind at many depths, below nodes that are
never left.  The same tree comes out as if it had gone on, after the callback
that quit, without any further edit, through the rest of the tree and out of
every node that was open.  In a finite tree going on comes to an end.

* `Editor.continuing` — the editor that goes on.
* `Editor.rests` — what is visited after the edits are over has no edits.
* `Editor.follows_visit` — a node with everything below it, for both editors.
* `quitting_loses_no_edit` — whole transforms.
-/
import Topiary.Proofs.Transform.Safety

namespace Topiary

variable {N D S : Type}

/-! ## Going on -/

namespace Editor

/-- The editor that does not quit where `v` does, and makes no edit from then
on.  Its state has a mark that this point was passed. -/
def continuing (v : Editor N D S) : Editor N D (S × Bool) where
  call := fun c s =>
    if s.2 then .ok ⟨.proceed, [], c.sight.frame.data, s⟩
    else (v.call c s.1).map fun r =>
      ⟨if r.control = .quit then .proceed else r.control, r.edits, r.data,
        (r.state, r.control == .quit)⟩
  backRef_edits := by
    intro c s r hphase h
    split at h
    · obtain rfl := Except.ok.inj h
      rfl
    · cases hcall : v.call c s.1 with
      | error m => simp [hcall, Except.map] at h
      | ok a =>
        rw [hcall] at h
        obtain rfl := Except.ok.inj h
        exact v.backRef_edits c s.1 a hphase hcall

end Editor

/-- Nodes are changed to finite trees only. -/
def Editor.ChangesFinitely (v : Editor N D S) (A : Adapter N) : Prop :=
  ∀ c s r, v.call c s = .ok r → ∀ n, Edit.change n ∈ r.edits → A.IsFinite n

/-- The same pace of the editor that goes on. -/
def Pace.following (x : Pace S) : Pace (S × Bool) := ⟨(x.state, x.quit), x.made, false⟩

/-- The editor that goes on has passed the point where the other one quits. -/
structure Pace.Over (x : Pace (S × Bool)) : Prop where
  passed : x.state.2 = true
  going : x.quit = false

theorem Pace.following_over {x : Pace S} (h : x.quit = true) : x.following.Over := ⟨h, rfl⟩

/-- The edits of a callback leave the node or change it. -/
theorem Task.node_of_editAll {isRoot : Bool} {t t' : Task N D} {edits : List (Edit N)}
    (h : t.editAll isRoot edits = .ok t') :
    t'.frame.node = t.frame.node ∨ Edit.change t'.frame.node ∈ edits := by
  induction edits generalizing t with
  | nil =>
    obtain rfl := Except.ok.inj h
    exact .inl rfl
  | cons e edits ih =>
    obtain ⟨t₁, htakes, h⟩ := exists_takes_of_editAll_cons h
    rcases ih h with hsame | hchange
    · rw [hsame]
      cases htakes with
      | change _ => exact .inr List.mem_cons_self
      | delete _ _ _ => exact .inl rfl
      | insertBefore _ _ => exact .inl rfl
      | insertAfter _ _ => exact .inl rfl
    · exact .inr (List.mem_cons_of_mem _ hchange)

/-! ## No further edits -/

namespace Editor

variable (v : Editor N D S) (A : Adapter N) (run : Nat) (fresh : D)

/-- Once it is over, a callback does nothing. -/
theorem ask_over (d : Context N D) (t : Task N D) {x : Pace (S × Bool)} (hx : x.Over) :
    v.continuing.ask d t x = .ok (.proceed, t, x) := by
  obtain ⟨⟨s, passed⟩, made, quit⟩ := x
  obtain ⟨rfl, rfl⟩ := hx
  rfl

/-- A visit that makes no edit. -/
def Rests (visit : Nat → Run (Task N D × Pace (S × Bool))) : Prop :=
  ∃ r, Run.Eventually visit (.done r) ∧ r.1.edits = [] ∧ r.2.Over

/-- Nodes one after the other. -/
theorem rests_throughEach {visit : Nat → Context N D → Pace (S × Bool) →
      Run (Task N D × Pace (S × Bool))} {cs : List (Context N D)}
    (h : ∀ c ∈ cs, ∀ x : Pace (S × Bool), x.Over → Rests fun levels => visit levels c x)
    {x : Pace (S × Bool)} (hx : x.Over) :
    ∃ rs, Run.Eventually (fun levels => Pace.throughEach (visit levels) cs x) (.done rs)
      ∧ rs.1.flatMap Task.toChildEdits = [] ∧ rs.2.Over := by
  induction cs generalizing x with
  | nil => exact ⟨([], x), .const _, rfl, hx⟩
  | cons c cs ih =>
    rw [List.forall_mem_cons] at h
    obtain ⟨r, hr, hedits, hover⟩ := h.1 x hx
    obtain ⟨rs, hrs, hall, hover'⟩ := ih h.2 hover
    refine ⟨(r.1 :: rs.1, rs.2), hr.bind ?_, ?_, hover'⟩
    · simp only [hover.going, Bool.false_eq_true, if_false]
      exact hrs.bind (.const _)
    · rw [List.flatMap_cons, hall, Task.toChildEdits, hedits]
      cases r.1.frame.location <;> rfl

/-- The contexts below a node show its children. -/
theorem exists_child_of_mem_below {d : Context N D} {t : Task N D} {made : Nat} {c : Context N D}
    (hc : c ∈ (d.withFrame t.frame).below made (kidFrames A fresh t)) :
    ∃ l, (A.children t.frame.node).childAt l = .ok c.sight.frame.node := by
  obtain ⟨⟨f, id⟩, hf, rfl⟩ := List.mem_map.1 hc
  have hmem : f ∈ kidFrames A fresh t := List.fst_mem_of_mem_zipIdx hf
  rw [kidFrames_eq] at hmem
  obtain ⟨p, hp, rfl⟩ := List.mem_map.1 hmem
  exact ⟨p.1, ((mem_kidsOf_iff A t p.1 p.2).1 hp).2⟩

/-- A node that was entered keeps the edits that it has. -/
theorem rests_descend {visit : Nat → Context N D → Pace (S × Bool) →
      Run (Task N D × Pace (S × Bool))} {t : Task N D}
    (h : ∀ c : Context N D, (∃ l, (A.children t.frame.node).childAt l = .ok c.sight.frame.node) →
      ∀ x : Pace (S × Bool), x.Over → Rests fun levels => visit levels c x)
    (d : Context N D) {x : Pace (S × Bool)} (hx : x.Over) :
    ∃ x', Run.Eventually (fun levels => v.continuing.descend A run fresh (visit levels) d t x)
        (.done (ForkJoin.inPhase .leave t, x')) ∧ x'.Over := by
  let kids := (d.withFrame t.frame).below x.made (kidFrames A fresh t)
  obtain ⟨rs, hrs, hedits, hover⟩ := rests_throughEach
    (fun c hc => h c (exists_child_of_mem_below A fresh hc))
    (x := { x with made := x.made + kids.length }) ⟨hx.passed, hx.going⟩
  refine ⟨rs.2, ?_, hover⟩
  unfold descend
  refine hrs.bind ?_
  rw [hedits, Task.merge_nil, if_neg (by simp [hover.going]), v.ask_over _ _ hover]
  exact .const _

/-- What is visited after the edits are over has no edits, by induction on the
tree below the node. -/
theorem rests [Identified N] (c : Context N D) (hc : A.IsFinite c.sight.frame.node)
    (x : Pace (S × Bool)) (hx : x.Over) :
    Rests fun levels => v.continuing.visit A run fresh levels c x := by
  generalize hnode : c.sight.frame.node = node at hc
  induction hc generalizing c x with
  | intro node _ ih =>
    by_cases hrep : c.sight.repeatsAbove = true
    · let t := Task.ofFrame { c.sight.frame with visited := true, phase := .backRef }
      refine ⟨(t, x), .of_succ ?_, rfl, hx⟩
      simp only [visit, if_pos hrep, v.ask_over _ _ hx]
      exact .const _
    · let t := Task.ofFrame c.sight.frame
      obtain ⟨x', hx', hover⟩ := v.rests_descend A run fresh (t := t)
        (fun c' hc' x hx => ih _ (hnode ▸ hc') c' x hx rfl) c hx
      refine ⟨(ForkJoin.inPhase .leave t, x'), .of_succ ?_, rfl, hover⟩
      simp only [visit, if_neg hrep, v.ask_over _ _ hx]
      exact hx'

/-! ## Up to the end of the edits -/

/-- How far the one editor has come, and how far the one that goes on. -/
structure Leads (x : Pace S) (x' : Pace (S × Bool)) : Prop where
  going : x.quit = false → x' = x.following
  stopped : x.quit = true → x'.Over

/-- What a visit of the one editor leaves behind, and what a visit of the one
that goes on does. -/
structure Follows (r : Task N D × Pace S) (r' : Task N D × Pace (S × Bool)) : Prop where
  edits : r'.1.edits = r.1.edits
  location : r'.1.frame.location = r.1.frame.location
  pace : Leads r.2 r'.2

theorem Follows.toChildEdits {r : Task N D × Pace S} {r' : Task N D × Pace (S × Bool)}
    (h : Follows r r') : r'.1.toChildEdits = r.1.toChildEdits := by
  rw [Task.toChildEdits, h.edits, h.location, Task.toChildEdits]

theorem leads_following (x : Pace S) : Leads x x.following :=
  ⟨fun _ => rfl, Pace.following_over⟩

/-- Both make the same edits, and one of them does not quit. -/
theorem ask_following {d : Context N D} {t : Task N D} {x : Pace S} (hx : x.quit = false)
    {r : Control × Task N D × Pace S} (h : v.ask d t x = .ok r) :
    r.2.2.quit = (r.1 == .quit) ∧ v.continuing.ask d t x.following
      = .ok (if r.1 = .quit then .proceed else r.1, r.2.1, r.2.2.following) := by
  obtain ⟨s, made, quit⟩ := x
  obtain rfl : quit = false := hx
  obtain ⟨a, t', hcall, hedit, rfl⟩ := exists_of_ask h
  have hcall' : v.continuing.call (d.withFrame t.frame) (s, false)
      = .ok ⟨if a.control = .quit then .proceed else a.control, a.edits, a.data,
          (a.state, a.control == .quit)⟩ := by
    simp [continuing, hcall, Except.map]
  refine ⟨rfl, ?_⟩
  rw [Pace.following, ask_of_call hcall', hedit]
  cases hcontrol : a.control <;> rfl

variable {v A} in
/-- A callback changes a finite tree to a finite tree. -/
theorem isFinite_of_ask (hv : v.ChangesFinitely A) {d : Context N D} {t : Task N D} {x : Pace S}
    (ht : A.IsFinite t.frame.node) {r : Control × Task N D × Pace S} (h : v.ask d t x = .ok r) :
    A.IsFinite r.2.1.frame.node := by
  obtain ⟨a, t', hcall, hedit, rfl⟩ := exists_of_ask h
  rcases Task.node_of_editAll hedit with hsame | hchange
  · rw [show t'.frame.node = t.frame.node from hsame]
    exact ht
  · exact hv _ _ _ hcall _ hchange

variable {visit : Context N D → Pace S → Run (Task N D × Pace S)}
  {visit' : Nat → Context N D → Pace (S × Bool) → Run (Task N D × Pace (S × Bool))}

/-- Nodes one after the other, some of which the one editor may not reach. -/
theorem follows_throughEach {cs : List (Context N D)}
    (hvisit : ∀ c ∈ cs, ∀ x r, x.quit = false → visit c x = .done r →
      ∃ r', Run.Eventually (fun levels => visit' levels c x.following) (.done r') ∧ Follows r r')
    (hrest : ∀ c ∈ cs, ∀ x, x.Over → Rests fun levels => visit' levels c x)
    {x : Pace S} (hx : x.quit = false) {rs : List (Task N D) × Pace S}
    (h : Pace.throughEach visit cs x = .done rs) :
    ∃ rs', Run.Eventually (fun levels => Pace.throughEach (visit' levels) cs x.following)
        (.done rs')
      ∧ rs'.1.flatMap Task.toChildEdits = rs.1.flatMap Task.toChildEdits ∧ Leads rs.2 rs'.2 := by
  induction cs generalizing x rs with
  | nil =>
    obtain rfl := Run.done.inj h
    exact ⟨([], x.following), .const _, rfl, leads_following x⟩
  | cons c cs ih =>
    rw [List.forall_mem_cons] at hvisit hrest
    rw [Pace.throughEach, Run.bind_eq_done_iff] at h
    obtain ⟨r, hr, h⟩ := h
    obtain ⟨r', hr', hfollows⟩ := hvisit.1 x r hx hr
    by_cases hq : r.2.quit = true
    · -- the one editor stops here, the other one goes through what is left
      rw [if_pos hq] at h
      obtain rfl := Run.done.inj h
      have hover := hfollows.pace.stopped hq
      obtain ⟨rs', hrs', hedits, hover'⟩ := rests_throughEach hrest.2 hover
      refine ⟨(r'.1 :: rs'.1, rs'.2), hr'.bind ?_, ?_, ?_, fun _ => hover'⟩
      · simp only [hover.going, Bool.false_eq_true, if_false]
        exact hrs'.bind (.const _)
      · simp [hfollows.toChildEdits, hedits]
      · intro hgo
        rw [hq] at hgo
        cases hgo
    · rw [if_neg hq, Run.bind_eq_done_iff] at h
      obtain ⟨rest, hrest', h⟩ := h
      obtain rfl := Run.done.inj h
      have hgo : r.2.quit = false := Bool.eq_false_iff.2 hq
      have hpace := hfollows.pace.going hgo
      obtain ⟨rs', hrs', hedits, hleads⟩ := ih hvisit.2 hrest.2 hgo hrest'
      refine ⟨(r'.1 :: rs'.1, rs'.2), hr'.bind ?_, ?_, hleads⟩
      · simp only [hpace, Pace.following, Bool.false_eq_true, if_false]
        exact hrs'.bind (.const _)
      · rw [List.flatMap_cons, List.flatMap_cons, hfollows.toChildEdits, hedits]

/-- The children of a node, and then its `leave`. -/
theorem follows_descend {t : Task N D}
    (hvisit : ∀ c : Context N D,
      (∃ l, (A.children t.frame.node).childAt l = .ok c.sight.frame.node) →
      ∀ x r, x.quit = false → visit c x = .done r →
      ∃ r', Run.Eventually (fun levels => visit' levels c x.following) (.done r') ∧ Follows r r')
    (hrest : ∀ c : Context N D,
      (∃ l, (A.children t.frame.node).childAt l = .ok c.sight.frame.node) →
      ∀ x, x.Over → Rests fun levels => visit' levels c x)
    {d : Context N D} {x : Pace S} (hx : x.quit = false) {r : Task N D × Pace S}
    (h : v.descend A run fresh visit d t x = .done r) :
    ∃ r', Run.Eventually (fun levels => v.continuing.descend A run fresh (visit' levels) d t
        x.following) (.done r') ∧ Follows r r' := by
  let kids := (d.withFrame t.frame).below x.made (kidFrames A fresh t)
  rw [descend, Run.bind_eq_done_iff] at h
  obtain ⟨rs, hrs, h⟩ := h
  obtain ⟨rs', hrs', hedits, hleads⟩ := follows_throughEach
    (fun c hc => hvisit c (exists_child_of_mem_below A fresh hc))
    (fun c hc => hrest c (exists_child_of_mem_below A fresh hc))
    (x := { x with made := x.made + kids.length }) hx hrs
  unfold descend
  by_cases hq : rs.2.quit = true
  · have hover := hleads.stopped hq
    rw [if_pos hq] at h
    obtain rfl := Run.done.inj h
    refine ⟨(ForkJoin.inPhase .leave (t.merge A ((Site.ofRun run).below d.sight.path)
      (rs.1.flatMap Task.toChildEdits)), rs'.2), hrs'.bind ?_, rfl, rfl, ?_, fun _ => hover⟩
    · rw [hedits, if_neg (by simp [hover.going]), v.ask_over _ _ hover]
      exact .const _
    · intro hgo
      rw [hq] at hgo
      cases hgo
  · have hgo : rs.2.quit = false := Bool.eq_false_iff.2 hq
    have hpace := hleads.going hgo
    rw [if_neg hq, Run.bind_eq_done_iff] at h
    obtain ⟨q, hask, h⟩ := h
    obtain rfl := Run.done.inj h
    obtain ⟨-, hask'⟩ := v.ask_following hgo ((Run.ofExcept_eq_done_iff _ _).1 hask)
    refine ⟨(q.2.1, q.2.2.following), hrs'.bind ?_, rfl, rfl, leads_following _⟩
    rw [hedits, hpace, if_neg (by simp [Pace.following]), hask']
    exact .const _

/-- A node with everything below it, by induction on the number of levels. -/
theorem follows_visit [Identified N] (hv : v.ChangesFinitely A) (levels : Nat) (c : Context N D)
    (hc : A.IsFinite c.sight.frame.node) (x : Pace S) (r : Task N D × Pace S)
    (hx : x.quit = false) (h : v.visit A run fresh levels c x = .done r) :
    ∃ r', Run.Eventually (fun levels => v.continuing.visit A run fresh levels c x.following)
      (.done r') ∧ Follows r r' := by
  induction levels generalizing c x r with
  | zero => cases h
  | succ levels ih =>
    by_cases hrep : c.sight.repeatsAbove = true
    · rw [visit, if_pos hrep, Run.bind_eq_done_iff] at h
      obtain ⟨q, hask, h⟩ := h
      obtain rfl := Run.done.inj h
      obtain ⟨-, hask'⟩ := v.ask_following hx ((Run.ofExcept_eq_done_iff _ _).1 hask)
      refine ⟨(q.2.1, q.2.2.following), .of_succ ?_, rfl, rfl, leads_following _⟩
      simp only [visit, if_pos hrep, hask']
      exact .const _
    rw [visit, if_neg hrep, Run.bind_eq_done_iff] at h
    obtain ⟨q, hask, h⟩ := h
    rw [Run.ofExcept_eq_done_iff] at hask
    obtain ⟨hquit, hask'⟩ := v.ask_following hx hask
    have hnode : A.IsFinite q.2.1.frame.node := isFinite_of_ask hv hc hask
    have hrest : ∀ c : Context N D,
        (∃ l, (A.children q.2.1.frame.node).childAt l = .ok c.sight.frame.node) →
        ∀ x : Pace (S × Bool), x.Over →
          Rests fun levels => v.continuing.visit A run fresh levels c x :=
      fun c hchild x hx => v.rests A run fresh c (hnode.inv hchild) x hx
    suffices hgoal : ∃ r', Run.Eventually (fun levels =>
        if (if q.1 = .quit then Control.proceed else q.1) = .proceed then
          v.continuing.descend A run fresh (v.continuing.visit A run fresh levels) c q.2.1
            q.2.2.following
        else pure (q.2.1, q.2.2.following)) (.done r') ∧ Follows r r' by
      obtain ⟨r', hr', hfollows⟩ := hgoal
      refine ⟨r', .of_succ ?_, hfollows⟩
      simp only [visit, if_neg hrep, hask', Run.ofExcept_ok, Run.done_bind]
      exact hr'
    cases hcontrol : q.1 with
    | proceed =>
      rw [hcontrol, if_pos rfl] at h
      simp only [reduceCtorEq, if_false, if_true]
      exact v.follows_descend A run fresh (fun c hchild => ih c (hnode.inv hchild)) hrest
        (by rw [hquit, hcontrol]; rfl) h
    | abort =>
      rw [hcontrol, if_neg (by simp)] at h
      obtain rfl := Run.done.inj h
      simp only [reduceCtorEq, if_false]
      exact ⟨_, .const _, rfl, rfl, leads_following _⟩
    | quit =>
      rw [hcontrol, if_neg (by simp)] at h
      obtain rfl := Run.done.inj h
      simp only [if_true]
      have hover : q.2.2.following.Over := Pace.following_over (by rw [hquit, hcontrol]; rfl)
      obtain ⟨x', hx', hover'⟩ := v.rests_descend A run fresh hrest c hover
      refine ⟨_, hx', rfl, rfl, ?_, fun _ => hover'⟩
      intro hgo
      rw [hquit, hcontrol] at hgo
      cases hgo

end Editor

/-! ## Whole transforms -/

/-- An editor may quit in any callback, also after edits in that callback.  If
no edit was refused up to there, the same tree comes out as from the editor
that makes the same edits, does not quit and makes no further edit. -/
theorem quitting_loses_no_edit [Identified N] (v : Editor N D S) (A : Adapter N)
    (run : Nat) (fresh rootData : D) (root : N) (hroot : A.IsFinite root)
    (hv : v.ChangesFinitely A) (state : S) (limit : Nat)
    (hfinite : (v.transform A run fresh rootData).apply limit root state ≠ .unfinished)
    (hblame : ∀ f, v.Blames f →
      (v.transform A run fresh rootData).apply limit root state ≠ .failed f) :
    ∃ tree,
      Transformed.tree <$> (v.transform A run fresh rootData).apply limit root state = .done tree
      ∧ Run.Settles (fun limit => Transformed.tree <$>
          (v.continuing.transform A run fresh rootData).apply limit root (state, false))
        (.done tree) := by
  obtain ⟨out, hout, -⟩ := (v.keeps_apply A run fresh rootData limit root state).exists_done
    hfinite hblame
  have hsettles : Run.Settles (fun limit =>
      Transformed.tree <$> (v.transform A run fresh rootData).apply limit root state)
      (.done out.tree) := ⟨by simp, limit, by simp [hout]⟩
  obtain ⟨-, levels, hlevels⟩ :=
    (v.settles_apply_iff A run fresh rootData root state _).1 hsettles
  obtain ⟨r, hr, htree⟩ := (Run.map_eq_done_iff _ _ _).1 hlevels
  obtain ⟨r', hr', hfollows⟩ := v.follows_visit A run fresh hv levels _ hroot _ r rfl hr
  have htree' : r'.1.rootNode root = out.tree := by
    rw [Task.rootNode, hfollows.edits, ← htree, Task.rootNode]
  refine ⟨out.tree, by rw [hout, Run.map_done], ?_⟩
  refine (v.continuing.settles_apply_iff A run fresh rootData root _ _).2 ?_
  rw [← htree']
  exact (hr'.map fun r => r.1.rootNode root).settles

theorem hasty_hedge_goes_on :
    ∃ tree, Transformed.tree <$>
        (Editor.hasty.transform Tree.adapter 0 () ()).apply 20 Tree.hedge () = .done tree
      ∧ Run.Settles (fun limit => Transformed.tree <$>
          (Editor.hasty.continuing.transform Tree.adapter 0 () ()).apply limit Tree.hedge
            ((), false)) (.done tree) := by
  have happly : (fun r => r.tree.render) <$>
      (Editor.hasty.transform Tree.adapter 0 () ()).apply 20 Tree.hedge ()
        = .done "a(b(e),x,c(d))" := by cbv
  have hchanges : Editor.hasty.ChangesFinitely Tree.adapter := fun _ _ _ _ n _ => n.isFinite
  refine quitting_loses_no_edit Editor.hasty Tree.adapter 0 () () Tree.hedge
    (Tree.isFinite _) hchanges () 20 ?_ ?_
  · intro h
    simp [h] at happly
  · intro f _ h
    simp [h] at happly

end Topiary
