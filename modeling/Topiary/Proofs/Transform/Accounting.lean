/-
Topiary.Proofs.Transform.Accounting — every transform has an account.

An editor that takes notes has, after a visit, the notes of the account of what
was visited, and the ledger has grown by the account's copies.  This is also
true of a visit in which the walk has quit.  A fork-join walk needs no notes:
its visitor answers to a context always the same.

* `Editor.TakesNotes` — editors with notes in their state.
* `Course.Recounts` — a visit that has an account.
* `Editor.recounts_kids`, `Editor.recounts_descend`, `Editor.recounts_visit` — children, a node
  that was entered, a node with everything below it.
* `Editor.exists_account` — whole walks with a work list.
* `ForkJoin.account_visit` — a task with everything below it.
-/
import Topiary.Proofs.Transform.Account
import Topiary.Proofs.Transform.Safety
import Topiary.Proofs.Walk.Reach

namespace Topiary

variable {N D S : Type}

/-! ## Editors with notes -/

/-- In every callback the editor writes down what it is shown and what it does. -/
def Editor.TakesNotes (v : Editor N D (List (Note N D) × S)) : Prop :=
  ∀ c s r, v.call c s = .ok r → r.state.1 = s.1 ++ [⟨c.sight, r.edits⟩]

theorem Editor.journaled_takesNotes (v : Editor N D S) : v.journaled.TakesNotes := by
  intro c s r h
  cases hcall : v.call c s.2 with
  | error m => simp [journaled, hcall, Except.map] at h
  | ok a =>
    simp only [journaled, hcall, Except.map, Except.ok.injEq] at h
    rw [← h]

/-- The callback that was made, by its note. -/
theorem Editor.exists_note_of_ask {v : Editor N D (List (Note N D) × S)} (hv : v.TakesNotes)
    {d : Context N D} {t : Task N D} {x : Pace (List (Note N D) × S)}
    {s : Control × Task N D × Pace (List (Note N D) × S)} (h : v.ask d t x = .ok s) :
    ∃ note : Note N D, note.Makes d.sight.above d.sight.rootData t s.2.1
      ∧ s.2.2.state.1 = x.state.1 ++ [note] := by
  obtain ⟨r, t', hcall, hedits, rfl⟩ := exists_of_ask h
  exact ⟨⟨(d.withFrame t.frame).sight, r.edits⟩, ⟨rfl, t', r.data, hedits, rfl⟩, hv _ _ _ hcall⟩

/-! ## What a visit adds -/

namespace Course

variable {x y z : Course N (Marked N D) (Edited N (List (Note N D) × S))}
  {notes more : List (Note N D)} {ledger extra : List (Rebuild N)}

/-- From one point of a walk to another these notes were taken and these copies made. -/
structure Adds (x y : Course N (Marked N D) (Edited N (List (Note N D) × S)))
    (notes : List (Note N D)) (ledger : List (Rebuild N)) : Prop where
  notes : y.state.state.1 = x.state.state.1 ++ notes
  ledger : y.state.ledger = x.state.ledger ++ ledger

theorem Adds.refl (x : Course N (Marked N D) (Edited N (List (Note N D) × S))) :
    x.Adds x [] [] :=
  ⟨(List.append_nil _).symm, (List.append_nil _).symm⟩

theorem Adds.trans (h : x.Adds y notes ledger) (h' : y.Adds z more extra) :
    x.Adds z (notes ++ more) (ledger ++ extra) :=
  ⟨by rw [h'.notes, h.notes, List.append_assoc], by rw [h'.ledger, h.ledger, List.append_assoc]⟩

/-- What one callback adds is seen in the pace of the walk. -/
theorem adds_of_pace {p : Pace (List (Note N D) × S)} (hpace : y.pace = p)
    (hnotes : p.state.1 = x.state.state.1 ++ notes)
    (hledger : y.state.ledger = x.state.ledger ++ ledger) : x.Adds y notes ledger :=
  ⟨(congrArg (fun p : Pace (List (Note N D) × S) => p.state.1) hpace).trans hnotes, hledger⟩

/-- A visit that leaves a task behind and has an account. -/
structure Recounts [Identified N] (A : Adapter N) (run : Nat) (fresh : D)
    (trail : List (Ancestor N)) (d : Context N D)
    (x y : Course N (Marked N D) (Edited N (List (Note N D) × S))) (t : Task N D)
    (notes : List (Note N D)) (ledger : List (Rebuild N)) : Prop where
  ends : y.Ends A (.ofRun run) trail d.sight.frame (t, y.pace)
  adds : x.Adds y notes ledger
  account : Account A run fresh d.sight.rootData d.sight.above d.sight.frame (!y.quit) t notes ledger

end Course

/-! ## The children of a node -/

namespace Editor

/-- Below a node every visit has an account. -/
def VisitsRecount [Identified N] (A : Adapter N) (run : Nat) (fresh : D)
    (trail : List (Ancestor N))
    (visit : Context N (Marked N D) → Course N (Marked N D) (Edited N (List (Note N D) × S)) →
      Run (Course N (Marked N D) (Edited N (List (Note N D) × S)))) : Prop :=
  ∀ a c x y, Ancestor.Sound A trail.isEmpty a → c.Placed (a :: trail) →
    (c.mapData Marked.data).sight.frame.Unvisited →
    x.state.recorded = Trail.recorded (a :: trail) → visit c x = .done y →
    ∃ t notes ledger,
      Course.Recounts A run fresh (a :: trail) (c.mapData Marked.data) x y t notes ledger

variable {A : Adapter N} {run : Nat} {fresh : D} {trail : List (Ancestor N)}
  {e : Context N (Marked N D)} {d : Context N D} {t : Task N D} {recorded : List (Zipper N)}
  {visit : Context N (Marked N D) → Course N (Marked N D) (Edited N (List (Note N D) × S)) →
    Run (Course N (Marked N D) (Edited N (List (Note N D) × S)))}

/-- What the visits of some children leave behind: branches with accounts, of all of them
if the walk goes on. -/
structure Branched [Identified N] (A : Adapter N) (run : Nat) (fresh : D)
    (trail : List (Ancestor N)) (d : Context N D) (t : Task N D) (kids : List (Location × N))
    (done : List (ChildEdit N))
    (x y : Course N (Marked N D) (Edited N (List (Note N D) × S)))
    (branches : List (Branch N D)) : Prop where
  among : branches.map Branch.located <+: kids
  all : y.quit = false → branches.map Branch.located = kids ∧ ∀ b ∈ branches, b.going = true
  ends : y.EndsAll A (.ofRun run) trail t (done ++ handedOver branches) y.pace
  adds : x.Adds y (branches.flatMap Branch.notes) (branches.flatMap Branch.ledger)
  below : ∀ b ∈ branches, Account A run fresh d.sight.rootData (t.frame :: d.sight.above)
    (t.frame.child b.location b.node fresh) b.going b.task b.notes b.ledger

/-- Visiting children one after the other. -/
theorem recounts_kids [Identified N] (hvisit : VisitsRecount A run fresh trail visit)
    (he : e.Opened d trail recorded t) (hd : t.frame.deleted = false)
    (kids : List (Location × N)) (hnd : (kids.map Prod.fst).Nodup)
    (hkids : ∀ k ∈ kids, (A.children t.frame.node).childAt k.1 = .ok k.2)
    {done : List (ChildEdit N)} (hahead : ∀ e ∈ done, e.location ∉ kids.map Prod.fst)
    (made : Nat) {x y : Course N (Marked N D) (Edited N (List (Note N D) × S))}
    (hq : x.quit = false) (hx : x.EndsAll A (.ofRun run) trail t done x.pace)
    (h : Course.throughEach visit
      (e.below made (e.sight.frame.childFrames ⟨fresh, none⟩ kids)) x = .done y) :
    ∃ branches, Branched A run fresh trail d t kids done x y branches := by
  induction kids generalizing made x done with
  | nil =>
    obtain rfl := Run.done.inj h
    refine ⟨[], List.nil_prefix, fun _ => ⟨rfl, by simp⟩, ?_, .refl x, by simp⟩
    rw [handedOver, List.flatMap_nil, List.append_nil]
    exact hx
  | cons k kids ih =>
    obtain ⟨l, node⟩ := k
    rw [List.map_cons, List.nodup_cons] at hnd
    rw [List.forall_mem_cons] at hkids
    have ha := he.ancestor hd hkids.1 hx.located hx.compatible
      fun x hx hl => hahead x hx (hl ▸ List.mem_cons_self)
    rw [e.below_cons, Course.throughEach, Run.bind_eq_done_iff] at h
    obtain ⟨x₁, hfirst, hrest⟩ := h
    obtain ⟨t₁, notes, ledger, hrecounts⟩ := hvisit _ _ _ _ ha
      (he.child_placed made l node ⟨fresh, none⟩ t.edits done) ⟨rfl, rfl, rfl⟩ (hx.going hq) hfirst
    have hends := hrecounts.ends.endsAll rfl ha
    have haccount := hrecounts.account
    rw [he.child_shows] at haccount
    let b : Branch N D := ⟨l, node, !x₁.quit, t₁, notes, ledger⟩
    cases hx₁ : x₁.quit with
    | true =>
      rw [if_pos hx₁] at hrest
      obtain rfl := Run.done.inj hrest
      refine ⟨[b], by simp [b, Branch.located], fun hgo => ?_, ?_, ?_,
        List.forall_mem_singleton.2 haccount⟩
      · rw [hx₁] at hgo
        cases hgo
      · simpa [handedOver, b] using hends
      · simpa [b] using hrecounts.adds
    | false =>
      rw [if_neg (by simp [hx₁])] at hrest
      have hahead' : ∀ x ∈ done ++ t₁.toChildEdits, x.location ∉ kids.map Prod.fst := by
        refine List.forall_mem_append.2 ⟨fun x hx hmem => ?_, fun x hx => ?_⟩
        · exact hahead x hx (List.mem_cons_of_mem _ hmem)
        · rw [Task.location_of_toChildEdits hrecounts.ends.location x hx]
          exact hnd.1
      obtain ⟨branches, hbranches⟩ := ih hnd.2 hkids.2 hahead' (made + 1) hx₁ hends hrest
      refine ⟨b :: branches, ?_, fun hgo => ?_, ?_, hrecounts.adds.trans hbranches.adds,
        List.forall_mem_cons.2 ⟨haccount, hbranches.below⟩⟩
      · rw [List.map_cons]
        exact List.prefix_cons_inj _ |>.2 hbranches.among
      · obtain ⟨hall, hgoes⟩ := hbranches.all hgo
        exact ⟨by rw [List.map_cons, hall]; rfl, List.forall_mem_cons.2 ⟨by simp [b, hx₁], hgoes⟩⟩
      · have hall := hbranches.ends
        rwa [List.append_assoc] at hall

/-- All children of a node. -/
theorem recounts_allKids [Identified N] (hvisit : VisitsRecount A run fresh trail visit)
    {x y : Course N (Marked N D) (Edited N (List (Note N D) × S))}
    (he : e.Opened d trail x.state.recorded t) (hq : x.quit = false) (made : Nat)
    (h : Course.throughEach visit
      (e.below made (e.sight.frame.childFrames ⟨fresh, none⟩ (kidsOf A t))) x = .done y) :
    (∃ branches, Branched A run fresh trail d t (kidsOf A t) [] x y branches)
      ∧ (t.frame.deleted = true → y.quit = false) := by
  have hstart := he.endsAll_nil hq A (.ofRun run)
  by_cases hd : t.frame.deleted = true
  · rw [kidsOf_of_deleted A hd] at h ⊢
    obtain rfl := Run.done.inj h
    exact ⟨⟨[], List.nil_prefix, fun _ => ⟨rfl, by simp⟩, hstart, .refl x, by simp⟩, fun _ => hq⟩
  · exact ⟨recounts_kids hvisit he (Bool.eq_false_iff.2 hd) _ (nodup_kidsOf A t)
      (fun k hk => ((mem_kidsOf_iff A t k.1 k.2).1 hk).2) (by simp) made hq hstart h,
      fun hgone => absurd hgone hd⟩

/-- The children of a node, and then its `leave`. -/
theorem recounts_descend [Identified N] {v : Editor N D (List (Note N D) × S)} (hv : v.TakesNotes)
    {rootData : D} (hsound : Trail.Sound A trail) (hvisit : VisitsRecount A run fresh trail visit)
    {w x y : Course N (Marked N D) (Edited N (List (Note N D) × S))}
    (he : e.Opened d trail x.state.recorded t) (hq : x.quit = false) {enter : Note N D}
    (henter : enter.Makes d.sight.above d.sight.rootData (.ofFrame d.sight.frame) t)
    (hentered : w.Adds x [enter] [])
    (h : (v.transform A run fresh rootData).traversal.descend visit e x = .done y) :
    ∃ t' notes ledger, Course.Recounts A run fresh trail d w y t' notes ledger := by
  rw [Traversal.descend, v.traversal_kidFrames_eq A run fresh rootData he,
    Run.bind_eq_done_iff] at h
  obtain ⟨z, hkids, hleave⟩ := h
  obtain ⟨⟨branches, hbranches⟩, hgone⟩ := recounts_allKids hvisit
    (x := { x with made := x.made + (e.below x.made (e.sight.frame.childFrames ⟨fresh, none⟩
      (kidsOf A t))).length }) he hq x.made hkids
  have hends := hbranches.ends
  rw [List.nil_append] at hends
  have hbelow : w.Adds z (enter :: branches.flatMap Branch.notes)
      (branches.flatMap Branch.ledger) :=
    hentered.trans ⟨hbranches.adds.notes, hbranches.adds.ledger⟩
  cases hz : z.quit with
  | true =>
    have hopen : t.frame.deleted = false := by
      refine Bool.eq_false_iff.2 fun hd => ?_
      rw [hgone hd] at hz
      cases hz
    rw [Traversal.callLeave, if_pos hz] at hleave
    obtain rfl := Run.done.inj hleave
    refine ⟨_, _, _, (he.ends_merged hopen hends hz).congr henter.location henter.reached,
      hbelow, ?_⟩
    rw [hz]
    exact .cut henter hbranches.among hbranches.below
  | false =>
    obtain ⟨hall, hgoes⟩ := hbranches.all hz
    have hnone : t.frame.deleted = true → handedOver branches = [] := by
      intro hd
      rw [kidsOf_of_deleted A hd] at hall
      rw [handedOver, List.map_eq_nil_iff.1 hall]
      rfl
    have hagrees := v.agrees_leave A run fresh rootData hsound he hends.located hends.compatible
      hnone hz ((hends.going hz).trans (by rw [← he.mirrors.recorded]; rfl))
    rw [hleave] at hagrees
    obtain ⟨s, hask, hleft, hledger⟩ := hagrees.exists_done
    obtain ⟨leave, hmakes, hnotes⟩ := exists_note_of_ask hv
      ((Run.ofExcept_eq_done_iff _ _).1 hask)
    refine ⟨s.2.1, _, _, ?_, hbelow.trans (Course.adds_of_pace hleft.pace hnotes hledger),
      .around henter hall hgoes hbranches.below hmakes⟩
    have hsame : s.2 = (s.2.1, y.pace) := by rw [hleft.pace]
    exact hsame ▸ hleft.congr henter.location henter.reached

/-! ## Whole subtrees -/

/-- A node with everything below it, by induction on the number of levels. -/
theorem recounts_visit [Identified N] {v : Editor N D (List (Note N D) × S)} (hv : v.TakesNotes)
    (A : Adapter N) (run : Nat) (fresh rootData : D) (levels : Nat) :
    ∀ {trail : List (Ancestor N)} {c : Context N (Marked N D)}
      {x y : Course N (Marked N D) (Edited N (List (Note N D) × S))},
    Trail.Sound A trail → c.Placed trail → (c.mapData Marked.data).sight.frame.Unvisited →
    x.state.recorded = Trail.recorded trail →
    (v.transform A run fresh rootData).traversal.visit levels c x = .done y →
    ∃ t notes ledger,
      Course.Recounts A run fresh trail (c.mapData Marked.data) x y t notes ledger := by
  induction levels with
  | zero =>
    intro _ _ _ _ _ _ _ _ h
    cases h
  | succ levels ih =>
    intro trail c x y hsound hc hf hx h
    by_cases hrep : c.sight.repeatsAbove = true
    · rw [Traversal.visit, if_pos hrep] at h
      have hagrees := v.agrees_backRef A run fresh rootData hsound hf.node hx
      rw [h] at hagrees
      obtain ⟨s, hask, hends, hledger⟩ := hagrees.exists_done
      obtain ⟨note, hmakes, hnotes⟩ := exists_note_of_ask hv
        ((Run.ofExcept_eq_done_iff _ _).1 hask)
      have hadds : x.Adds y [note] [] :=
        Course.adds_of_pace hends.pace hnotes (hledger.trans (List.append_nil _).symm)
      have hsame : s.2 = (s.2.1, y.pace) := by rw [hends.pace]
      exact ⟨s.2.1, _, _, hsame ▸ hends, hadds, .alone (by simp) hmakes⟩
    · rw [Traversal.visit_of_not_repeatsAbove _ hrep, Run.bind_eq_done_iff] at h
      obtain ⟨r, hconsult, hrest⟩ := h
      have hagrees := v.agrees_enter A run fresh rootData hc hf
        (x := { x with entered := x.entered + 1 }) hx
      rw [hconsult] at hagrees
      obtain ⟨s, hask, -, hpace, hgoing, hlocation, hreached, hledger, hopened⟩ :=
        hagrees.exists_done
      obtain ⟨enter, hmakes, hnotes⟩ := exists_note_of_ask hv
        ((Run.ofExcept_eq_done_iff _ _).1 hask)
      have hadds : x.Adds r.2.2 [enter] [] :=
        Course.adds_of_pace hpace hnotes (hledger.trans (List.append_nil _).symm)
      by_cases hp : r.1 = .proceed
      · rw [if_pos hp] at hrest
        have hkids : VisitsRecount A run fresh trail
            ((v.transform A run fresh rootData).traversal.visit levels) :=
          fun a c x y ha hc hf hx h => ih ⟨ha, hsound⟩ hc hf hx h
        exact recounts_descend hv hsound hkids hopened (hgoing hp) hmakes hadds hrest
      · rw [if_neg hp] at hrest
        obtain rfl := Run.done.inj hrest
        have hends : Course.Ends A (.ofRun run) trail s.2.1.frame r.2.2 s.2 :=
          .of_mirrors hsound hopened.mirrors rfl hpace
        have hsame : s.2 = (s.2.1, r.2.2.pace) := by rw [hpace]
        refine ⟨s.2.1, _, _, hsame ▸ hends.congr hlocation hreached, hadds, ?_⟩
        have hentering : (c.mapData Marked.data).sight.frame.phase ≠ .leave := by simp [hf.phase]
        exact .alone hentering hmakes

/-! ## Whole walks -/

section Walks

variable [Identified N] {v : Editor N D (List (Note N D) × S)} {limit : Nat} {root : N}
  {state : S} {rootData : D}

/-- A walk with a work list that has come to an end has an account, also if it has quit. -/
theorem exists_account (hv : v.TakesNotes)
    {w : Worklist N (Marked N D) (Edited N (List (Note N D) × S))}
    (h : (v.transform A run fresh rootData).traversal.walk limit [root] ⟨([], state), [], []⟩
      = .done w) :
    ∃ (y : Course N (Marked N D) (Edited N (List (Note N D) × S))) (t : Task N D),
      y.state = w.state ∧ y.quit = w.quit
      ∧ y.Ends A (.ofRun run) [] (.root root fresh) (t, y.pace)
      ∧ Account A run fresh rootData [] (.root root fresh) (!w.quit) t w.state.state.1
        w.state.ledger := by
  let u := (v.transform A run fresh rootData).traversal
  rw [Traversal.walk_unlogged, Run.map_eq_done_iff] at h
  obtain ⟨logged, hlogged, rfl⟩ := h
  have hobserve : u.observe limit [root] ⟨([], state), [], []⟩
      = .done (Traversal.outcome logged) := by
    rw [Traversal.observe, hlogged]
    rfl
  have hsettles : Run.Settles (fun limit => u.observe limit [root] ⟨([], state), [], []⟩)
      (.done (Traversal.outcome logged)) := ⟨by simp, limit, hobserve⟩
  obtain ⟨-, levels, hlevels⟩ := (Traversal.settles_observe_iff rfl [root] _ _).1 hsettles
  replace hlevels : u.recurse levels [root] ⟨([], state), [], []⟩
    = .done (Traversal.outcome logged) := hlevels
  rw [Traversal.recurse_singleton, Run.map_eq_done_iff] at hlevels
  obtain ⟨y, hvisit, hy⟩ := hlevels
  have hstate : y.state = logged.unlogged.state := congrArg Outcome.state hy
  have hquit : y.quit = logged.unlogged.quit := congrArg Outcome.quit hy
  have hplaced : (⟨0, ⟨.root root ⟨fresh, none⟩, [], ⟨rootData, none⟩⟩, []⟩ :
      Context N (Marked N D)).Placed [] := ⟨rfl, rfl, rfl⟩
  obtain ⟨t, notes, ledger, hends, hadds, haccount⟩ := recounts_visit hv A run fresh rootData
    levels (show Trail.Sound A [] from trivial) hplaced ⟨rfl, rfl, rfl⟩ rfl hvisit
  refine ⟨y, t, hstate, hquit, hends, ?_⟩
  rw [← hstate, ← hquit, hadds.notes, hadds.ledger]
  exact haccount

end Walks

/-- A callback of the walk is one of the editor. -/
theorem exists_call_of_traversal [Identified N] {v : Editor N D S} {rootData : D}
    {c : Context N (Marked N D)} {s : Edited N S} {a : Answer N (Marked N D) (Edited N S)}
    (h : (v.transform A run fresh rootData).traversal.visitor c s = .ok a) :
    ∃ d r, v.call d s.state = .ok r ∧ a.control = r.control ∧ a.state.state = r.state := by
  have hbench : ∀ {b : Bench N} {r : EditAnswer N D S × Bench N},
      v.visitor.onBench c b s.state = .ok r →
      ∃ d reply, v.call d s.state = .ok reply ∧ r.1.control = reply.control
        ∧ r.1.state = reply.state := by
    intro b r h
    simp only [EditVisitor.onBench, visitor] at h
    cases hcall : v.call ((c.mapData Marked.data).withNode b.node) s.state with
    | error m => simp [hcall, Except.mapError, Except.map, bind, Except.bind] at h
    | ok reply =>
      simp only [hcall, Except.mapError, Except.map, bind, Except.bind] at h
      cases hact : b.actAll (reply.edits.map .edit) with
      | error f => simp [hact] at h
      | ok b' =>
        simp only [hact, pure, Except.pure, Except.ok.injEq] at h
        exact ⟨_, reply, hcall, by rw [← h], by rw [← h]⟩
  replace h : v.visitor.recording A run c s = .ok a := h
  unfold EditVisitor.recording at h
  cases hphase : c.sight.frame.phase with
  | enter =>
    simp only [hphase, bind, Except.bind] at h
    split at h
    · cases h
    · rename_i r hr
      rw [← Except.ok.inj h]
      exact hbench hr
  | leave =>
    simp only [hphase, bind, Except.bind] at h
    split at h
    · cases h
    · split at h
      · cases h
      · rename_i r hr
        rw [← Except.ok.inj h]
        exact hbench hr
  | backRef =>
    simp only [hphase, bind, Except.bind] at h
    split at h
    · cases h
    · rename_i r hr
      rw [← Except.ok.inj h]
      exact hbench hr

/-- No callback asks to quit. -/
def NeverQuits (v : Editor N D S) : Prop := ∀ c s r, v.call c s = .ok r → r.control ≠ .quit

theorem NeverQuits.journaled {v : Editor N D S} (hv : v.NeverQuits) : v.journaled.NeverQuits := by
  intro c s r h
  cases hcall : v.call c s.2 with
  | error m => simp [Editor.journaled, hcall, Except.map] at h
  | ok a =>
    simp only [Editor.journaled, hcall, Except.map, Except.ok.injEq] at h
    rw [← h]
    exact hv _ _ _ hcall

/-- A transform that comes to an end without quitting has an account. -/
theorem exists_account_of_apply [Identified N] {v : Editor N D S} (hv : v.NeverQuits) {limit : Nat}
    {root : N} {state : S} {rootData : D} {out : Transformed N S}
    (h : (v.transform A run fresh rootData).apply limit root state = .done out) :
    ∃ t notes,
      (v.journaled.transform A run fresh rootData).apply limit root ([], state)
        = .done ⟨out.tree, (notes, out.state), out.ledger⟩
      ∧ Account A run fresh rootData [] (.root root fresh) true t notes out.ledger
      ∧ t.frame.node = out.tree ∧ t.frame.deleted = false := by
  let z := v.journaled.transform A run fresh rootData
  rw [apply_journaled, Run.map_eq_done_iff] at h
  obtain ⟨r, happly, rfl⟩ := h
  have hfinish := happly
  rw [Transform.apply, Run.bind_eq_done_iff] at hfinish
  obtain ⟨w, hwalk, hfinish⟩ := hfinish
  replace hfinish : z.finish root w.state = .done r := hfinish
  have hquit : w.quit = false := by
    refine (Traversal.Reaches.of_run hwalk).quit_eq_false rfl fun c s a ha => ?_
    obtain ⟨d, reply, hcall, hcontrol, -⟩ := exists_call_of_traversal ha
    rw [hcontrol]
    exact hv.journaled _ _ _ hcall
  obtain ⟨y, t, hstate, hyquit, hends, haccount⟩ :=
    exists_account v.journaled_takesNotes hwalk
  rw [hquit] at hyquit haccount
  have hroot : t.edits = [] ∧ t.frame.node = root ∨ t.edits = [(.replace, t.frame.node)] :=
    hends.root rfl
  have hrecorded : w.state.recorded = t.zippers [] := by
    rw [← hstate, hends.going hyquit]
    rfl
  have hdone := z.finish_of_root_edits hrecorded hroot
  obtain rfl := Run.done.inj (hfinish.symm.trans hdone)
  refine ⟨t, w.state.state.1, happly, haccount, rfl, ?_⟩
  obtain ⟨before, after, hstands, -⟩ := haccount.stands ⟨rfl, rfl, rfl⟩
  cases hstands with
  | gone _ hedits =>
    rcases hroot with ⟨hnil, -⟩ | hone
    · simp [hnil] at hedits
    · simp [hone] at hedits
  | there holds _ => exact holds.stays

/-- Deletes the nodes labelled `d`, and puts `x` after the one labelled `e` on leaving it. -/
def grooming : Editor Tree Unit Unit where
  call := fun c _ =>
    let f := c.sight.frame
    if f.phase = .enter ∧ f.node.label = "d" then .ok ⟨.proceed, [.delete], (), ()⟩
    else if f.phase = .leave ∧ f.node.label = "e" then
      .ok ⟨.proceed, [.insertAfter (.node (.given 5) "x" [])], (), ()⟩
    else .ok ⟨.proceed, [], (), ()⟩
  backRef_edits := by
    intro c s r hphase h
    simp only [hphase, reduceCtorEq, false_and, if_false, Except.ok.injEq] at h
    rw [← h]

theorem grooming_neverQuits : grooming.NeverQuits := by
  intro c s r h
  simp only [grooming] at h
  split at h
  · rw [← Except.ok.inj h]
    simp
  · split at h <;> rw [← Except.ok.inj h] <;> simp

end Editor

/-! ## Fork-join walks -/

/-- A callback of a fork-join walk, written down. -/
def TaskVisitor.note (v : TaskVisitor N D) (c : TaskContext N D) : Note N D :=
  ⟨c.sight, match v c with
    | .ok a => a.edits
    | .error _ => []⟩

namespace ForkJoin

variable {A : Adapter N} {v : TaskVisitor N D} {run : Nat} {fresh rootData : D}

/-- A callback, by its note. -/
theorem makes_of_call {above : List (Task N D)} {t : Task N D} {r : Control × Task N D}
    (h : (transforming A v run fresh rootData).call above t = .ok r) :
    (v.note ⟨t, above, rootData⟩).Makes (above.map Task.frame) rootData t r.2 := by
  unfold call at h
  simp only [show (transforming A v run fresh rootData).visitor = v from rfl] at h
  cases hcall : v ⟨t, above, (transforming A v run fresh rootData).rootData⟩ with
  | error f => simp [hcall, bind, Except.bind] at h
  | ok a =>
    simp only [hcall, bind, Except.bind] at h
    cases hedits : t.editAll above.isEmpty a.edits with
    | error f => simp [hedits] at h
    | ok t' =>
      simp only [hedits] at h
      split at h
      · cases h
      · refine ⟨rfl, t', a.data, ?_, ?_⟩
        · rw [TaskVisitor.note, show v ⟨t, above, rootData⟩ = .ok a from hcall, List.isEmpty_map]
          exact hedits
        · rw [← Except.ok.inj h]

/-- The branches of children that were joined. -/
theorem exists_branches {t : Task N D} {above : List (Frame N D)}
    {visit : Task N D → Run (Visit N D)} {kids : List (Location × N)} {ws : List (Visit N D)}
    (hvisit : ∀ k ∈ kids, ∀ w, visit (.ofFrame (t.frame.child k.1 k.2 fresh)) = .done w →
      Account A run fresh rootData above (t.frame.child k.1 k.2 fresh) true w.task
        (w.calls.map v.note) w.ledger)
    (h : ((t.frame.childFrames fresh kids).map Task.ofFrame).mapM visit = .done ws) :
    ∃ branches : List (Branch N D), branches.map Branch.located = kids
      ∧ (∀ b ∈ branches, b.going = true)
      ∧ (∀ b ∈ branches, Account A run fresh rootData above
        (t.frame.child b.location b.node fresh) b.going b.task b.notes b.ledger)
      ∧ handedOver branches = ws.flatMap (fun w => w.task.toChildEdits)
      ∧ branches.flatMap Branch.notes = (ws.flatMap Visit.calls).map v.note
      ∧ branches.flatMap Branch.ledger = ws.flatMap Visit.ledger := by
  induction kids generalizing ws with
  | nil =>
    obtain rfl := Run.done.inj h
    exact ⟨[], rfl, by simp, by simp, rfl, rfl, rfl⟩
  | cons k kids ih =>
    rw [List.forall_mem_cons] at hvisit
    replace h : ((Task.ofFrame (t.frame.child k.1 k.2 fresh))
      :: (t.frame.childFrames fresh kids).map Task.ofFrame).mapM visit = .done ws := h
    rw [List.mapM_cons, Run.bind_eq_done_iff] at h
    obtain ⟨w, hfirst, h⟩ := h
    rw [Run.bind_eq_done_iff] at h
    obtain ⟨ws', hrest, h⟩ := h
    obtain rfl := Run.done.inj h
    obtain ⟨branches, hkids, hgoes, hbelow, hhanded, hnotes, hledger⟩ := ih hvisit.2 hrest
    refine ⟨⟨k.1, k.2, true, w.task, w.calls.map v.note, w.ledger⟩ :: branches, ?_,
      List.forall_mem_cons.2 ⟨rfl, hgoes⟩, List.forall_mem_cons.2 ⟨hvisit.1 w hfirst, hbelow⟩,
      ?_, ?_, ?_⟩
    · rw [List.map_cons, hkids]
      rfl
    · rw [handedOver, List.flatMap_cons, List.flatMap_cons, ← hhanded]
      rfl
    · rw [List.flatMap_cons, List.flatMap_cons, List.map_append, hnotes]
    · rw [List.flatMap_cons, List.flatMap_cons, hledger]

/-- A task with everything below it, by induction on the number of levels. -/
theorem account_visit [Identified N] (hv : v.NeverQuits) (levels : Nat) {above : List (Task N D)}
    {f : Frame N D} (hf : f.Unvisited) {w : Visit N D}
    (h : (transforming A v run fresh rootData).visit levels above (.ofFrame f) = .done w) :
    Account A run fresh rootData (above.map Task.frame) f true w.task (w.calls.map v.note)
      w.ledger := by
  induction levels generalizing above f w with
  | zero => cases h
  | succ levels ih =>
    have henter : inPhase .enter (Task.ofFrame f) = .ofFrame f := by
      rw [inPhase, Task.ofFrame, ← hf.phase]
    rw [visit, henter] at h
    split at h
    · rw [Run.bind_eq_done_iff] at h
      obtain ⟨r, hcall, h⟩ := h
      obtain rfl := Run.done.inj h
      exact .alone (by simp) (makes_of_call ((Run.ofExcept_eq_done_iff _ _).1 hcall))
    · rw [Run.bind_eq_done_iff] at h
      obtain ⟨r, hcall, h⟩ := h
      have henters := makes_of_call ((Run.ofExcept_eq_done_iff _ _).1 hcall)
      dsimp only at h
      split at h
      · obtain rfl := Run.done.inj h
        have hentering : f.phase ≠ .leave := by simp [hf.phase]
        exact .alone hentering henters
      · rw [Run.bind_eq_done_iff] at h
        obtain ⟨ws, hkids, h⟩ := h
        have hsound := Run.Keeps.mapM fun k hk => keeps_visit A v run fresh rootData hv levels
          (r.2 :: above) (coherent_kids (transforming A v run fresh rootData) r.2 k hk)
        rw [hkids] at hsound
        obtain ⟨-, hmerge⟩ := complete_eq A v run fresh rootData above hsound
        have hsite : (transforming A v run fresh rootData).site above r.2
            = (Site.ofRun run).below (f.path (above.map Task.frame)) := by
          have hlocation : r.2.frame.location = f.location := henters.location
          rw [← Frame.path_congr hlocation]
          rfl
        rw [kids_transforming] at hkids
        obtain ⟨branches, hall, hgoes, hbelow, hhanded, hnotes, hledger⟩ :=
          exists_branches (fun k _ w hw => @ih (r.2 :: above) _ ⟨rfl, rfl, rfl⟩ w hw) hkids
        rw [hmerge, Run.ofExcept_ok, Run.done_bind, Run.bind_eq_done_iff] at h
        obtain ⟨q, hcall, h⟩ := h
        have hleaves := makes_of_call ((Run.ofExcept_eq_done_iff _ _).1 hcall)
        obtain rfl := Run.done.inj h
        rw [hsite, ← hhanded] at hleaves ⊢
        rw [List.map_append, List.map_cons, ← hnotes, ← hledger]
        exact .around henters hall hgoes hbelow hleaves

end ForkJoin

end Topiary
