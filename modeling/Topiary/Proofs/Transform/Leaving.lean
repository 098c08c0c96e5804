/-
Topiary.Proofs.Transform.Leaving — what `leave` sees is what the result holds.

When the `leave` of a node starts, its child groups hold what the callbacks of
its children have come to: around each child the nodes that were inserted there,
and the child as its last callback left it, unless it was deleted.  This is so
for every `leave` that a transform gets to, whatever becomes of it afterwards.

* `Gathers` — a callback sees what became of the children of its node.
* `Account.gathers` — every `leave` of an account does.
* `Editor.Shows` — what the next callback of a walk is shown.
* `Editor.stoppingAt` — the editor that stops there, so that there is an account.
* `leave_sees_what_the_result_holds` — all of a transform.
-/
import Topiary.Proofs.Transform.Accounting

namespace Topiary

variable {N D S : Type}

/-! ## What has become of the children -/

/-- After these callbacks `leave` is shown `s`.  Its node was entered with `e`, and there was
no other callback there; what was reached then is still seen.  If `e` has not deleted the node,
each of its children had callbacks, and the child groups now hold what these have come to. -/
structure Gathers (A : Adapter N) (notes : List (Note N D)) (e : Note N D) (s : Sight N D) :
    Prop where
  calls : callsAt notes s.path = [e]
  entered : e.sight.frame.phase = .enter
  reached : s.frame.reached = e.sight.frame.node
  kids : e.outcome.2 = false → ∀ l x, (l, x) ∈ (A.children e.outcome.1).locations
    ↔ ∃ k ∈ callsAt notes (l :: s.path), k.sight.frame.reached = x
  children : e.outcome.2 = false → A.children s.frame.node
    = (A.children e.outcome.1).spread fun l _ => standing (callsAt notes (l :: s.path))

/-- Only callbacks at the node and below it count. -/
theorem Gathers.congr {A : Adapter N} {notes more : List (Note N D)} {e : Note N D}
    {s : Sight N D} (h : Gathers A notes e s)
    (hsame : ∀ q, s.path <:+ q → callsAt more q = callsAt notes q) : Gathers A more e s where
  calls := (hsame _ (List.suffix_refl _)).trans h.calls
  entered := h.entered
  reached := h.reached
  kids := fun hd l x => by
    rw [hsame _ (List.suffix_cons _ _)]
    exact h.kids hd l x
  children := fun hd => by
    rw [h.children hd]
    refine NamedChildren.spread_congr _ fun k _ => ?_
    rw [hsame _ (List.suffix_cons _ _)]

/-! ## Callbacks below a node -/

/-- Where something stands among the members of several lists. -/
theorem exists_of_flatMap_eq {α β : Type} {f : β → List α} {l : List β} {before after : List α}
    {a : α} (h : l.flatMap f = before ++ a :: after) :
    ∃ left b right before' after', l = left ++ b :: right ∧ f b = before' ++ a :: after'
      ∧ before = left.flatMap f ++ before' := by
  induction l generalizing before with
  | nil => simp at h
  | cons c l ih =>
    rw [List.flatMap_cons, List.append_eq_append_iff] at h
    rcases h with ⟨rest, rfl, hrest⟩ | ⟨own, hown, hrest⟩
    · obtain ⟨left, b, right, before', after', rfl, hb, rfl⟩ := ih hrest
      exact ⟨c :: left, b, right, before', after', rfl, hb, by simp⟩
    · cases own with
      | nil =>
        obtain ⟨left, b, right, before', after', rfl, hb, hbefore⟩ :=
          @ih [] (by simpa using hrest.symm)
        refine ⟨c :: left, b, right, before', after', rfl, hb, ?_⟩
        rw [List.flatMap_cons, List.append_assoc, ← hbefore, hown, List.append_nil, List.append_nil]
      | cons a' own =>
        rw [List.cons_append, List.cons.injEq] at hrest
        exact ⟨[], c, l, before, own, rfl, by rw [hown, hrest.1], by simp⟩

namespace Account

variable {A : Adapter N} {run : Nat} {fresh rootData : D} {above : List (Frame N D)}
  {f : Frame N D} {going : Bool} {t opened : Task N D} {notes before after : List (Note N D)}
  {ledger : List (Rebuild N)} {enter n : Note N D} {branches : List (Branch N D)}

/-- The callbacks at a node tell as what it was reached. -/
theorem calls_reached (h : Account A run fresh rootData above f true t notes ledger) :
    callsAt notes (f.path above) ≠ []
      ∧ ∀ k ∈ callsAt notes (f.path above), k.sight.frame.reached = f.reached := by
  cases h with
  | alone _ calls =>
    rw [callsAt_singleton, if_pos (calls.path f rfl)]
    exact ⟨by simp, List.forall_mem_singleton.2 (by rw [calls.sight]; rfl)⟩
  | @around _ _ _ opened _ enter leave branches enters kids _ below leaves =>
    rw [callsAt_append, calls_entered enters (branching_all enters kids below),
      callsAt_singleton, if_pos (leave_path enters leaves)]
    have hmerged := (opened.place_merge A ((Site.ofRun run).below (f.path above))
      (handedOver branches)).2
    refine ⟨by simp, List.forall_mem_cons.2 ⟨by rw [enters.sight]; rfl, ?_⟩⟩
    refine List.forall_mem_singleton.2 ?_
    rw [leaves.sight]
    exact hmerged.trans enters.reached

/-- A callback below a child, in the account of the child. -/
theorem gathers_below (enters : enter.Makes above rootData (.ofFrame f) opened)
    (hbranches : Branches (f.path above) branches)
    (hgathers : ∀ b ∈ branches, ∀ before after, b.notes = before ++ n :: after →
      ∃ e, Gathers A before e n.sight)
    (h : branches.flatMap Branch.notes = before ++ n :: after) :
    ∃ e, Gathers A (enter :: before) e n.sight := by
  obtain ⟨left, b, right, before', after', rfl, hb, rfl⟩ := exists_of_flatMap_eq h
  obtain ⟨e, he⟩ := hgathers b (by simp) before' after' hb
  refine ⟨e, he.congr fun q hq => ?_⟩
  -- Up to the callback the children have these callbacks.
  let branches' := left ++ [{ b with notes := before' }]
  have hbefore : branches'.flatMap Branch.notes = left.flatMap Branch.notes ++ before' := by
    simp [branches']
  have hbranches' : Branches (f.path above) branches' := by
    constructor
    · refine hbranches.nodup.sublist ?_
      simp only [branches', List.map_append, List.map_cons, List.map_nil]
      exact (List.Sublist.refl _).append (by simp)
    · refine List.forall_mem_append.2 ⟨fun c hc => hbranches.suffix c (by simp [hc]),
        List.forall_mem_singleton.2 fun k hk => hbranches.suffix b (by simp) k ?_⟩
      rw [hb]
      exact List.mem_append_left _ hk
  rw [← hbefore, calls_below enters hbranches' (b := { b with notes := before' })
    (by simp [branches'])]
  exact (hbranches.suffix b (by simp) n (by simp [hb])).trans hq

/-- The children of a node that was entered are those with callbacks. -/
theorem mem_located_iff (enters : enter.Makes above rootData (.ofFrame f) opened)
    (hbranches : Branches (f.path above) branches) (goes : ∀ b ∈ branches, b.going = true)
    (below : ∀ b ∈ branches, Account A run fresh rootData (opened.frame :: above)
      (opened.frame.child b.location b.node fresh) b.going b.task b.notes b.ledger)
    (l : Location) (x : N) :
    (l, x) ∈ branches.map Branch.located
      ↔ ∃ k ∈ callsAt (enter :: branches.flatMap Branch.notes) (l :: f.path above),
          k.sight.frame.reached = x := by
  have hlocation : opened.frame.location = f.location := enters.location
  have hcalls : ∀ b ∈ branches,
      callsAt (enter :: branches.flatMap Branch.notes) (b.location :: f.path above) ≠ []
      ∧ ∀ k ∈ callsAt (enter :: branches.flatMap Branch.notes) (b.location :: f.path above),
        k.sight.frame.reached = b.node := by
    intro b hb
    have hown := (goes b hb ▸ below b hb).calls_reached
    rw [Frame.path_child hlocation] at hown
    rw [calls_below enters hbranches hb (List.suffix_refl _)]
    exact hown
  constructor
  · intro hmem
    obtain ⟨b, hb, hbx⟩ := List.mem_map.1 hmem
    obtain ⟨rfl, rfl⟩ := Prod.mk.inj hbx
    obtain ⟨hne, hall⟩ := hcalls b hb
    obtain ⟨k, hk⟩ := List.exists_mem_of_ne_nil _ hne
    exact ⟨k, hk, hall k hk⟩
  · rintro ⟨k, hk, rfl⟩
    have hkpath : k.path = l :: f.path above := of_decide_eq_true (List.mem_filter.1 hk).2
    have hne : k ≠ enter := by
      rintro rfl
      rw [enters.path f rfl] at hkpath
      simp at hkpath
    have hmem := (List.mem_cons.1 (List.mem_filter.1 hk).1).resolve_left hne
    obtain ⟨b, hb, hkb⟩ := List.mem_flatMap.1 hmem
    have hsuffix := hbranches.suffix b hb k hkb
    rw [hkpath] at hsuffix
    obtain rfl := eq_of_suffix hsuffix (List.suffix_refl _)
    rw [(hcalls b hb).2 k hk]
    exact List.mem_map_of_mem hb

/-- A node that was entered, when its `leave` starts. -/
theorem gathers_leave (hA : A.Lawful) (hf : f.Unvisited)
    (enters : enter.Makes above rootData (.ofFrame f) opened)
    (kids : branches.map Branch.located = Editor.kidsOf A opened)
    (goes : ∀ b ∈ branches, b.going = true)
    (below : ∀ b ∈ branches, Account A run fresh rootData (opened.frame :: above)
      (opened.frame.child b.location b.node fresh) b.going b.task b.notes b.ledger)
    (leaves : n.Makes above rootData (ForkJoin.inPhase .leave
      (opened.merge A ((Site.ofRun run).below (f.path above)) (handedOver branches))) t) :
    Gathers A (enter :: branches.flatMap Branch.notes) enter n.sight := by
  have hbranches := branching_all enters kids below
  have hpath : n.sight.path = f.path above := leave_path enters leaves
  have hplace := (opened.place_merge A ((Site.ofRun run).below (f.path above))
    (handedOver branches)).2
  constructor
  · rw [hpath]
    exact calls_entered enters hbranches
  · rw [enters.sight]
    exact hf.phase
  · rw [enters.sight, leaves.sight]
    exact (hplace.trans enters.reached).trans hf.node.symm
  · intro hd l x
    rw [enters.outcome] at hd ⊢
    rw [← Editor.kidsOf_of_open A hd, ← kids, hpath]
    exact mem_located_iff enters hbranches goes below l x
  · intro hd
    rw [enters.outcome] at hd ⊢
    rw [hpath, leaves.sight]
    exact children_merge enters kids goes below hA hd

/-- Every `leave` of an account sees what became of the children of its node. -/
theorem gathers (hA : A.Lawful) (h : Account A run fresh rootData above f going t notes ledger)
    (hf : f.Unvisited) (hnotes : notes = before ++ n :: after)
    (hleave : n.sight.frame.phase = .leave) : ∃ e, Gathers A before e n.sight := by
  have henter : ∀ {above : List (Frame N D)} {f : Frame N D} {opened : Task N D}
      {enter : Note N D}, f.Unvisited → enter.Makes above rootData (.ofFrame f) opened →
      n ≠ enter := by
    rintro above f opened enter hf henters rfl
    rw [henters.sight] at hleave
    have hphase : f.phase = .leave := hleave
    rw [hf.phase] at hphase
    cases hphase
  induction h generalizing before after with
  | @alone _ _ _ _ _ _ note entering calls =>
    have hmem : n ∈ [note] := by simp [hnotes]
    rw [List.mem_singleton.1 hmem, calls.sight] at hleave
    exact absurd hleave entering
  | @around above f _ opened t enter leave branches enters kids goes below leaves ih =>
    obtain _ | ⟨_, before⟩ := before
    · exact absurd (List.cons.inj hnotes).1.symm (henter hf enters)
    obtain ⟨rfl, hrest⟩ := List.cons.inj hnotes
    rcases List.eq_nil_or_concat after with rfl | ⟨after, last, rfl⟩
    · obtain ⟨rfl, hlast⟩ := List.append_inj' hrest rfl
      obtain rfl := List.singleton_inj.1 hlast
      exact ⟨enter, gathers_leave hA hf enters kids goes below leaves⟩
    · have hsplit : branches.flatMap Branch.notes ++ [leave] = (before ++ n :: after) ++ [last] := by
        simpa using hrest
      exact gathers_below enters (branching_all enters kids below)
        (fun b hb _ _ hb' => ih b hb ⟨rfl, rfl, rfl⟩ hb') (List.append_inj' hsplit rfl).1
  | @cut above f opened t enter branches enters kids below ih =>
    obtain _ | ⟨_, before⟩ := before
    · exact absurd (List.cons.inj hnotes).1.symm (henter hf enters)
    obtain ⟨rfl, hrest⟩ := List.cons.inj hnotes
    exact gathers_below enters (branching enters kids below)
      (fun b hb _ _ hb' => ih b hb ⟨rfl, rfl, rfl⟩ hb') hrest

end Account

/-! ## What the next callback is shown -/

/-- The transform on its way, with notes. -/
abbrev Journey (N D S : Type) := Worklist N (Marked N D) (Edited N (List (Note N D) × S))

/-- The callbacks made so far. -/
def Worklist.notes (w : Journey N D S) : List (Note N D) := w.state.state.1

namespace Editor

/-- The editor that writes down what it is shown, and quits. -/
def onlooker : Editor N D (List (Note N D) × S) where
  call := fun c s => .ok ⟨.quit, [], c.sight.frame.data, (s.1 ++ [⟨c.sight, []⟩], s.2)⟩
  backRef_edits := by
    intro c s r _ h
    rw [← Except.ok.inj h]

/-- The editor that does as `v`, and looks on from the callback with this number on. -/
def stoppingAt (v : Editor N D (List (Note N D) × S)) (number : Nat) :
    Editor N D (List (Note N D) × S) where
  call := fun c s => if s.1.length < number then v.call c s else onlooker.call c s
  backRef_edits := by
    intro c s r hphase h
    split at h
    · exact v.backRef_edits c s r hphase h
    · exact onlooker.backRef_edits c s r hphase h

variable {v u : Editor N D (List (Note N D) × S)} {number : Nat}

theorem onlooker_takesNotes : (onlooker : Editor N D (List (Note N D) × S)).TakesNotes := by
  intro c s r h
  rw [← Except.ok.inj h]

theorem TakesNotes.stoppingAt (hv : v.TakesNotes) : (v.stoppingAt number).TakesNotes := by
  intro c s r h
  replace h : (if s.1.length < number then v.call c s else onlooker.call c s) = .ok r := h
  split at h
  · exact hv c s r h
  · rw [← Except.ok.inj h]

section Walks

variable [Identified N] (A : Adapter N) (run : Nat) (fresh rootData : D) {w x : Journey N D S}

/-- The next callback of the walk is shown this: whoever is called, it would be shown to one
who only looks. -/
def Shows (w : Journey N D S) (s : Sight N D) : Prop :=
  ∃ x, ((onlooker : Editor N D (List (Note N D) × S)).transform A run fresh rootData).traversal.next? w
      = some x ∧ x.notes = w.notes ++ [⟨s, []⟩]

/-- Of an editor its answer in the state that is reached counts only. -/
theorem next?_congr (h : ∀ d, v.call d w.state.state = u.call d w.state.state) :
    (v.transform A run fresh rootData).traversal.next? w
      = (u.transform A run fresh rootData).traversal.next? w := by
  have hbench : ∀ c b, v.visitor.onBench c b w.state.state = u.visitor.onBench c b w.state.state := by
    intro c b
    simp only [EditVisitor.onBench, visitor, h]
  have hvisitor : ∀ c, (v.transform A run fresh rootData).traversal.visitor c w.state
      = (u.transform A run fresh rootData).traversal.visitor c w.state := by
    intro c
    show v.visitor.recording A run c w.state = u.visitor.recording A run c w.state
    simp only [EditVisitor.recording, hbench]
  unfold Traversal.next?
  split
  · rfl
  · cases hpending : w.pending with
    | nil => rfl
    | cons item pending =>
      have hwork := Traversal.work_congr (u := (v.transform A run fresh rootData).traversal)
        (t := (u.transform A run fresh rootData).traversal) (w := { w with pending })
        rfl rfl rfl rfl hvisitor item
      exact congrArg Except.toOption hwork

/-- A turn of the loop makes one callback, or has nothing to do whoever is called. -/
theorem next?_cases (hv : v.TakesNotes)
    (h : (v.transform A run fresh rootData).traversal.next? w = some x) :
    (x.notes = w.notes ∧ ∀ u : Editor N D (List (Note N D) × S),
        (u.transform A run fresh rootData).traversal.next? w = some x)
      ∨ ∃ d r, v.call d w.state.state = .ok r ∧ x.quit = (r.control == .quit)
        ∧ x.notes = w.notes ++ [⟨d.sight, r.edits⟩] := by
  obtain ⟨hgoing, item, pending, hpending, hwork⟩ := Traversal.next?_eq_some_iff.1 h
  rcases Traversal.work_cases hwork with ⟨rfl, hall⟩ | ⟨c, a, ha, hstate, hquit⟩
  · exact .inl ⟨rfl, fun u => Traversal.next?_eq_some_iff.2 ⟨hgoing, item, pending, hpending, hall _⟩⟩
  · obtain ⟨d, r, hcall, hcontrol, hr⟩ := exists_call_of_traversal ha
    refine .inr ⟨d, r, hcall, hcontrol ▸ hquit, ?_⟩
    rw [Worklist.notes, hstate, hr]
    exact hv _ _ _ hcall

/-- Up to the callback at which it stops the editor gets as far. -/
theorem reaches_stoppingAt (hv : v.TakesNotes)
    (h : (v.transform A run fresh rootData).traversal.Reaches w x)
    (hx : x.notes.length ≤ number) :
    ((v.stoppingAt number).transform A run fresh rootData).traversal.Reaches w x := by
  induction h with
  | refl => exact .refl
  | @tail y x _ hnext ih =>
    rcases next?_cases A run fresh rootData hv hnext with ⟨hsame, hall⟩ | ⟨d, r, -, -, hmore⟩
    · exact .tail (ih (hsame ▸ hx)) (hall _)
    · rw [hmore, List.length_append, List.length_singleton] at hx
      have hcalls : ∀ d, (v.stoppingAt number).call d y.state.state = v.call d y.state.state :=
        fun d => if_pos hx
      exact .tail (ih (Nat.le_of_succ_le hx))
        ((next?_congr A run fresh rootData hcalls).trans hnext)

/-- Up to the next callback there is an account. -/
theorem exists_account_of_shows (hv : v.TakesNotes) {root : N} {state : S} {s : Sight N D}
    (hw : (v.transform A run fresh rootData).traversal.Reaches
      ((v.transform A run fresh rootData).traversal.start [root] ⟨([], state), [], []⟩) w)
    (hs : Shows A run fresh rootData w s) :
    ∃ going t ledger, Account A run fresh rootData [] (.root root fresh) going t
      (w.notes ++ [⟨s, []⟩]) ledger := by
  obtain ⟨x, hnext, hnotes⟩ := hs
  let u := v.stoppingAt w.notes.length
  have hcalls : ∀ d, u.call d w.state.state = onlooker.call d w.state.state :=
    fun d => if_neg (Nat.lt_irrefl _)
  have hreaches : (u.transform A run fresh rootData).traversal.Reaches
      ((v.transform A run fresh rootData).traversal.start [root] ⟨([], state), [], []⟩) x :=
    .tail (reaches_stoppingAt A run fresh rootData hv hw (Nat.le_refl _))
      ((next?_congr A run fresh rootData hcalls).trans hnext)
  have hquit : x.quit = true := by
    rcases next?_cases A run fresh rootData onlooker_takesNotes hnext with
      ⟨hsame, -⟩ | ⟨d, r, hcall, hquit, -⟩
    · simp [hnotes] at hsame
    · rw [hquit, ← Except.ok.inj hcall]
      rfl
  obtain ⟨turns, hturns⟩ := hreaches.exists_run_eq
  have hwalk : (u.transform A run fresh rootData).traversal.walk turns [root]
      ⟨([], state), [], []⟩ = .done x := by
    refine (hturns 0).trans ?_
    rw [Traversal.run, if_pos (by simp [hquit])]
  obtain ⟨y, t, -, -, -, haccount⟩ := exists_account hv.stoppingAt hwalk
  rw [show x.state.state.1 = _ from hnotes] at haccount
  exact ⟨_, t, _, haccount⟩

end Walks

end Editor

/-! ## Whole transforms -/

/-- Whenever `leave` starts in a transform, be it that the transform fails in it or later, the
node's child groups are what its children's callbacks have come to.  If the visitor does not
quit and no edit is refused, a finite transform returns the root as its last callback left it. -/
theorem leave_sees_what_the_result_holds [Identified N] {A : Adapter N} (hA : A.Lawful)
    {v : Editor N D S} (hv : v.NeverQuits) (run : Nat) (fresh rootData : D) (root : N)
    (state : S) :
    (∀ w s, (v.journaled.transform A run fresh rootData).traversal.Reaches
          ((v.journaled.transform A run fresh rootData).traversal.start [root]
            ⟨([], state), [], []⟩) w →
        Editor.Shows A run fresh rootData w s → s.frame.phase = .leave →
        ∃ e, Gathers A w.notes e s)
    ∧ ∀ limit, (v.transform A run fresh rootData).apply limit root state ≠ .unfinished →
        (∀ f, v.Blames f →
          (v.transform A run fresh rootData).apply limit root state ≠ .failed f) →
        ∃ out notes, (v.transform A run fresh rootData).apply limit root state = .done out
          ∧ (v.journaled.transform A run fresh rootData).apply limit root ([], state)
            = .done ⟨out.tree, (notes, out.state), out.ledger⟩
          ∧ remaining (callsAt notes []) = [out.tree] := by
  constructor
  · intro w s hw hs hleave
    obtain ⟨going, t, ledger, haccount⟩ := Editor.exists_account_of_shows A run fresh rootData
      v.journaled_takesNotes hw hs
    exact haccount.gathers (n := ⟨s, []⟩) hA ⟨rfl, rfl, rfl⟩ rfl hleave
  · intro limit hfinite hblame
    obtain ⟨out, hout, -⟩ := (v.keeps_apply A run fresh rootData limit root state).exists_done
      hfinite hblame
    obtain ⟨t, notes, hjournaled, haccount, htree, hthere⟩ :=
      Editor.exists_account_of_apply hv hout
    refine ⟨out, notes, hout, hjournaled, ?_⟩
    have hremaining := haccount.remaining_calls
    rw [hthere, htree] at hremaining
    exact hremaining

theorem groomed_hedge_is_seen :
    (∃ w s e, (Editor.grooming.journaled.transform Tree.adapter 0 () ()).traversal.Reaches
          ((Editor.grooming.journaled.transform Tree.adapter 0 () ()).traversal.start [Tree.hedge]
            ⟨([], ()), [], []⟩) w
        ∧ Editor.Shows Tree.adapter 0 () () w s ∧ s.frame.node.render = "b(e,x)"
        ∧ Gathers Tree.adapter w.notes e s)
    ∧ ∃ (out : Transformed Tree Unit) (notes : List (Note Tree Unit)),
        (Editor.grooming.transform Tree.adapter 0 () ()).apply 20 Tree.hedge () = .done out
        ∧ out.tree.render = "a(b(e,x),c())" ∧ remaining (callsAt notes []) = [out.tree] := by
  obtain ⟨hleave, hreturns⟩ := leave_sees_what_the_result_holds Tree.adapter_lawful
    Editor.grooming_neverQuits 0 () () Tree.hedge ()
  have hsteps : ((Editor.grooming.journaled.transform Tree.adapter 0 () ()).traversal.after 6
      ((Editor.grooming.journaled.transform Tree.adapter 0 () ()).traversal.start [Tree.hedge]
        ⟨([], ()), [], []⟩) >>= fun w =>
      (((Editor.onlooker : Editor Tree Unit (List (Note Tree Unit) × Unit)).transform
          Tree.adapter 0 () ()).traversal.next? w).map fun x =>
        (w.notes.length, x.notes.length, (x.notes.getLast?).map fun n =>
          (n.sight.frame.phase, n.sight.frame.node.render)))
      = some (6, 7, some (.leave, "b(e,x)")) := by cbv
  have happly : (fun r => r.tree.render) <$>
      (Editor.grooming.transform Tree.adapter 0 () ()).apply 20 Tree.hedge ()
        = .done "a(b(e,x),c())" := by cbv
  constructor
  · obtain ⟨w, hw, hx⟩ := Option.bind_eq_some_iff.1 hsteps
    obtain ⟨x, hnext, hx⟩ := Option.map_eq_some_iff.1 hx
    obtain ⟨hbefore, hafter⟩ := Prod.mk.inj hx
    obtain ⟨hafter, hlast⟩ := Prod.mk.inj hafter
    rcases Editor.next?_cases Tree.adapter 0 () () Editor.onlooker_takesNotes hnext with
      ⟨hsame, -⟩ | ⟨d, r, hcall, -, hnotes⟩
    · rw [hsame, hbefore] at hafter
      cases hafter
    · rw [← Except.ok.inj hcall] at hnotes
      rw [hnotes, List.getLast?_concat, Option.map_some] at hlast
      obtain ⟨hphase, hrender⟩ := Prod.mk.inj (Option.some.inj hlast)
      have hreaches := Traversal.reaches_of_after hw
      have hshows : Editor.Shows Tree.adapter 0 () () w d.sight := ⟨x, hnext, hnotes⟩
      obtain ⟨e, he⟩ := hleave w d.sight hreaches hshows hphase
      exact ⟨w, d.sight, e, hreaches, hshows, hrender, he⟩
  · obtain ⟨out, notes, hout, -, hremaining⟩ := hreturns 20 (by
      intro h
      simp [h] at happly) (by
      intro f _ h
      simp [h] at happly)
    rw [hout] at happly
    exact ⟨out, notes, hout, Run.done.inj happly, hremaining⟩

end Topiary
