/-
Topiary.Proofs.Parallel.Interleaving — fork-join walks whose tasks run side by side.

`ForkJoin.visit` runs the tasks of a node's children from left to right.  Here they
may run in any order, one callback at a time: a node that proceeds forks its
children, any of which may go on; when all have finished, it joins them in the order
of the children, merges what they hand over, and is left.

* `Strand` — how far a task and all those below it have come.
* `Event` — a callback: what it was shown, the task as it left it, and for the
  leave of a node the children that were joined and the copy that was made.
* `ForkJoin.Step`, `ForkJoin.Runs` — one callback, and any number of them.
* `Weaves` — a sequence is woven from others, each of which keeps its order.
* `ForkJoin.Runs.shares` — a run below a forked node is woven from the runs of its
  children, up to the join.
* `ForkJoin.Completes` — complete runs, by what happened at the node itself.
* `ForkJoin.Completes.resumes` — from wherever some of it has been run in another
  order, the rest can be run, to the same end.
-/
import Mathlib.Data.List.Perm.Basic
import Topiary.Parallel.Walk

namespace Topiary

/-! ## Steps -/

/-- A task with all those below it, on its way. -/
inductive Strand (N D : Type) where
  /-- It is yet to be started. -/
  | waiting (t : Task N D)
  /-- It was entered, and its children were forked. -/
  | forked (t : Task N D) (kids : List (Strand N D))
  | finished (t : Task N D)

/-- A callback of a fork-join walk. -/
structure Event (N D : Type) where
  /-- What the callback was shown. -/
  context : TaskContext N D
  /-- The task as it left it. -/
  after : Task N D
  /-- The children that were joined before it. -/
  joined : List (Task N D)
  /-- The copies that were made of the node before it. -/
  copies : List (Rebuild N)

namespace ForkJoin

variable {N D : Type}

/-- A task as it is shown if its node repeats one above it. -/
def asBackRef (t : Task N D) : Task N D :=
  inPhase .backRef { t with frame := { t.frame with visited := true } }

/-- One callback, in a strand that lies below these tasks. -/
inductive Step [Identified N] (w : ForkJoin N D) :
    List (Task N D) → Strand N D → Event N D → Strand N D → Prop
  /-- The node repeats one above it. -/
  | backRef {above : List (Task N D)} {t t' : Task N D} {control : Control}
    (repeats : (Sight.mk t.frame (above.map Task.frame) w.rootData).repeatsAbove = true)
    (called : w.call above (asBackRef t) = .ok (control, t')) :
    Step w above (.waiting t) ⟨⟨asBackRef t, above, w.rootData⟩, t', [], []⟩ (.finished t')
  /-- The node is entered, and its children are left out. -/
  | abort {above : List (Task N D)} {t t' : Task N D}
    (fresh : (Sight.mk t.frame (above.map Task.frame) w.rootData).repeatsAbove = false)
    (called : w.call above (inPhase .enter t) = .ok (.abort, t')) :
    Step w above (.waiting t) ⟨⟨inPhase .enter t, above, w.rootData⟩, t', [], []⟩ (.finished t')
  /-- The node is entered, and its children are forked. -/
  | fork {above : List (Task N D)} {t t' : Task N D} {control : Control}
    (fresh : (Sight.mk t.frame (above.map Task.frame) w.rootData).repeatsAbove = false)
    (called : w.call above (inPhase .enter t) = .ok (control, t')) (proceeds : control ≠ .abort) :
    Step w above (.waiting t) ⟨⟨inPhase .enter t, above, w.rootData⟩, t', [], []⟩
      (.forked t' ((w.kids t').map .waiting))
  /-- One of the children goes on; it sees the node as it stands. -/
  | inner {above : List (Task N D)} {t : Task N D} {before after : List (Strand N D)}
    {kid kid' : Strand N D} {e : Event N D} (step : Step w (t :: above) kid e kid') :
    Step w above (.forked t (before ++ kid :: after)) e (.forked t (before ++ kid' :: after))
  /-- All children have finished: their edits are merged, and the node is left. -/
  | leave {above : List (Task N D)} {t t' t'' : Task N D} {joined : List (Task N D)}
    {copies : List (Rebuild N)} {control : Control}
    (completed : w.complete above t (joined.flatMap Task.toChildEdits) = .ok (t', copies))
    (called : w.call above (inPhase .leave t') = .ok (control, t'')) :
    Step w above (.forked t (joined.map .finished))
      ⟨⟨inPhase .leave t', above, w.rootData⟩, t'', joined, copies⟩ (.finished t'')

/-- Callbacks one after the other. -/
inductive Runs [Identified N] (w : ForkJoin N D) (above : List (Task N D)) :
    Strand N D → List (Event N D) → Strand N D → Prop
  | refl (s : Strand N D) : Runs w above s [] s
  | tail {s s' s'' : Strand N D} {es : List (Event N D)} {e : Event N D}
    (run : Runs w above s es s') (step : w.Step above s' e s'') : Runs w above s (es ++ [e]) s''

variable [Identified N] {w : ForkJoin N D} {above : List (Task N D)} {s s' s'' : Strand N D}
  {t : Task N D} {e e' : Event N D} {es es' : List (Event N D)}

/-! ### At most one step at the node itself -/

theorem Step.not_finished (h : w.Step above (.finished t) e s) : False := nomatch h

/-- Whichever callback a waiting task makes first, it is always the same. -/
theorem Step.waiting_unique (h : w.Step above (.waiting t) e s)
    (h' : w.Step above (.waiting t) e' s') : e' = e ∧ s' = s := by
  cases h with
  | backRef repeats called =>
    cases h' with
    | backRef _ called' =>
      obtain ⟨-, rfl⟩ := Prod.mk.inj (Except.ok.inj (called'.symm.trans called))
      exact ⟨rfl, rfl⟩
    | abort fresh _ => exact absurd (repeats.symm.trans fresh) (by simp)
    | fork fresh _ _ => exact absurd (repeats.symm.trans fresh) (by simp)
  | abort fresh called =>
    cases h' with
    | backRef repeats _ => exact absurd (repeats.symm.trans fresh) (by simp)
    | abort _ called' =>
      obtain ⟨-, rfl⟩ := Prod.mk.inj (Except.ok.inj (called'.symm.trans called))
      exact ⟨rfl, rfl⟩
    | fork _ called' proceeds =>
      exact absurd (Prod.mk.inj (Except.ok.inj (called'.symm.trans called))).1 proceeds
  | fork fresh called proceeds =>
    cases h' with
    | backRef repeats _ => exact absurd (repeats.symm.trans fresh) (by simp)
    | abort _ called' =>
      exact absurd (Prod.mk.inj (Except.ok.inj (called.symm.trans called'))).1 proceeds
    | fork _ called' _ =>
      obtain ⟨-, rfl⟩ := Prod.mk.inj (Except.ok.inj (called'.symm.trans called))
      exact ⟨rfl, rfl⟩

/-- When all children have finished, the node is left. -/
theorem Step.joined_cases {joined : List (Task N D)} {start : Strand N D}
    (h : w.Step above start e s) (hstart : start = .forked t (joined.map .finished)) :
    ∃ t' t'' copies control, w.complete above t (joined.flatMap Task.toChildEdits) = .ok (t', copies)
      ∧ w.call above (inPhase .leave t') = .ok (control, t'')
      ∧ e = ⟨⟨inPhase .leave t', above, w.rootData⟩, t'', joined, copies⟩ ∧ s = .finished t'' := by
  cases h with
  | backRef _ _ => nomatch hstart
  | abort _ _ => nomatch hstart
  | fork _ _ _ => nomatch hstart
  | @inner _ _ before after kid kid' _ step =>
    have hkids := (Strand.forked.inj hstart).2
    have hkid : kid ∈ joined.map Strand.finished :=
      hkids ▸ List.mem_append_right _ (List.mem_cons_self ..)
    obtain ⟨done, -, rfl⟩ := List.mem_map.1 hkid
    exact step.not_finished.elim
  | @leave _ _ t' t'' joined' copies control completed called =>
    obtain ⟨rfl, hjoined⟩ := Strand.forked.inj hstart
    obtain rfl : joined' = joined :=
      List.map_injective_iff.2 (fun _ _ h => Strand.finished.inj h) hjoined
    exact ⟨t', t'', copies, control, completed, called, rfl, rfl⟩

theorem Step.joined_unique {joined : List (Task N D)}
    (h : w.Step above (.forked t (joined.map .finished)) e s)
    (h' : w.Step above (.forked t (joined.map .finished)) e' s') : e' = e ∧ s' = s := by
  obtain ⟨t₁, t₂, copies, control, hcomplete, hcall, rfl, rfl⟩ := h.joined_cases rfl
  obtain ⟨t₁', t₂', copies', control', hcomplete', hcall', rfl, rfl⟩ := h'.joined_cases rfl
  obtain ⟨rfl, rfl⟩ := Prod.mk.inj (Except.ok.inj (hcomplete'.symm.trans hcomplete))
  obtain ⟨-, rfl⟩ := Prod.mk.inj (Except.ok.inj (hcall'.symm.trans hcall))
  exact ⟨rfl, rfl⟩

/-! ### Runs -/

theorem Runs.trans (h : w.Runs above s es s') (h' : w.Runs above s' es' s'') :
    w.Runs above s (es ++ es') s'' := by
  induction h' with
  | refl => rwa [List.append_nil]
  | tail _ step ih =>
    rw [← List.append_assoc]
    exact ih.tail step

theorem Step.runs (h : w.Step above s e s') : w.Runs above s [e] s' := (Runs.refl s).tail h

/-- The first step of a run, if it has one. -/
theorem Runs.cases_head (h : w.Runs above s es s') : (es = [] ∧ s' = s)
    ∨ ∃ e rest s₁, es = e :: rest ∧ w.Step above s e s₁ ∧ w.Runs above s₁ rest s' := by
  induction h with
  | refl => exact .inl ⟨rfl, rfl⟩
  | @tail s' s'' es e run step ih =>
    refine .inr ?_
    rcases ih with ⟨rfl, rfl⟩ | ⟨e₁, rest, s₁, rfl, hfirst, hrest⟩
    · exact ⟨e, [], s'', rfl, step, .refl s''⟩
    · exact ⟨e₁, rest ++ [e], s₁, rfl, hfirst, hrest.tail step⟩

/-- A task that has finished makes no further callback. -/
theorem Runs.of_finished (h : w.Runs above (.finished t) es s) : es = [] ∧ s = .finished t := by
  rcases h.cases_head with hnone | ⟨_, _, _, -, step, -⟩
  · exact hnone
  · exact step.not_finished.elim

/-- A child goes on while all others stay as they are. -/
theorem Runs.inner {kid kid' : Strand N D} (h : w.Runs (t :: above) kid es kid')
    (before after : List (Strand N D)) :
    w.Runs above (.forked t (before ++ kid :: after)) es (.forked t (before ++ kid' :: after)) := by
  induction h with
  | refl => exact .refl _
  | tail _ step ih => exact ih.tail (.inner step)

end ForkJoin

/-! ## What children have their share in -/

/-- The sequence is woven from the others: it has all their members and no more, and
each of them keeps its order in it. -/
structure Weaves {α : Type} (parts : List (List α)) (es : List α) : Prop where
  perm : es.Perm parts.flatten
  sublist : ∀ part ∈ parts, part.Sublist es

namespace Weaves

variable {α : Type}

theorem of_nil {parts : List (List α)} (h : ∀ part ∈ parts, part = []) : Weaves parts [] where
  perm := by rw [List.flatten_eq_nil_iff.2 h]
  sublist := fun part hpart => by rw [h part hpart]

/-- One part goes on. -/
theorem extend {before after : List (List α)} {part es : List α}
    (h : Weaves (before ++ part :: after) es) (x : α) :
    Weaves (before ++ (part ++ [x]) :: after) (es ++ [x]) where
  perm := by
    have hperm := h.perm
    simp only [List.flatten_append, List.flatten_cons] at hperm ⊢
    refine (hperm.append_right [x]).trans ?_
    simp only [List.append_assoc]
    exact (List.perm_append_comm.append_left part).append_left _
  sublist := fun other hother => by
    rcases List.mem_append.1 hother with hmem | hmem
    · exact (h.sublist other (List.mem_append_left _ hmem)).trans (List.sublist_append_left ..)
    · rcases List.mem_cons.1 hmem with rfl | hmem
      · exact (h.sublist part (by simp)).append (List.Sublist.refl _)
      · exact (h.sublist other (List.mem_append_right _ (List.mem_cons_of_mem _ hmem))).trans
          (List.sublist_append_left ..)

end Weaves

namespace ForkJoin

variable {N D : Type}

/-- What a child does in a run: where it is at first, its callbacks, where it is then. -/
structure Share (N D : Type) where
  start : Strand N D
  events : List (Event N D)
  stop : Strand N D

variable [Identified N] {w : ForkJoin N D} {above : List (Task N D)} {s s' : Strand N D}
  {t t' : Task N D} {e : Event N D} {es : List (Event N D)} {kids : List (Strand N D)}

/-- A run below a forked node, up to the join: the children make their callbacks as if
each were on its own. -/
structure Shares (w : ForkJoin N D) (above : List (Task N D)) (kids : List (Strand N D))
    (es : List (Event N D)) (shares : List (Share N D)) : Prop where
  starts : shares.map Share.start = kids
  weaves : Weaves (shares.map Share.events) es
  runs : ∀ share ∈ shares, w.Runs above share.start share.events share.stop

theorem Shares.of_nil (w : ForkJoin N D) (above : List (Task N D)) (kids : List (Strand N D)) :
    w.Shares above kids [] (kids.map fun kid => ⟨kid, [], kid⟩) where
  starts := by rw [List.map_map]; exact List.map_id _
  weaves := .of_nil fun part hpart => by
    simp only [List.map_map, List.mem_map] at hpart
    obtain ⟨kid, -, rfl⟩ := hpart
    rfl
  runs := fun share hshare => by
    obtain ⟨kid, -, rfl⟩ := List.mem_map.1 hshare
    exact .refl kid

/-- One child makes a callback. -/
theorem Shares.extend {before after : List (Share N D)} {share : Share N D} {stop : Strand N D}
    (h : w.Shares above kids es (before ++ share :: after)) (step : w.Step above share.stop e stop) :
    w.Shares above kids (es ++ [e])
      (before ++ ⟨share.start, share.events ++ [e], stop⟩ :: after) where
  starts := by
    rw [← h.starts, List.map_append, List.map_append]
    rfl
  weaves := by
    have hweaves := h.weaves
    rw [List.map_append, List.map_cons] at hweaves ⊢
    exact hweaves.extend e
  runs := fun other hother => by
    rcases List.mem_append.1 hother with hmem | hmem
    · exact h.runs other (List.mem_append_left _ hmem)
    · rcases List.mem_cons.1 hmem with rfl | hmem
      · exact (h.runs share (by simp)).tail step
      · exact h.runs other (List.mem_append_right _ (List.mem_cons_of_mem _ hmem))

/-- A run from a forked node: either the children are still on their way, or they were
joined and the node was left. -/
theorem Runs.shares (h : w.Runs above (.forked t kids) es s) :
    (∃ shares, w.Shares (t :: above) kids es shares ∧ s = .forked t (shares.map Share.stop))
      ∨ ∃ (inner : List (Event N D)) (shares : List (Share N D)) (joined : List (Task N D))
        (e : Event N D) (t' : Task N D), es = inner ++ [e]
        ∧ w.Shares (t :: above) kids inner shares ∧ shares.map Share.stop = joined.map .finished
        ∧ w.Step above (.forked t (joined.map .finished)) e (.finished t') ∧ s = .finished t' := by
  induction h with
  | refl =>
    exact .inl ⟨_, .of_nil w _ kids, by rw [List.map_map]; exact congrArg _ (List.map_id _).symm⟩
  | @tail s' s'' es e run step ih =>
    rcases ih with ⟨shares, hshares, rfl⟩ | ⟨_, _, _, _, t', -, -, -, -, rfl⟩
    · generalize hs : Strand.forked t (shares.map Share.stop) = s' at step
      cases step with
      | backRef _ _ => nomatch hs
      | abort _ _ => nomatch hs
      | fork _ _ _ => nomatch hs
      | @inner _ _ before after kid kid' _ step =>
        obtain ⟨rfl, hkids⟩ := Strand.forked.inj hs
        obtain ⟨pre, rest, rfl, rfl, hrest⟩ := List.map_eq_append_iff.1 hkids
        obtain ⟨share, post, rfl, rfl, rfl⟩ := List.map_eq_cons_iff.1 hrest
        exact .inl ⟨_, hshares.extend step, by simp⟩
      | @leave _ _ t₁ t₂ joined copies control completed called =>
        obtain ⟨rfl, hkids⟩ := Strand.forked.inj hs
        exact .inr ⟨es, shares, joined, _, t₂, rfl, hshares, hkids, .leave completed called, rfl⟩
    · exact step.not_finished.elim

/-! ## Complete runs -/

/-- What a child does in a run in which it finishes. -/
structure Part (N D : Type) where
  task : Task N D
  events : List (Event N D)
  final : Task N D

/-- A run from the start of a task to its end, with what happens at the task itself: it
makes one callback and is finished, or it forks its children, whose complete runs are
woven together, and is left. -/
inductive Completes (w : ForkJoin N D) :
    List (Task N D) → Task N D → List (Event N D) → Task N D → Prop
  | stops {above : List (Task N D)} {t t' : Task N D} {e : Event N D}
    (step : w.Step above (.waiting t) e (.finished t')) : Completes w above t [e] t'
  | joins {above : List (Task N D)} {t t' t'' : Task N D} {first last : Event N D}
    {parts : List (Part N D)} {es : List (Event N D)}
    (fork : w.Step above (.waiting t) first (.forked t' ((w.kids t').map .waiting)))
    (kids : parts.map Part.task = w.kids t')
    (weaves : Weaves (parts.map Part.events) es)
    (completes : ∀ part ∈ parts, Completes w (t' :: above) part.task part.events part.final)
    (leave : w.Step above (.forked t' ((parts.map Part.final).map .finished)) last
      (.finished t'')) : Completes w above t (first :: es ++ [last]) t''

omit [Identified N] in
/-- Shares of children that finish are parts. -/
theorem Shares.exists_parts {tasks joined : List (Task N D)} {shares : List (Share N D)}
    (hstarts : shares.map Share.start = tasks.map .waiting)
    (hstops : shares.map Share.stop = joined.map .finished) :
    ∃ parts : List (Part N D), parts.map Part.task = tasks ∧ parts.map Part.final = joined
      ∧ shares = parts.map fun part => ⟨.waiting part.task, part.events, .finished part.final⟩ := by
  induction shares generalizing tasks joined with
  | nil =>
    obtain rfl := List.map_eq_nil_iff.1 hstarts.symm
    obtain rfl := List.map_eq_nil_iff.1 hstops.symm
    exact ⟨[], rfl, rfl, rfl⟩
  | cons share shares ih =>
    obtain ⟨start, events, stop⟩ := share
    obtain ⟨task, tasks, rfl, rfl, htasks⟩ := List.map_eq_cons_iff.1 hstarts.symm
    obtain ⟨done, joined, rfl, rfl, hjoined⟩ := List.map_eq_cons_iff.1 hstops.symm
    obtain ⟨parts, rfl, rfl, rfl⟩ := ih htasks.symm hjoined.symm
    exact ⟨⟨task, events, done⟩ :: parts, rfl, rfl, rfl⟩

/-- What a waiting task does first: it finishes at once, or forks its children. -/
theorem Step.waiting_cases (h : w.Step above (.waiting t) e s) :
    (∃ t', s = .finished t') ∨ ∃ t', s = .forked t' ((w.kids t').map .waiting) := by
  cases h with
  | backRef _ _ => exact .inl ⟨_, rfl⟩
  | abort _ _ => exact .inl ⟨_, rfl⟩
  | fork _ _ _ => exact .inr ⟨_, rfl⟩

/-- Runs from start to end are complete. -/
theorem Runs.completes : ∀ {above : List (Task N D)} {t t' : Task N D} {es : List (Event N D)},
    w.Runs above (.waiting t) es (.finished t') → w.Completes above t es t' := by
  intro above t t' es
  induction hn : es.length using Nat.strongRecOn generalizing above t t' es with
  | ind n ih =>
    intro h
    rcases h.cases_head with ⟨-, hs⟩ | ⟨first, rest, s₁, rfl, hfirst, hrest⟩
    · nomatch hs
    · rcases hfirst.waiting_cases with ⟨t₁, rfl⟩ | ⟨t₁, rfl⟩
      · obtain ⟨rfl, hs⟩ := hrest.of_finished
        obtain rfl := Strand.finished.inj hs
        exact .stops hfirst
      · rcases hrest.shares with ⟨_, -, hs⟩ | ⟨es, shares, joined, last, t₂, rfl, hshares, hstops,
          hleave, hs⟩
        · nomatch hs
        · obtain rfl := Strand.finished.inj hs
          obtain ⟨parts, hkids, rfl, rfl⟩ := Shares.exists_parts hshares.starts hstops
          have hweaves := hshares.weaves
          rw [List.map_map] at hweaves
          refine .joins hfirst hkids hweaves (fun part hpart => ?_) hleave
          have hlength := (hweaves.sublist part.events (List.mem_map_of_mem hpart)).length_le
          refine ih part.events.length ?_ rfl (hshares.runs _ (List.mem_map_of_mem hpart))
          rw [← hn]
          simp only [List.length_cons, List.length_append, List.length_nil]
          omega

/-! ### Other orders -/

/-- From where a run in some order has got to, the walk can go on to this end, and makes
these callbacks in all. -/
def Resumes (w : ForkJoin N D) (above : List (Task N D)) (s : Strand N D) (made all : List (Event N D))
    (final : Task N D) : Prop :=
  ∃ more, w.Runs above s more (.finished final) ∧ (made ++ more).Perm all

/-- Children that can go on one by one can go on all together. -/
theorem Shares.resume {parts : List (Part N D)} {shares : List (Share N D)}
    (hparts : ∀ part ∈ parts, ∀ made s, w.Runs (t :: above) (.waiting part.task) made s →
      w.Resumes (t :: above) s made part.events part.final)
    (hstarts : shares.map Share.start = (parts.map Part.task).map .waiting)
    (hruns : ∀ share ∈ shares, w.Runs (t :: above) share.start share.events share.stop)
    (before : List (Strand N D)) :
    ∃ more, w.Runs above (.forked t (before ++ shares.map Share.stop)) more
        (.forked t (before ++ (parts.map Part.final).map .finished))
      ∧ ((shares.map Share.events).flatten ++ more).Perm (parts.map Part.events).flatten := by
  induction parts generalizing shares before with
  | nil =>
    obtain rfl := List.map_eq_nil_iff.1 hstarts
    exact ⟨[], .refl _, .refl _⟩
  | cons part parts ih =>
    obtain ⟨share, shares, rfl, hstart, hothers⟩ := List.map_eq_cons_iff.1 hstarts
    obtain ⟨hpart, hparts⟩ := List.forall_mem_cons.1 hparts
    obtain ⟨hrun, hruns⟩ := List.forall_mem_cons.1 hruns
    rw [hstart] at hrun
    obtain ⟨more₁, hrun₁, hperm₁⟩ := hpart _ _ hrun
    obtain ⟨more₂, hrun₂, hperm₂⟩ := ih hparts hothers hruns (before ++ [.finished part.final])
    refine ⟨more₁ ++ more₂, (hrun₁.inner before (shares.map Share.stop)).trans ?_, ?_⟩
    · simpa using hrun₂
    · simp only [List.map_cons, List.flatten_cons]
      have hswap : (share.events ++ (shares.map Share.events).flatten ++ (more₁ ++ more₂)).Perm
          (share.events ++ more₁ ++ ((shares.map Share.events).flatten ++ more₂)) := by
        simp only [List.append_assoc]
        refine List.Perm.append_left _ ?_
        simp only [← List.append_assoc]
        exact List.perm_append_comm.append_right _
      exact hswap.trans (hperm₁.append hperm₂)

/-- Once all children have been joined in one order, the node is left in every order. -/
theorem Completes.resumes {es : List (Event N D)} (h : w.Completes above t es t') :
    ∀ made s, w.Runs above (.waiting t) made s → w.Resumes above s made es t' := by
  induction h with
  | @stops above t t' e step =>
    intro made s hmade
    rcases hmade.cases_head with ⟨rfl, rfl⟩ | ⟨first, rest, s₁, rfl, hfirst, hrest⟩
    · exact ⟨[e], step.runs, .refl _⟩
    · obtain ⟨rfl, rfl⟩ := step.waiting_unique hfirst
      obtain ⟨rfl, rfl⟩ := hrest.of_finished
      exact ⟨[], .refl _, .refl _⟩
  | @joins above t t₁ t₂ first last parts es fork kids weaves _ leave ih =>
    -- before the join each child goes on by itself
    have hbefore : ∀ (made : List (Event N D)) (shares : List (Share N D)),
        w.Shares (t₁ :: above) ((w.kids t₁).map .waiting) made shares →
        w.Resumes above (.forked t₁ (shares.map Share.stop)) (first :: made)
          (first :: es ++ [last]) t₂ := by
      intro made shares hshares
      obtain ⟨more, hmore, hperm⟩ := Shares.resume ih
        (by rw [kids]; exact hshares.starts) hshares.runs []
      have hall : (made ++ more).Perm es :=
        ((hshares.weaves.perm.append_right more).trans hperm).trans weaves.perm.symm
      refine ⟨more ++ [last], hmore.tail leave, ?_⟩
      rw [List.cons_append, List.cons_append, ← List.append_assoc]
      exact (hall.append_right [last]).cons first
    intro made s hmade
    rcases hmade.cases_head with ⟨rfl, rfl⟩ | ⟨first', rest, s₁, rfl, hfirst, hrest⟩
    · obtain ⟨more, hmore, hperm⟩ := hbefore [] _ (.of_nil w _ _)
      rw [List.map_map, show Share.stop ∘ _ = id from rfl, List.map_id] at hmore
      exact ⟨first :: more, fork.runs.trans hmore, hperm⟩
    · obtain ⟨rfl, rfl⟩ := fork.waiting_unique hfirst
      rcases hrest.shares with ⟨shares, hshares, rfl⟩ | ⟨inner, shares, joined, last', t₂', rfl,
        hshares, hstops, hleave, rfl⟩
      · exact hbefore rest shares hshares
      · obtain ⟨more, hmore, hperm⟩ := hbefore inner shares hshares
        rw [hstops] at hmore
        rcases hmore.cases_head with ⟨-, hs⟩ | ⟨_, more, _, rfl, hjoin, hmore⟩
        · nomatch hs
        · obtain ⟨rfl, rfl⟩ := hleave.joined_unique hjoin
          refine ⟨more, hmore, ?_⟩
          rwa [List.cons_append, List.append_assoc]

end ForkJoin

end Topiary
