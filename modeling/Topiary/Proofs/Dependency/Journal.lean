/-
Topiary.Proofs.Dependency.Journal — what a schedule does, event by event.

A schedule works on its graph only where it closes a vertex.  The journal of a run
lists these moments and those at which vertices are handed out, in the order in
which they come, also of a run that ends with a fault.

* `Schedule.Event`, `Schedule.journal` — the events of a run.
* `Schedule.Closing`, `Schedule.Quiet` — a step that closes one vertex, and a step
  that nobody notices.
* `Schedule.Linked` — the events lead from one schedule to the other, and nothing
  else happens in between.
* `Books.markEligible` — what becomes eligible.
* `linked_journal` — the journal leads from the first to the last schedule of a run.
* `Linked.isClosed_iff`, `Linked.nodup_closed` — closed is what the journal closes,
  each vertex once.
-/
import Topiary.Proofs.Dependency.Orderly

namespace Topiary

namespace Schedule

open DependencyGraph

variable {V κ α : Type}

/-! ## Events -/

/-- What a schedule does to its graph or hands out. -/
inductive Event (V κ α : Type) where
  /-- The vertex becomes closed, which leaves this graph. -/
  | close (v : Nat) (graph : DependencyGraph V κ α)
  /-- The vertices are handed out. -/
  | handOut (ids : List Nat)

/-- The vertices that are closed or handed out. -/
def Event.subjects : Event V κ α → List Nat
  | .close v _ => [v]
  | .handOut ids => ids

/-- The vertex that is closed, if one is. -/
def Event.closed? : Event V κ α → Option Nat
  | .close v _ => some v
  | .handOut _ => none

/-- The vertices that are closed by a list of events, in order. -/
def closedBy (events : List (Event V κ α)) : List Nat := events.filterMap Event.closed?

@[simp] theorem closedBy_nil : closedBy ([] : List (Event V κ α)) = [] := rfl

@[simp] theorem closedBy_close (v : Nat) (graph : DependencyGraph V κ α)
    (events : List (Event V κ α)) : closedBy (.close v graph :: events) = v :: closedBy events :=
  rfl

@[simp] theorem closedBy_handOut (ids : List Nat) (events : List (Event V κ α)) :
    closedBy (.handOut ids :: events) = closedBy events := rfl

@[simp] theorem closedBy_append (events events' : List (Event V κ α)) :
    closedBy (events ++ events') = closedBy events ++ closedBy events' :=
  List.filterMap_append

/-! ## The journal -/

section

variable [Vertex V κ] [EdgeAction α V]

/-- The events of closing vertices in order. -/
def closeEvents : Schedule V κ α → List Nat → List (Event V κ α)
  | _, [] => []
  | s, id :: ids =>
    match s.closeOne id with
    | .error _ => []
    | .ok t => (if s.isClosed id then [] else [.close id t.graph]) ++ closeEvents t ids

/-- The ready vertices that can close themselves. -/
def resolvable (s : Schedule V κ α) : List Nat :=
  ((List.range s.graph.size).filter s.isReady).filter s.canResolve

/-- The ready vertices that cannot. -/
def offered (s : Schedule V κ α) : List Nat :=
  ((List.range s.graph.size).filter s.isReady).filter (not ∘ s.canResolve)

/-- A pass closes what closes itself; the last pass, in which nothing does, makes
the other ready vertices eligible. -/
theorem closureWithin_succ (passes : Nat) (s : Schedule V κ α) :
    s.closureWithin (passes + 1) =
      if s.resolvable.isEmpty then
        if s.offered.isEmpty then
          match s.checkCycle with
          | .error f => (s, .error f)
          | .ok () => (s, .ok [])
        else (s.markEligible s.offered, .ok s.offered)
      else
        match s.close s.resolvable with
        | (s, .error f) => (s, .error f)
        | (s, .ok ()) => closureWithin passes s := by
  simp only [closureWithin, List.partition_eq_filter_filter]
  rfl

/-- The events of computing a closure. -/
def closureEvents : (passes : Nat) → Schedule V κ α → List (Event V κ α)
  | 0, _ => []
  | passes + 1, s =>
    if s.resolvable.isEmpty then []
    else s.closeEvents s.resolvable ++
      match s.close s.resolvable with
      | (_, .error _) => []
      | (t, .ok ()) => closureEvents passes t

/-- The events of closing the rest of the last closure. -/
def restEvents (s : Schedule V κ α) : List (Event V κ α) :=
  if s.options.autoClose && !s.yielded.isEmpty then
    closeEvents { s with yielded := [] } s.yielded
  else []

/-- The events of asking for another closure. -/
def hasNextEvents (s : Schedule V κ α) : List (Event V κ α) :=
  s.restEvents ++
    match s.closeRest with
    | (_, .error _) => []
    | (t, .ok ()) => if t.pending.isEmpty then t.closureEvents t.unclosed else []

/-- The events of a call. -/
def callEvents (s : Schedule V κ α) : Call → List (Event V κ α)
  | .hasNext => s.hasNextEvents
  | .next => s.hasNextEvents ++
    match s.next.2 with
    | .ok (some ids) => [.handOut ids]
    | _ => []
  | .close ids => s.closeEvents ids

/-- The events of calls up to the first fault. -/
def journal : Schedule V κ α → List Call → List (Event V κ α)
  | _, [] => []
  | s, call :: calls => s.callEvents call ++
    match s.perform call with
    | (_, .error _) => []
    | (t, .ok _) => journal t calls

end

/-! ## Steps -/

/-- Neither the graph nor what is closed changes. -/
structure Quiet (s s' : Schedule V κ α) : Prop where
  graph : s'.graph = s.graph
  isClosed : s'.isClosed = s.isClosed

theorem Quiet.refl (s : Schedule V κ α) : Quiet s s := ⟨rfl, rfl⟩

theorem Quiet.trans {s s' s'' : Schedule V κ α} (h : Quiet s s') (h' : Quiet s' s'') :
    Quiet s s'' :=
  ⟨h'.graph.trans h.graph, h'.isClosed.trans h.isClosed⟩

/-- A vertex that was not closed is resolved and is closed from now on. -/
structure Closing [Vertex V κ] [EdgeAction α V] (s : Schedule V κ α) (v : Nat)
    (s' : Schedule V κ α) : Prop where
  not_closed : s.isClosed v = false
  resolve : s.graph.resolve v = .ok s'.graph
  isClosed : ∀ u, s'.isClosed u = true ↔ u = v ∨ s.isClosed u = true

/-- The events lead from one schedule to the other, and nothing happens to the
graph or to what is closed apart from them. -/
inductive Linked [Vertex V κ] [EdgeAction α V] :
    Schedule V κ α → List (Event V κ α) → Schedule V κ α → Prop
  | quiet {s s' : Schedule V κ α} : Quiet s s' → Linked s [] s'
  | close {s t t' s' : Schedule V κ α} {v : Nat} {events : List (Event V κ α)} :
    Quiet s t → Closing t v t' → Linked t' events s' → Linked s (.close v t'.graph :: events) s'
  | handOut {s t s' : Schedule V κ α} {events : List (Event V κ α)} (ids : List Nat) :
    Quiet s t → Linked t events s' → Linked s (.handOut ids :: events) s'

section

variable [Vertex V κ] [EdgeAction α V] {s s' t : Schedule V κ α} {events : List (Event V κ α)}

theorem Linked.refl (s : Schedule V κ α) : Linked s [] s := .quiet (.refl s)

theorem Linked.after (hquiet : Quiet s t) (h : Linked t events s') : Linked s events s' := by
  cases h with
  | quiet h => exact .quiet (hquiet.trans h)
  | close h hclosing hrest => exact .close (hquiet.trans h) hclosing hrest
  | handOut ids h hrest => exact .handOut ids (hquiet.trans h) hrest

theorem Linked.append {events' : List (Event V κ α)} (h : Linked s events t)
    (h' : Linked t events' s') : Linked s (events ++ events') s' := by
  induction h with
  | quiet hquiet => exact h'.after hquiet
  | close hquiet hclosing _ ih => exact .close hquiet hclosing (ih h')
  | handOut ids hquiet _ ih => exact .handOut ids hquiet (ih h')

/-- The last schedule is seen only as far as the graph and what is closed. -/
theorem Linked.before (h : Linked s events t) (hquiet : Quiet t s') : Linked s events s' := by
  simpa using h.append (.quiet hquiet)

/-! ## The journal leads through the run -/

/-- Closing a vertex passes it over or closes it. -/
theorem closing_of_closeOne {id : Nat} (h : s.closeOne id = .ok t) :
    (s.isClosed id = true ∧ t = s) ∨ Closing s id t := by
  unfold closeOne at h
  split at h
  · cases h
  · next hclosed =>
    refine .inl ⟨(isClosed_iff s id).2 hclosed, (Except.ok.inj h).symm⟩
  · next status hstatus hopen =>
    cases hresolve : s.graph.resolve id with
    | error f =>
      rw [hresolve] at h
      cases h
    | ok graph =>
      rw [hresolve] at h
      obtain rfl := Except.ok.inj h
      refine .inr ⟨?_, hresolve, fun u => ?_⟩
      · rw [Bool.eq_false_iff, ne_eq, isClosed_iff, hopen, Option.some.injEq]
        exact hstatus
      · obtain ⟨hlt, -⟩ := List.getElem?_eq_some_iff.1 hopen
        rw [isClosed_iff, isClosed_iff, List.getElem?_set]
        by_cases hu : id = u
        · simp [hu ▸ hlt, hu]
        · simp [hu, Ne.symm hu]

theorem linked_close (ids : List Nat) : ∀ s : Schedule V κ α,
    Linked s (s.closeEvents ids) (s.close ids).1 := by
  induction ids with
  | nil => exact fun s => .refl s
  | cons id ids ih =>
    intro s
    rw [closeEvents, Schedule.close]
    cases hone : s.closeOne id with
    | error f => exact .refl s
    | ok t =>
      rcases closing_of_closeOne hone with ⟨hclosed, rfl⟩ | hclosing
      · simpa only [hclosed, if_true, List.nil_append] using ih t
      · simp only [hclosing.not_closed, Bool.false_eq_true, if_false]
        exact .close (.refl s) hclosing (ih t)

omit [Vertex V κ] [EdgeAction α V] in
/-- Becoming eligible is noticed by nobody, unless a vertex is closed. -/
theorem quiet_markEligible (ids : List Nat) : ∀ s : Schedule V κ α,
    (∀ v ∈ ids, s.isClosed v = false) → Quiet s (s.markEligible ids) := by
  induction ids with
  | nil => exact fun s _ => .refl s
  | cons v ids ih =>
    intro s hopen
    have hv := hopen v (List.mem_cons_self ..)
    have hone : Quiet s { s with status := s.status.set v .eligible } := by
      refine ⟨rfl, funext fun u => ?_⟩
      rw [isClosed, List.getElem?_set]
      by_cases huv : v = u
      · subst huv
        rw [hv]
        split
        · split <;> rfl
        · contradiction
      · rw [if_neg huv, isClosed]
    refine hone.trans (ih _ fun u hu => ?_)
    rw [hone.isClosed]
    exact hopen u (List.mem_cons_of_mem _ hu)

omit [Vertex V κ] [EdgeAction α V] in
/-- Vertices that are not closed become eligible, and no others. -/
theorem Books.markEligible {g : DependencyGraph V κ α} {ids : List Nat} :
    ∀ {held : Nat → Prop} {s : Schedule V κ α}, Books g held s →
      (∀ v ∈ ids, v < g.size ∧ s.isClosed v = false) →
      Books g (fun u => held u ∨ u ∈ ids) (s.markEligible ids) ∧ Onward s (s.markEligible ids)
        ∧ ∀ u, (s.markEligible ids).IsReached u ↔ u ∈ ids ∨ s.IsReached u := by
  induction ids with
  | nil =>
    intro held s h _
    exact ⟨h.congr (by simp), .refl s, by simp [Schedule.markEligible]⟩
  | cons v ids ih =>
    intro held s h hids
    obtain ⟨hv, hopen⟩ := hids v (List.mem_cons_self ..)
    have hquiet := quiet_markEligible [v] s fun w hw => by rwa [List.mem_singleton.1 hw]
    have hone := h.markOne hv (by simpa [isClosed] using hopen)
    obtain ⟨hrest, honward, hreached⟩ := ih hone fun w hw => by
      obtain ⟨hlt, hw⟩ := hids w (List.mem_cons_of_mem _ hw)
      exact ⟨hlt, (congrFun hquiet.isClosed w).trans hw⟩
    refine ⟨hrest.congr (by simp [or_assoc]), (h.onward_markOne hv).1.trans honward, fun u => ?_⟩
    rw [List.mem_cons, or_assoc, or_left_comm, ← h.isReached_markOne hv u]
    exact hreached u

omit [Vertex V κ] [EdgeAction α V] in
theorem not_closed_of_isReady {v : Nat} (h : s.isReady v = true) : s.isClosed v = false := by
  rw [isReady, Bool.and_eq_true, beq_iff_eq] at h
  rw [isClosed, h.1]
  rfl

theorem linked_closureWithin (passes : Nat) : ∀ s : Schedule V κ α,
    Linked s (s.closureEvents passes) (s.closureWithin passes).1 := by
  induction passes with
  | zero => exact fun s => .refl s
  | succ passes ih =>
    intro s
    rw [closureEvents, closureWithin_succ]
    by_cases hnone : s.resolvable.isEmpty = true
    · rw [if_pos hnone, if_pos hnone]
      by_cases hoffered : s.offered.isEmpty = true
      · rw [if_pos hoffered]
        cases s.checkCycle <;> exact .refl s
      · rw [if_neg hoffered]
        refine .quiet (quiet_markEligible _ s fun v hv => ?_)
        exact not_closed_of_isReady (List.mem_filter.1 (List.mem_filter.1 hv).1).2
    · rw [if_neg hnone, if_neg hnone]
      have hclose := linked_close s.resolvable s
      cases heq : s.close s.resolvable with
      | mk t r =>
        rw [heq] at hclose
        cases r with
        | error f => simpa using hclose
        | ok u => exact hclose.append (ih t)

theorem linked_closeRest (s : Schedule V κ α) : Linked s s.restEvents s.closeRest.1 := by
  unfold restEvents closeRest
  split
  · have hquiet : Quiet s { s with yielded := [] } := ⟨rfl, rfl⟩
    exact (linked_close s.yielded { s with yielded := [] }).after hquiet
  · exact .refl s

theorem linked_hasNext (s : Schedule V κ α) : Linked s s.hasNextEvents s.hasNext.1 := by
  have hrest := linked_closeRest s
  unfold hasNextEvents hasNext
  cases hclose : s.closeRest with
  | mk t r =>
    rw [hclose] at hrest
    cases r with
    | error f => simpa using hrest
    | ok u =>
      refine hrest.append ?_
      simp only [prepare, nextClosure]
      split
      · have hclosure := linked_closureWithin t.unclosed t
        cases hwithin : t.closureWithin t.unclosed with
        | mk t' r' =>
          rw [hwithin] at hclosure
          cases r' with
          | error f => exact hclosure
          | ok closure => exact hclosure.before ⟨rfl, rfl⟩
      · exact .refl t

theorem linked_perform (s : Schedule V κ α) (call : Call) :
    Linked s (s.callEvents call) (s.perform call).1 := by
  cases call with
  | hasNext => exact linked_hasNext s
  | close ids => exact linked_close ids s
  | next =>
    have hhas := linked_hasNext s
    rw [callEvents, perform, next]
    cases hnext : s.hasNext with
    | mk t r =>
      rw [hnext] at hhas
      cases r with
      | error f => simpa using hhas
      | ok more =>
        cases more with
        | false => simpa using hhas
        | true => exact hhas.append (.handOut _ (.refl t) (.quiet ⟨rfl, rfl⟩))

/-- The journal leads from the first to the last schedule of a run. -/
theorem linked_journal (calls : List Call) : ∀ s : Schedule V κ α,
    Linked s (s.journal calls) (s.performAll calls).1 := by
  induction calls with
  | nil => exact fun s => .refl s
  | cons call calls ih =>
    intro s
    have hcall := linked_perform s call
    rw [journal, performAll]
    cases hperform : s.perform call with
    | mk t r =>
      rw [hperform] at hcall
      cases r with
      | error f => simpa using hcall
      | ok result =>
        have hrest := hcall.append (ih t)
        cases hall : t.performAll calls with
        | mk t' r' =>
          rw [hall] at hrest
          cases r' with
          | error f => simpa only [hall] using hrest
          | ok closures => simpa only [hall] using hrest

/-! ## What is closed -/

/-- Closed is what was closed before or by one of the events. -/
theorem Linked.isClosed_iff (h : Linked s events s') (v : Nat) :
    s'.isClosed v = true ↔ v ∈ closedBy events ∨ s.isClosed v = true := by
  induction h with
  | quiet h => simp [h.isClosed]
  | close hquiet hclosing _ ih =>
    rw [ih, hclosing.isClosed, hquiet.isClosed, closedBy_close, List.mem_cons]
    tauto
  | handOut ids hquiet _ ih => rw [ih, hquiet.isClosed, closedBy_handOut]

/-- No vertex is closed twice. -/
theorem Linked.nodup_closed (h : Linked s events s') :
    (closedBy events).Nodup ∧ ∀ v ∈ closedBy events, s.isClosed v = false := by
  induction h with
  | quiet => simp
  | @close s t t' s' v events hquiet hclosing hrest ih =>
    obtain ⟨hnodup, hopen⟩ := ih
    have hfresh : ∀ u ∈ closedBy events, u ≠ v ∧ t.isClosed u = false := by
      intro u hu
      have hu := hopen u hu
      rw [← Bool.not_eq_true, hclosing.isClosed, not_or, Bool.not_eq_true] at hu
      exact hu
    refine ⟨?_, fun u hu => ?_⟩
    · rw [closedBy_close, List.nodup_cons]
      exact ⟨fun hmem => (hfresh v hmem).1 rfl, hnodup⟩
    · rw [← hquiet.isClosed]
      rcases List.mem_cons.1 hu with rfl | hu
      · exact hclosing.not_closed
      · exact (hfresh u hu).2
  | handOut ids hquiet _ ih => exact ⟨ih.1, fun u hu => hquiet.isClosed ▸ ih.2 u hu⟩

end

end Schedule

end Topiary
