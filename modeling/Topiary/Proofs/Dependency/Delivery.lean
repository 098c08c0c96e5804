/-
Topiary.Proofs.Dependency.Delivery — every action fires once and in time.

A vertex is resolved once, when it is closed, and right after that the actions at
its outgoing edges fire once each, whoever closes it.  If the owner of the schedule
closes only what was handed out, then all actions at the incoming edges of a vertex
have fired before it is handed out or closed.

* `Schedule.Heeds` — the owner closes only what was handed out.
* `Schedule.Timely` — when a vertex is closed or handed out, everything that it
  depends on is closed.
* `Fed` — the invariant: so are the dependencies of all vertices that are eligible
  or closed.
* `Fed.close`, `Fed.closureWithin`, `Fed.hasNext`, `Fed.perform` — one lemma for
  each operation.
* `Fed.journal` — whole runs.
* `performAll_delivers` — what happens to the graph, when, and how often.
-/
import Topiary.Proofs.Dependency.Deeds

namespace Topiary

namespace Schedule

open DependencyGraph

variable {V κ α : Type}

/-! ## Events in time -/

/-- Whenever a vertex is closed or handed out, what it depends on was closed before,
by one of the events or earlier. -/
def Timely (g : DependencyGraph V κ α) (done : Nat → Prop) (events : List (Event V κ α)) : Prop :=
  ∀ past event future, events = past ++ event :: future →
    ∀ v ∈ event.subjects, ∀ u, g.DependsOn v u → u ∈ closedBy past ∨ done u

section

variable {g : DependencyGraph V κ α} {done done' : Nat → Prop} {events events' : List (Event V κ α)}

theorem timely_nil : Timely g done [] := by simp [Timely]

theorem timely_one {event : Event V κ α}
    (h : ∀ v ∈ event.subjects, ∀ u, g.DependsOn v u → done u) : Timely g done [event] := by
  intro past event' future heq v hv u hu
  obtain ⟨-, hone⟩ | ⟨_, -, hone⟩ := List.cons_eq_append_iff.1 heq
  · rw [List.cons.injEq] at hone
    exact .inr (h v (hone.1 ▸ hv) u hu)
  · simp at hone

theorem Timely.mono (h : Timely g done events) (hdone : ∀ u, done u → done' u) :
    Timely g done' events :=
  fun past event future heq v hv u hu => (h past event future heq v hv u hu).imp_right (hdone u)

theorem Timely.append (h : Timely g done events)
    (h' : Timely g (fun u => u ∈ closedBy events ∨ done u) events') :
    Timely g done (events ++ events') := by
  intro past event future heq v hv u hu
  obtain ⟨as, rfl, hrest⟩ | ⟨bs, rfl, hrest⟩ := List.append_eq_append_iff.1 heq
  · rw [closedBy_append, List.mem_append, or_comm (a := u ∈ closedBy events), or_assoc]
    exact h' as event future hrest v hv u hu
  · cases bs with
    | nil => simpa using h' [] event future hrest.symm v hv u hu
    | cons b bs =>
      rw [List.cons_append, List.cons.injEq] at hrest
      obtain ⟨rfl, -⟩ := hrest
      exact h past event bs rfl v hv u hu

end

variable [Vertex V κ] [EdgeAction α V]

/-- Every vertex that the owner closes was handed out before. -/
def Heeds : Schedule V κ α → (out : List Nat) → List Call → Prop
  | _, _, [] => True
  | s, out, call :: calls => (∀ ids, call = .close ids → ∀ v ∈ ids, v ∈ out) ∧
    match s.perform call with
    | (_, .error _) => True
    | (t, .ok result) => Heeds t (out ++ result.toList.flatten) calls

variable {g : DependencyGraph V κ α} {held : Nat → Prop} {out : List Nat} {s s' t : Schedule V κ α}

theorem Linked.timely {events events' : List (Event V κ α)} (h : Linked s events t)
    (hs : Timely g (s.isClosed · = true) events) (ht : Timely g (t.isClosed · = true) events') :
    Timely g (s.isClosed · = true) (events ++ events') :=
  hs.append (ht.mono fun u hu => (h.isClosed_iff u).1 hu)

/-! ## The invariant -/

/-- Whatever is eligible or closed depends on closed vertices only. -/
structure Fed (g : DependencyGraph V κ α) (held : Nat → Prop) (s : Schedule V κ α) : Prop
    extends Books g held s where
  fed : ∀ v, s.IsReached v → ∀ u, g.DependsOn v u → s.isClosed u = true

omit [Vertex V κ] [EdgeAction α V] in
theorem fed_start (g : DependencyGraph V κ α) (options : OrderingOptions) :
    Fed g (fun _ => False) (start g options) := by
  refine ⟨books_start g options, fun v hv => ?_⟩
  simp [IsReached, start, List.getElem?_replicate] at hv

omit [Vertex V κ] [EdgeAction α V] in
theorem Fed.congr (h : Fed g held s) {held' : Nat → Prop} (hheld : ∀ v, held v ↔ held' v) :
    Fed g held' s :=
  ⟨h.toBooks.congr hheld, h.fed⟩

/-! ## Closing -/

/-- Closing a vertex whose dependencies are closed. -/
theorem Fed.closeOne (h : Fed g held s) {v : Nat} (hv : v < g.size)
    (hdeps : ∀ u, g.DependsOn v u → s.isClosed u = true) :
    ∃ t, s.closeOne v = .ok t ∧ Fed g (fun u => held u ∧ u ≠ v) t ∧ Onward s t ∧ Closes s t := by
  rcases h.toBooks.closeOne_cases hv with ⟨hclosed, hsame⟩ | ⟨graph, hopen, hlinks, hnew⟩
  · exact ⟨s, hsame, h.congr (h.toBooks.not_held hclosed), .refl s, .refl s⟩
  · have hcloses : Closes s (s.withClosed graph v) :=
      fun u hu => (isClosed_withClosed h.toBooks hv graph u).2 (.inr hu)
    refine ⟨_, hnew, ⟨h.toBooks.withClosed hv hlinks hopen, fun w hw u hu => hcloses u ?_⟩,
      h.toBooks.onward_withClosed hv graph, hcloses⟩
    rcases (h.toBooks.isReached_withClosed hv graph w).1 hw with rfl | hw
    · exact hdeps u hu
    · exact h.fed w hw u hu

theorem Fed.close {ids : List Nat} : ∀ {held : Nat → Prop} {s : Schedule V κ α}, Fed g held s →
    (∀ v ∈ ids, v < g.size ∧ ∀ u, g.DependsOn v u → s.isClosed u = true) →
    ∃ t, s.close ids = (t, .ok ()) ∧ Fed g (fun u => held u ∧ u ∉ ids) t ∧ Onward s t
      ∧ Timely g (s.isClosed · = true) (s.closeEvents ids) := by
  induction ids with
  | nil =>
    intro held s h _
    exact ⟨s, rfl, h.congr (by simp), .refl s, timely_nil⟩
  | cons v ids ih =>
    intro held s h hids
    obtain ⟨hv, hdeps⟩ := hids v (List.mem_cons_self ..)
    obtain ⟨t, hone, ht, honward, hcloses⟩ := h.closeOne hv hdeps
    obtain ⟨t', hclose, ht', honward', htimely⟩ := ih ht fun w hw =>
      (hids w (List.mem_cons_of_mem _ hw)).imp_right fun hdeps u hu => hcloses u (hdeps u hu)
    refine ⟨t', by simp only [Schedule.close, hone, hclose], ht'.congr (by simp [and_assoc]),
      honward.trans honward', ?_⟩
    rw [closeEvents, hone]
    rcases closing_of_closeOne hone with ⟨hclosed, rfl⟩ | hclosing
    · simpa only [hclosed, if_true, List.nil_append] using htimely
    · simp only [hclosing.not_closed, Bool.false_eq_true, if_false]
      refine (Linked.close (.refl s) hclosing (.refl t)).timely (timely_one ?_) htimely
      intro w hw u hu
      obtain rfl : w = v := List.mem_singleton.1 hw
      exact hdeps u hu

/-! ## The next closure -/

omit [Vertex V κ] [EdgeAction α V] in
/-- What is ready depends on closed vertices only. -/
theorem Fed.of_mem_ready (h : Fed g held s) {v : Nat}
    (hv : v ∈ (List.range s.graph.size).filter s.isReady) :
    v < g.size ∧ s.status[v]? = some .unclosed
      ∧ ∀ u, g.DependsOn v u → s.isClosed u = true := by
  obtain ⟨hwait, hdeps⟩ := (h.toBooks.mem_ready_iff v).1 hv
  exact ⟨h.toBooks.lt_of_status hwait, hwait, hdeps⟩

omit [Vertex V κ] [EdgeAction α V] in
theorem Fed.markEligible (h : Fed g held s) {ids : List Nat} (hids : ∀ v ∈ ids, v < g.size
      ∧ s.isClosed v = false ∧ ∀ u, g.DependsOn v u → s.isClosed u = true) :
    Fed g (fun u => held u ∨ u ∈ ids) (s.markEligible ids) ∧ Onward s (s.markEligible ids) := by
  have hopen : ∀ v ∈ ids, v < g.size ∧ s.isClosed v = false := fun v hv =>
    ⟨(hids v hv).1, (hids v hv).2.1⟩
  obtain ⟨hbooks, honward, hreached⟩ := h.toBooks.markEligible hopen
  have hquiet := quiet_markEligible ids s fun v hv => (hopen v hv).2
  refine ⟨⟨hbooks, fun v hv u hu => ?_⟩, honward⟩
  rw [hquiet.isClosed]
  rcases (hreached v).1 hv with hv | hv
  · exact (hids v hv).2.2 u hu
  · exact h.fed v hv u hu

/-- However many passes it takes; only the last schedule of a computation that
faults is left out. -/
theorem Fed.closureWithin (passes : Nat) : ∀ {s : Schedule V κ α},
    Fed g (fun _ => False) s →
    ∃ t r, s.closureWithin passes = (t, r) ∧ Onward s t
      ∧ Timely g (s.isClosed · = true) (s.closureEvents passes)
      ∧ ∀ closure, r = .ok closure → Fed g (· ∈ closure) t := by
  induction passes with
  | zero =>
    intro s h
    refine ⟨s, .ok [], rfl, .refl s, timely_nil, fun closure hnil => ?_⟩
    obtain rfl := Except.ok.inj hnil
    exact h.congr (by simp)
  | succ passes ih =>
    intro s h
    rw [closureWithin_succ, closureEvents]
    by_cases hnone : s.resolvable.isEmpty = true
    · simp only [if_pos hnone]
      by_cases hoffered : s.offered.isEmpty = true
      · simp only [if_pos hoffered]
        cases s.checkCycle with
        | error f => exact ⟨s, .error f, rfl, .refl s, timely_nil, by simp⟩
        | ok u =>
          refine ⟨s, .ok [], rfl, .refl s, timely_nil, fun closure hnil => ?_⟩
          obtain rfl := Except.ok.inj hnil
          exact h.congr (by simp)
      · simp only [if_neg hoffered]
        obtain ⟨hmarked, honward⟩ := h.markEligible fun v (hv : v ∈ s.offered) => by
          obtain ⟨hlt, hwait, hdeps⟩ := h.of_mem_ready (List.mem_filter.1 hv).1
          exact ⟨hlt, by simp [isClosed, hwait], hdeps⟩
        refine ⟨_, .ok s.offered, rfl, honward, timely_nil, fun closure hclosure => ?_⟩
        obtain rfl := Except.ok.inj hclosure
        exact hmarked.congr (by simp)
    · simp only [if_neg hnone]
      obtain ⟨t, hclose, ht, honward, htimely⟩ := h.close fun v (hv : v ∈ s.resolvable) => by
        obtain ⟨hlt, -, hdeps⟩ := h.of_mem_ready (List.mem_filter.1 hv).1
        exact ⟨hlt, hdeps⟩
      have hlinked := linked_close s.resolvable s
      rw [hclose] at hlinked
      obtain ⟨t', r, hrest, honward', htimely', hfed⟩ := ih (ht.congr (by simp))
      refine ⟨t', r, by simp only [hclose, hrest], honward.trans honward', ?_, hfed⟩
      simp only [hclose]
      exact hlinked.timely htimely htimely'

/-! ## The calls -/

/-- The rest of the last closure was handed out, so its dependencies are closed. -/
theorem Fed.closeRest (h : Fed g (fun _ => False) s) :
    ∃ t, s.closeRest = (t, .ok ()) ∧ Fed g (fun _ => False) t
      ∧ (∀ v, s.IsReached v → t.IsReached v) ∧ Timely g (s.isClosed · = true) s.restEvents := by
  unfold Schedule.closeRest restEvents
  by_cases hauto : (s.options.autoClose && !s.yielded.isEmpty) = true
  · simp only [if_pos hauto]
    have hheld : Fed g (· ∈ s.yielded) { s with yielded := [] } :=
      ⟨⟨h.links, h.length, h.toBooks.unclosed, fun v => by simpa using h.eligible v⟩, h.fed⟩
    obtain ⟨t, hclose, ht, honward, htimely⟩ := hheld.close fun v hv => by
      have helig := (h.eligible v).2 (.inr (.inl hv))
      exact ⟨h.toBooks.lt_of_status helig, h.fed v (.inl helig)⟩
    exact ⟨t, hclose, ht.congr (by simp), honward.reached, htimely⟩
  · simp only [if_neg hauto]
    exact ⟨s, rfl, h, fun _ hv => hv, timely_nil⟩

theorem Fed.hasNext (h : Fed g (fun _ => False) s) :
    ∃ t r, s.hasNext = (t, r) ∧ (∀ v, s.IsReached v → t.IsReached v)
      ∧ Timely g (s.isClosed · = true) s.hasNextEvents
      ∧ ∀ more, r = .ok more → Fed g (fun _ => False) t := by
  obtain ⟨t, hrest, ht, hreached, htimely⟩ := h.closeRest
  have hlinked := linked_closeRest s
  rw [hrest] at hlinked
  unfold Schedule.hasNext hasNextEvents
  simp only [hrest, prepare, nextClosure]
  by_cases hpending : t.pending = []
  · obtain ⟨t', r, hclosure, honward, htimely', hfed⟩ := ht.closureWithin t.unclosed
    simp only [hpending, List.isEmpty_nil, if_true, hclosure]
    have hreached' := fun v hv => honward.reached v (hreached v hv)
    cases r with
    | error f => exact ⟨t', .error f, rfl, hreached', hlinked.timely htimely htimely', by simp⟩
    | ok closure =>
      have ht' := hfed closure rfl
      refine ⟨{ t' with pending := closure }, _, rfl, hreached',
        hlinked.timely htimely htimely', fun _ _ => ?_⟩
      refine ⟨⟨ht'.links, ht'.length, ht'.toBooks.unclosed, fun v => ?_⟩, ht'.fed⟩
      rw [ht'.eligible, honward.pending hpending]
      simp [or_comm]
  · have hnonempty : t.pending.isEmpty = false := by simpa using hpending
    simp only [hnonempty, Bool.false_eq_true, if_false, List.append_nil]
    exact ⟨t, _, rfl, hreached, htimely, fun _ _ => ht⟩

/-- One call that closes only what was handed out; a fault ends the run. -/
theorem Fed.perform (h : Fed g (fun _ => False) s) {call : Call}
    (hheeds : ∀ ids, call = .close ids → ∀ v ∈ ids, s.IsReached v) :
    ∃ t r, s.perform call = (t, r) ∧ (∀ v, s.IsReached v → t.IsReached v)
      ∧ Timely g (s.isClosed · = true) (s.callEvents call)
      ∧ ∀ result, r = .ok result → Fed g (fun _ => False) t
        ∧ ∀ v ∈ result.toList.flatten, t.IsReached v := by
  cases call with
  | hasNext =>
    obtain ⟨t, r, hhas, hreached, htimely, hfed⟩ := h.hasNext
    refine ⟨t, r.map fun _ => none, by rw [Schedule.perform, hhas], hreached, htimely, ?_⟩
    intro result hresult
    cases r with
    | error f => cases hresult
    | ok more =>
      obtain rfl := Except.ok.inj hresult
      exact ⟨hfed more rfl, by simp⟩
  | close ids =>
    obtain ⟨t, hclose, ht, honward, htimely⟩ := h.close fun v hv => by
      have hreached := hheeds ids rfl v hv
      refine ⟨?_, h.fed v hreached⟩
      exact hreached.elim h.toBooks.lt_of_status h.toBooks.lt_of_status
    refine ⟨t, .ok none, by rw [Schedule.perform, hclose]; rfl, honward.reached, htimely, ?_⟩
    intro result hresult
    obtain rfl := Except.ok.inj hresult
    exact ⟨ht.congr (by simp), by simp⟩
  | next =>
    obtain ⟨t, r, hhas, hreached, htimely, hfed⟩ := h.hasNext
    have hlinked := linked_hasNext s
    rw [hhas] at hlinked
    simp only [Schedule.perform, callEvents, Schedule.next, hhas]
    cases r with
    | error f => exact ⟨t, _, rfl, hreached, by simpa using htimely, by simp⟩
    | ok more =>
      cases more with
      | false =>
        refine ⟨t, _, rfl, hreached, by simpa using htimely, fun result hresult => ?_⟩
        obtain rfl := Except.ok.inj hresult
        exact ⟨hfed false rfl, by simp⟩
      | true =>
        have ht := hfed true rfl
        have helig : ∀ v ∈ t.pending, t.status[v]? = some .eligible :=
          fun v hv => (ht.eligible v).2 (.inr (.inr hv))
        refine ⟨_, _, rfl, hreached, ?_, fun result hresult => ?_⟩
        · exact hlinked.timely htimely (timely_one fun v hv => ht.fed v (.inl (helig v hv)))
        · obtain rfl := Except.ok.inj hresult
          refine ⟨⟨⟨ht.links, ht.length, ht.toBooks.unclosed, fun v => ?_⟩, ht.fed⟩, ?_⟩
          · rw [ht.eligible]
            simp
          · exact fun v hv => .inl (helig v (by simpa using hv))

/-- Runs whose owner closes only what was handed out. -/
theorem Fed.journal {calls : List Call} : ∀ {out : List Nat} {s : Schedule V κ α},
    Fed g (fun _ => False) s → (∀ v ∈ out, s.IsReached v) → s.Heeds out calls →
    Timely g (s.isClosed · = true) (s.journal calls) := by
  induction calls with
  | nil => exact fun _ _ _ => timely_nil
  | cons call calls ih =>
    rintro out s h hout ⟨hcloses, hheeds⟩
    obtain ⟨t, r, hperform, hreached, htimely, hok⟩ := h.perform fun ids hids v hv =>
      hout v (hcloses ids hids v hv)
    have hlinked := linked_perform s call
    rw [hperform] at hheeds hlinked
    rw [Schedule.journal, hperform]
    cases r with
    | error f => simpa using htimely
    | ok result =>
      obtain ⟨ht, hresult⟩ := hok result rfl
      refine hlinked.timely htimely (ih ht ?_ hheeds)
      exact List.forall_mem_append.2 ⟨fun v hv => hreached v (hout v hv), hresult⟩

/-! ## Whole runs -/

/-- What the events of a run do to the graph `g`, which becomes that of `s`. -/
structure Delivers (g : DependencyGraph V κ α) (events : List (Event V κ α))
    (s : Schedule V κ α) : Prop where
  /-- Nothing happens to the vertices and actions but the deeds of what is closed, one
  vertex after the other, -/
  store : s.graph.store = ((closedBy events).flatMap g.deedsOf).foldl Store.carry g.store
  /-- nothing to a vertex at which none of them is aimed, -/
  others : ∀ v, (∀ deed ∈ (closedBy events).flatMap g.deedsOf, v ≠ deed.target) →
    s.graph.store.vertex v = g.store.vertex v
  /-- and nothing at all to the rest of the graph. -/
  frame : s.graph.frame = g.frame
  /-- At the end of each closing its deeds are done, and none of a later one. -/
  moment : ∀ past v graph future, events = past ++ .close v graph :: future →
    graph.store = ((closedBy past ++ [v]).flatMap g.deedsOf).foldl Store.carry g.store
  /-- No deed is done twice. -/
  nodup : ((closedBy events).flatMap g.deedsOf).Nodup
  /-- The vertices that are closed were resolved, and no others. -/
  resolved : ∀ v, .resolve v ∈ (closedBy events).flatMap g.deedsOf ↔ s.isClosed v = true
  /-- The actions at the outgoing edges of closed vertices have fired, and no others. -/
  fired : ∀ id u w, .fire id u w ∈ (closedBy events).flatMap g.deedsOf
    ↔ s.isClosed u = true ∧ ∃ a, g.edge? id = some ⟨u, w, some a⟩
  /-- Those of one vertex fire in ascending order of the sinks, -/
  ascending : ∀ v, (g.firings v).Pairwise fun deed deed' => deed.target < deed'.target
  /-- and none of them writes to this vertex. -/
  source : ∀ v, ∀ deed ∈ g.firings v, deed.target ≠ v

/-- **What happens to the graph, when, and how often**, whatever calls are made and
also up to a fault.  If the owner closes only what was handed out, then the actions
at the incoming edges of a vertex have all fired once when it is handed out or
closed. -/
theorem performAll_delivers [DecidableEq κ] {options : OrderingOptions} {calls : List Call}
    {r : Except Fault (List (List Nat))} (hg : g.Built)
    (hrun : (start g options).performAll calls = (s, r)) :
    Linked (start g options) ((start g options).journal calls) s
    ∧ Delivers g ((start g options).journal calls) s
    ∧ (Heeds (start g options) [] calls →
      ∀ past event future, (start g options).journal calls = past ++ event :: future →
        ∀ v ∈ event.subjects, ∀ id u a, g.edge? id = some ⟨u, v, some a⟩ →
          ((closedBy past).flatMap g.deedsOf).count (.fire id u v) = 1) := by
  have hcons : g.Consistent := hg.consistent
  have hopen : ∀ v, (start g options).isClosed v = false := by
    simp [isClosed, start, List.getElem?_replicate]
  have hlinked : Linked (start g options) ((start g options).journal calls) s := by
    simpa only [hrun] using linked_journal calls (start g options)
  obtain ⟨hnodup, -⟩ := hlinked.nodup_closed
  obtain ⟨-, hframe, hstore⟩ := hlinked.store_eq hcons
  have hclosed : ∀ v, v ∈ closedBy ((start g options).journal calls) ↔ s.isClosed v = true := by
    intro v
    rw [hlinked.isClosed_iff, hopen]
    simp
  refine ⟨hlinked, ⟨hstore, fun v hv => ?_, hframe, ?_, nodup_deeds hcons hnodup, ?_, ?_,
    firings_ascending hcons, ?_⟩, ?_⟩
  · exact hstore ▸ Store.carryAll_vertex_of_ne hv g.store
  · intro past v graph future hevents
    rw [hevents] at hlinked
    obtain ⟨t, ht, rfl⟩ := hlinked.exists_of_close
    have hstore := (ht.store_eq hcons).2.2
    rwa [closedBy_append] at hstore
  · exact fun v => (resolve_mem_deeds_iff hcons v).trans (hclosed v)
  · exact fun id u w => (fire_mem_deeds_iff hcons id u w).trans (and_congr_left' (hclosed u))
  · intro v deed hdeed
    obtain ⟨id, w, a, hedge, rfl⟩ := (mem_firings_iff hcons v deed).1 hdeed
    exact (hcons.ends ⟨_, hedge⟩).2.2.symm
  · intro hheeds past event future hevents v hv id u a hedge
    have htimely := (fed_start g options).journal (List.forall_mem_nil _) hheeds
    have hdep : g.DependsOn v u := (hcons.dependsOn_iff_joins v u).2 ⟨id, _, hedge⟩
    have hpast : u ∈ closedBy past := by
      have hdone := htimely past event future hevents v hv u hdep
      simpa [hopen] using hdone
    rw [hevents, closedBy_append, List.nodup_append] at hnodup
    refine List.count_eq_one_of_mem (nodup_deeds hcons hnodup.1) ?_
    exact (fire_mem_deeds_iff hcons id u v).2 ⟨hpast, a, hedge⟩

/-- `b` closes itself once `a` is closed; `c` hears from both. -/
def relay : DependencyGraph Target String Signal where
  slots := [⟨⟨"a", false, 0, [], 0⟩, "a", [], [(1, 0), (2, 1)]⟩,
    ⟨⟨"b", false, 1, [], 0⟩, "b", [(0, 0)], [(2, 2)]⟩,
    ⟨⟨"c", false, 0, [], 0⟩, "c", [(0, 1), (1, 2)], []⟩]
  edges := [some ⟨0, 1, some (.ofKind (.text "go"))⟩, some ⟨0, 2, some (.ofKind .count)⟩,
    some ⟨1, 2, some (.ofKind .count)⟩]
  edgeCount := 3

/-- `a` is closed twice, and `b` closes itself because of what it hears. -/
theorem relay_delivers :
    relay.Built ∧ Heeds (start relay {}) [] [.next, .close [0, 0], .next]
      ∧ ∃ s, (start relay {}).performAll [.next, .close [0, 0], .next] = (s, .ok [[0], [2]])
        ∧ s.graph.store = [.resolve 0, .fire 0 0 1, .fire 1 0 2, .resolve 1, .fire 2 1 2].foldl
          Store.carry relay.store
        ∧ ([0, 1].flatMap relay.deedsOf).count (.fire 2 1 2) = 1 := by
  have hbuilt : relay.Built := by
    have hvertices := Built.add (α := Signal) (Target.mk "c" false 0 [] 0)
      (.add (Target.mk "b" false 1 [] 0) (.add (Target.mk "a" false 0 [] 0) .empty))
    have hfirst := Built.depend hvertices
      (show DependencyGraph.depend _ 1 0 (some (.ofKind (.text "go"))) = .ok (_, some 0) from rfl)
    have hsecond := Built.depend hfirst
      (show DependencyGraph.depend _ 2 0 (some (.ofKind .count)) = .ok (_, some 1) from rfl)
    exact .depend hsecond
      (show DependencyGraph.depend _ 2 1 (some (.ofKind .count)) = .ok (_, some 2) from rfl)
  have hheeds : Heeds (start relay {}) [] [.next, .close [0, 0], .next] :=
    ⟨by simp, by simp, by simp, trivial⟩
  have hrun : (start relay {}).performAll [.next, .close [0, 0], .next] = (_, .ok [[0], [2]]) := rfl
  obtain ⟨-, hdelivers, htimely⟩ := performAll_delivers hbuilt hrun
  refine ⟨hbuilt, hheeds, _, hrun, hdelivers.store, ?_⟩
  have hjournal : (start relay {}).journal [.next, .close [0, 0], .next]
      = [.handOut [0], .close 0 _, .close 1 _] ++ .handOut [2] :: [] := rfl
  exact htimely hheeds _ _ _ hjournal 2 (by simp [Event.subjects]) 2 1 _ rfl

end Schedule

end Topiary
