/-
Topiary.Proofs.Dependency.Detection — schedules find cycles, and only cycles.

* `Reached` — the schedules that can arise from a graph, each with the
  vertices that were handed out on the way.
* `Tidy.hasNext`, `Tidy.next` — the ways in which the two operations end.
* `Yields` — asking for closures one after the other.
* `yields_all` — with `autoClose` that comes to an end.
* `Reached.detects_cycles` — a schedule faults only on a cycle, never hands
  out or closes what waits for one, and otherwise closes everything.
-/
import Topiary.Proofs.Dependency.Closure

namespace Topiary

namespace Schedule

open DependencyGraph

variable {V κ α : Type} {g : DependencyGraph V κ α} {s : Schedule V κ α}

/-! ## Cycles -/

/-- In a stuck schedule the vertices that are not closed have a cycle among
them. -/
theorem Books.exists_open_cycle {held : Nat → Prop} (h : Books g held s) (hs : Stuck s)
    (hg : g.InRange) : ∃ v, Relation.TransGen
      (fun a b => g.DependsOn a b ∧ s.isClosed a = false ∧ s.isClosed b = false) v v := by
  have hsome : ∃ v, v < g.size ∧ s.isClosed v = false := by
    have hnot := mt h.unclosed_eq_zero_iff.2 hs.unclosed
    simpa using hnot
  obtain ⟨v, hv⟩ := exists_cycle (p := fun v => v < g.size ∧ s.isClosed v = false)
    (fun v hv => hv.1) (fun v hv => h.exists_dependency hs hg hv.1 hv.2) hsome
  exact ⟨v, hv.lift id fun a b hab => ⟨hab.1, hab.2.1.2, hab.2.2.2⟩⟩

/-- In a stuck schedule everything is closed that waits for no cycle. -/
theorem Stuck.isClosed_of_not_blocked (hs : Stuck s) (h : Tidy g (fun _ => False) s)
    (hg : g.InRange) {v : Nat} (hv : v < g.size) (hfree : ¬ g.Blocked v) :
    s.isClosed v = true := by
  by_contra hopen
  obtain ⟨u, hu⟩ := exists_cycle
    (p := fun v => v < g.size ∧ s.isClosed v = false ∧ ¬ g.Blocked v)
    (fun v hv => hv.1)
    (fun v hv => by
      obtain ⟨u, hdep, hlt, hu⟩ := h.exists_dependency hs hg hv.1 hv.2.1
      refine ⟨u, hdep, hlt, hu, fun hblocked => hv.2.2 ?_⟩
      obtain ⟨w, hreach, hcycle⟩ := hblocked
      exact ⟨w, .head hdep hreach, hcycle⟩)
    ⟨v, hv, by simpa using hopen, hfree⟩
  obtain ⟨w, ⟨-, ⟨-, -, hnot⟩, -⟩, -⟩ := Relation.TransGen.head'_iff.1 hu
  exact hnot ⟨u, .refl, hu.lift id fun a b hab => hab.1⟩

theorem Tidy.isClosed_of_blocked {held : Nat → Prop} (h : Tidy g held s) {v : Nat}
    (hv : g.Blocked v) : s.isClosed v = false := by
  rw [Bool.eq_false_iff, ne_eq, isClosed_iff]
  exact fun hclosed => (h.grounded v (.inr hclosed)).not_blocked hv

/-! ## One operation -/

/-- Each closure that is still to come takes one of these. -/
def rank (s : Schedule V κ α) : Nat := s.waiting + if s.pending.isEmpty then 0 else 1

/-- At most one closure for each vertex is still to come. -/
theorem Tidy.rank_le_size (h : Tidy g (fun _ => False) s) : s.rank ≤ g.size := by
  cases hpending : s.pending with
  | nil =>
    have hle : s.status.count .unclosed ≤ s.status.length := List.count_le_length
    simpa [rank, waiting, hpending, h.length] using hle
  | cons v ids =>
    have helig : s.status[v]? = some .eligible :=
      (h.eligible v).2 (.inr (.inr (hpending ▸ List.mem_cons_self ..)))
    have hset := count_set helig .unclosed .unclosed
    have hle : (s.status.set v .unclosed).count .unclosed ≤ (s.status.set v .unclosed).length :=
      List.count_le_length
    rw [List.length_set, h.length] at hle
    rw [if_neg (by decide), if_pos rfl, Nat.add_zero] at hset
    simp only [rank, waiting, hpending, List.isEmpty_cons, Bool.false_eq_true, if_false]
    omega

variable [Vertex V κ] [EdgeAction α V]

/-- The rest of the last closure is closed. -/
theorem Tidy.closeRest (h : Tidy g (fun _ => False) s) :
    ∃ s', s.closeRest = (s', .ok ()) ∧ Tidy g (fun _ => False) s' ∧ Onward s s'
      ∧ (s.options.autoClose = true → s'.yielded = []) := by
  unfold Schedule.closeRest
  by_cases hauto : (s.options.autoClose && !s.yielded.isEmpty) = true
  · have hheld : Tidy g (· ∈ s.yielded) { s with yielded := [] } :=
      ⟨⟨h.links, h.length, h.unclosed, fun v => by simpa using h.eligible v⟩, h.grounded⟩
    obtain ⟨s', hclose, htidy, honward, -⟩ := hheld.close fun v hv => by
      have hreach : s.IsReached v := .inl ((h.eligible v).2 (.inr (.inl hv)))
      exact ⟨hreach.lt h, h.grounded v hreach⟩
    refine ⟨s', by rw [if_pos hauto, hclose], htidy.congr (by simp), ?_,
      fun _ => honward.yielded rfl⟩
    exact ⟨honward.options, honward.waiting, honward.unclosed, honward.reached,
      fun _ => honward.yielded rfl, honward.pending⟩
  · refine ⟨s, by rw [if_neg hauto], h, .refl s, fun ho => ?_⟩
    simpa [ho] using hauto

/-- The ways in which the question for another closure ends. -/
inductive HasNextEnds (s s' : Schedule V κ α) : Except Fault Bool → Prop
  | stuck : Stuck s' → HasNextEnds s s' (.error (.misuse (.dependencyCycle s'.unclosed)))
  | no : s'.pending = [] → (s.options.autoClose = true → s'.unclosed = 0) →
    HasNextEnds s s' (.ok false)
  | yes : s'.pending ≠ [] → s'.rank ≤ s.rank → HasNextEnds s s' (.ok true)

theorem Tidy.hasNext (h : Tidy g (fun _ => False) s) :
    ∃ s' r, s.hasNext = (s', r) ∧ Tidy g (fun _ => False) s' ∧ s'.options = s.options
      ∧ (∀ v, s.IsReached v → s'.IsReached v) ∧ HasNextEnds s s' r := by
  obtain ⟨s₁, hrest, htidy, honward, hyielded⟩ := h.closeRest
  unfold Schedule.hasNext
  simp only [hrest, Schedule.prepare]
  by_cases hpending : s₁.pending = []
  · obtain ⟨s₂, r, hnext, honward', hends⟩ := htidy.closureWithin s₁.unclosed (Nat.le_refl _)
    have hpending' := honward'.pending hpending
    have hreached := fun v hv => honward'.reached v (honward.reached v hv)
    simp only [hpending, List.isEmpty_nil, if_true, Schedule.nextClosure, hnext]
    cases hends with
    | stuck htidy' hstuck =>
      exact ⟨s₂, _, rfl, htidy', honward'.options.trans honward.options, hreached, .stuck hstuck⟩
    | nothing htidy' hdone =>
      have hsame : ({ s₂ with pending := [] } : Schedule V κ α) = s₂ := by rw [← hpending']
      refine ⟨s₂, .ok false, by simp [hsame], htidy', honward'.options.trans honward.options,
        hreached, .no hpending' fun hauto => ?_⟩
      rcases hdone with hzero | ⟨v, hv⟩
      · exact hzero
      · have hlisted := (htidy'.eligible v).1 hv
        simp [honward'.yielded (hyielded hauto), hpending'] at hlisted
    | closure v ids htidy' hless =>
      refine ⟨{ s₂ with pending := v :: ids }, .ok true, rfl, ?_,
        honward'.options.trans honward.options, hreached, .yes (List.cons_ne_nil _ _) ?_⟩
      · exact ⟨⟨htidy'.links, htidy'.length, htidy'.unclosed, fun u => by
          rw [htidy'.eligible u, hpending']
          simp [or_comm]⟩, htidy'.grounded⟩
      · have hle := honward.waiting
        simp only [rank, waiting, List.isEmpty_cons] at hless hle ⊢
        simp only [Bool.false_eq_true, if_false]
        omega
  · have hnonempty : s₁.pending.isEmpty = false := by simpa using hpending
    refine ⟨s₁, .ok true, by simp [hnonempty], htidy, honward.options, honward.reached,
      .yes hpending ?_⟩
    have hbefore : s.pending.isEmpty = false := by
      simpa using fun hp => hpending (honward.pending hp)
    have hle := honward.waiting
    simp only [rank, hnonempty, hbefore]
    omega

/-- The ways in which the request for the next closure ends. -/
inductive NextEnds (s s' : Schedule V κ α) : Except Fault (Option (List Nat)) → Prop
  | stuck : Stuck s' → NextEnds s s' (.error (.misuse (.dependencyCycle s'.unclosed)))
  | none : (s.options.autoClose = true → s'.unclosed = 0) → NextEnds s s' (.ok none)
  | some (ids : List Nat) : (∀ v ∈ ids, s'.IsReached v) → s'.rank < s.rank →
    NextEnds s s' (.ok (some ids))

theorem Tidy.next (h : Tidy g (fun _ => False) s) :
    ∃ s' r, s.next = (s', r) ∧ Tidy g (fun _ => False) s' ∧ s'.options = s.options
      ∧ (∀ v, s.IsReached v → s'.IsReached v) ∧ NextEnds s s' r := by
  obtain ⟨s', r, hhas, htidy, hoptions, hreached, hends⟩ := h.hasNext
  unfold Schedule.next
  rw [hhas]
  cases hends with
  | stuck hstuck => exact ⟨s', _, rfl, htidy, hoptions, hreached, .stuck hstuck⟩
  | no hpending hzero => exact ⟨s', _, rfl, htidy, hoptions, hreached, .none hzero⟩
  | yes hpending hrank =>
    refine ⟨_, _, rfl, ?_, hoptions, hreached, .some s'.pending ?_ ?_⟩
    · exact ⟨⟨htidy.links, htidy.length, htidy.unclosed, fun v => by
        rw [htidy.eligible v]
        simp⟩, htidy.grounded⟩
    · exact fun v hv => .inl ((htidy.eligible v).2 (.inr (.inr hv)))
    · have hnonempty : s'.pending.isEmpty = false := by simpa using hpending
      simp only [rank, waiting, hnonempty, List.isEmpty_nil, Bool.false_eq_true, if_true,
        if_false] at hrank ⊢
      omega

/-! ## Many operations -/

/-- The vertices that a call of `next` hands out. -/
def handedOut : Except Fault (Option (List Nat)) → List Nat
  | .ok (some ids) => ids
  | _ => []

/-- The schedules that can arise from a graph, with the vertices handed out so
far.  Only those may be closed.  Faults end nothing: later calls are made on
the schedule as a fault has left it. -/
inductive Reached (g : DependencyGraph V κ α) (options : OrderingOptions) :
    Schedule V κ α → List Nat → Prop
  | start : Reached g options (start g options) []
  | hasNext {s : Schedule V κ α} {out : List Nat} : Reached g options s out →
    Reached g options s.hasNext.1 out
  | next {s : Schedule V κ α} {out : List Nat} : Reached g options s out →
    Reached g options s.next.1 (out ++ handedOut s.next.2)
  | close {s : Schedule V κ α} {out ids : List Nat} : Reached g options s out →
    (∀ v ∈ ids, v ∈ out) → Reached g options (s.close ids).1 out

/-- What was handed out is eligible or closed. -/
theorem Reached.tidy {options : OrderingOptions} {out : List Nat}
    (h : Reached g options s out) :
    Tidy g (fun _ => False) s ∧ s.options = options ∧ ∀ v ∈ out, s.IsReached v := by
  induction h with
  | start => exact ⟨tidy_start g options, rfl, by simp⟩
  | hasNext _ ih =>
    obtain ⟨htidy, hoptions, hout⟩ := ih
    obtain ⟨s', r, hnext, htidy', hoptions', hreached, -⟩ := htidy.hasNext
    rw [hnext]
    exact ⟨htidy', hoptions'.trans hoptions, fun v hv => hreached v (hout v hv)⟩
  | next _ ih =>
    obtain ⟨htidy, hoptions, hout⟩ := ih
    obtain ⟨s', r, hnext, htidy', hoptions', hreached, hends⟩ := htidy.next
    rw [hnext]
    refine ⟨htidy', hoptions'.trans hoptions, List.forall_mem_append.2
      ⟨fun v hv => hreached v (hout v hv), ?_⟩⟩
    cases hends with
    | stuck _ => simp [handedOut]
    | none _ => simp [handedOut]
    | some ids hids _ => exact hids
  | @close s out ids _ hids ih =>
    obtain ⟨htidy, hoptions, hout⟩ := ih
    obtain ⟨s', hclose, htidy', honward, -⟩ := htidy.close fun v hv =>
      ⟨(hout v (hids v hv)).lt htidy, htidy.grounded v (hout v (hids v hv))⟩
    rw [hclose]
    exact ⟨htidy'.congr (by simp), honward.options.trans hoptions,
      fun v hv => honward.reached v (hout v hv)⟩

/-- Closures that come one after the other. -/
inductive Yields : Schedule V κ α → List (List Nat) → Schedule V κ α → Prop
  | nil {s : Schedule V κ α} : Yields s [] s
  | cons {s s' s'' : Schedule V κ α} {ids : List Nat} {closures : List (List Nat)} :
    s.next = (s', .ok (some ids)) → Yields s' closures s'' → Yields s (ids :: closures) s''

/-- With `autoClose` there are finitely many closures, and then everything is
closed or the schedule is stuck. -/
theorem yields_all (n : Nat) : ∀ {s : Schedule V κ α}, Tidy g (fun _ => False) s →
    s.options.autoClose = true → s.rank ≤ n →
    ∃ closures s' s'' r, Yields s closures s' ∧ closures.length ≤ n ∧ s'.next = (s'', r)
      ∧ Tidy g (fun _ => False) s''
      ∧ ((r = .ok none ∧ s''.unclosed = 0)
        ∨ (r = .error (.misuse (.dependencyCycle s''.unclosed)) ∧ Stuck s'')) := by
  induction n with
  | zero =>
    intro s h hauto hrank
    obtain ⟨s', r, hnext, htidy, -, -, hends⟩ := h.next
    refine ⟨[], s, s', r, .nil, Nat.le_refl _, hnext, htidy, ?_⟩
    cases hends with
    | stuck hstuck => exact .inr ⟨rfl, hstuck⟩
    | none hzero => exact .inl ⟨rfl, hzero hauto⟩
    | some ids _ hless => omega
  | succ n ih =>
    intro s h hauto hrank
    obtain ⟨s', r, hnext, htidy, hoptions, -, hends⟩ := h.next
    cases hends with
    | stuck hstuck =>
      exact ⟨[], s, s', _, .nil, Nat.zero_le _, hnext, htidy, .inr ⟨rfl, hstuck⟩⟩
    | none hzero =>
      exact ⟨[], s, s', _, .nil, Nat.zero_le _, hnext, htidy, .inl ⟨rfl, hzero hauto⟩⟩
    | some ids _ hless =>
      obtain ⟨closures, t, t', r, hyields, hlen, hends⟩ :=
        ih htidy (hoptions ▸ hauto) (by omega)
      exact ⟨ids :: closures, t, t', r, .cons hnext hyields, Nat.succ_le_succ hlen, hends⟩

/-! ## All operations -/

/-- Cycles are found exactly.  A schedule of a built graph faults only when
the vertices that are not closed have a cycle among them; it never hands out
or closes a vertex that lies on a cycle or depends on one; and with
`autoClose`, asking for closures ends after at most one for each vertex,
either with everything closed, if the graph has no cycle, or with a fault and
everything closed that waits for no cycle. -/
theorem Reached.detects_cycles [DecidableEq κ] {options : OrderingOptions} {out : List Nat}
    (hg : g.Built) (h : Reached g options s out) :
    (∀ s' f, s.hasNext = (s', .error f) ∨ s.next = (s', .error f) →
      f = .misuse (.dependencyCycle s'.unclosed) ∧ ∃ v, Relation.TransGen
        (fun a b => g.DependsOn a b ∧ s'.isClosed a = false ∧ s'.isClosed b = false) v v)
    ∧ (∀ v, g.Blocked v → v ∉ out ∧ s.isClosed v = false)
    ∧ (options.autoClose = true → ∃ closures s' s'' r, Yields s closures s'
      ∧ closures.length ≤ g.size ∧ s'.next = (s'', r)
      ∧ ((g.Acyclic ∧ r = .ok none ∧ s''.unclosed = 0
          ∧ ∀ v, v < g.size → s''.isClosed v = true)
        ∨ (¬ g.Acyclic ∧ r = .error (.misuse (.dependencyCycle s''.unclosed))
          ∧ ∀ v, v < g.size → (s''.isClosed v = true ↔ ¬ g.Blocked v)))) := by
  obtain ⟨htidy, hoptions, hout⟩ := h.tidy
  have hrange := hg.inRange
  refine ⟨?_, ?_, ?_⟩
  · rintro s' f (hfault | hfault)
    · obtain ⟨t, r, hhas, ht, -, -, hends⟩ := htidy.hasNext
      rw [hfault] at hhas
      obtain ⟨rfl, rfl⟩ := Prod.mk.inj hhas
      cases hends with
      | stuck hstuck => exact ⟨rfl, ht.exists_open_cycle hstuck hrange⟩
    · obtain ⟨t, r, hnext, ht, -, -, hends⟩ := htidy.next
      rw [hfault] at hnext
      obtain ⟨rfl, rfl⟩ := Prod.mk.inj hnext
      cases hends with
      | stuck hstuck => exact ⟨rfl, ht.exists_open_cycle hstuck hrange⟩
  · intro v hblocked
    refine ⟨fun hv => (htidy.grounded v (hout v hv)).not_blocked hblocked, ?_⟩
    exact htidy.isClosed_of_blocked hblocked
  · intro hauto
    obtain ⟨closures, s', s'', r, hyields, hlen, hnext, ht, hends⟩ :=
      yields_all s.rank htidy (hoptions ▸ hauto) (Nat.le_refl _)
    refine ⟨closures, s', s'', r, hyields, Nat.le_trans hlen htidy.rank_le_size, hnext, ?_⟩
    rcases hends with ⟨hr, hzero⟩ | ⟨hr, hstuck⟩
    · have hall := ht.unclosed_eq_zero_iff.1 hzero
      refine .inl ⟨fun v hcycle => ?_, hr, hzero, hall⟩
      have hopen := ht.isClosed_of_blocked ⟨v, .refl, hcycle⟩
      rw [hall v hcycle.lt] at hopen
      cases hopen
    · obtain ⟨v, hv⟩ := ht.exists_open_cycle hstuck hrange
      refine .inr ⟨fun hacyclic => hacyclic v (hv.lift id fun a b hab => hab.1), hr, ?_⟩
      intro u hu
      constructor
      · intro hclosed hblocked
        rw [ht.isClosed_of_blocked hblocked] at hclosed
        cases hclosed
      · exact hstuck.isClosed_of_not_blocked ht hrange hu

/-- `a` and `b` depend on each other, `c` on nothing. -/
def waitingPair : DependencyGraph Bare String Signal where
  slots := [⟨⟨"a"⟩, "a", [(1, 0)], [(1, 1)]⟩, ⟨⟨"b"⟩, "b", [(0, 1)], [(0, 0)]⟩,
    ⟨⟨"c"⟩, "c", [], []⟩]
  edges := [some ⟨1, 0, none⟩, some ⟨0, 1, none⟩]
  edgeCount := 2

theorem waitingPair_detected :
    waitingPair.Built ∧ Reached waitingPair {} (start waitingPair {}) []
      ∧ ∃ closures s s', Yields (start waitingPair {}) closures s ∧ closures.length ≤ 3
        ∧ s.next = (s', .error (.misuse (.dependencyCycle s'.unclosed)))
        ∧ s'.isClosed 0 = false ∧ s'.isClosed 2 = true := by
  have hbuilt : waitingPair.Built := by
    have hvertices := Built.add (α := Signal) (Bare.mk "c")
      (.add (Bare.mk "b") (.add (Bare.mk "a") .empty))
    have hfirst : DependencyGraph.Built (⟨[⟨⟨"a"⟩, "a", [(1, 0)], []⟩,
        ⟨⟨"b"⟩, "b", [], [(0, 0)]⟩, ⟨⟨"c"⟩, "c", [], []⟩], [some ⟨1, 0, none⟩], 1⟩ :
          DependencyGraph Bare String Signal) :=
      .depend hvertices (show DependencyGraph.depend _ 0 1 none = .ok (_, some 0) from rfl)
    exact .depend hfirst (show DependencyGraph.depend _ 1 0 none = .ok (_, some 1) from rfl)
  have hcycle : waitingPair.OnCycle 0 :=
    .tail (.single ⟨_, rfl, (1, 0), by simp, rfl⟩) ⟨_, rfl, (0, 1), by simp, rfl⟩
  have hfree : ¬ waitingPair.Blocked 2 := by
    refine Grounded.not_blocked (Grounded.of_dependencies ?_)
    rintro u ⟨slot, hslot, link, hlink, -⟩
    obtain rfl := Option.some.inj hslot
    exact absurd hlink List.not_mem_nil
  have hreached : Reached waitingPair {} (start waitingPair {}) [] := .start
  obtain ⟨-, -, hauto⟩ := Reached.detects_cycles hbuilt hreached
  obtain ⟨closures, s, s', r, hyields, hlen, hnext, hends⟩ := hauto rfl
  rcases hends with ⟨hacyclic, -⟩ | ⟨-, rfl, hclosed⟩
  · exact absurd hcycle (hacyclic 0)
  · refine ⟨hbuilt, hreached, closures, s, s', hyields, hlen, hnext, ?_, ?_⟩
    · rw [Bool.eq_false_iff, ne_eq, hclosed 0 (by decide)]
      exact not_not_intro ⟨0, .refl, hcycle⟩
    · exact (hclosed 2 (by decide)).2 hfree

end Schedule

end Topiary
