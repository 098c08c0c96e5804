/-
Topiary.Proofs.Dependency.Levels — closures are the levels of the graph.

A schedule that closes the rest of each closure by itself hands out the vertices of
a graph without cycles by height, one height for each closure, whatever its owner
closes early.  This needs that no vertex changes its mind about closing itself.

* `Schedule.Steady` — no event changes which vertices can close themselves.
* `IsLevel` — the vertices of one height that do not close themselves.
* `Level` — the invariant after `k` closures: everything below height `k` was
  reached, and nothing above.
* `Level.height_of_ready`, `Level.isLevel_offered` — what is ready has height `k`,
  and once nothing closes itself all of this height is ready.
* `Level.close`, `Level.closureWithin`, `Level.hasNext`, `Level.perform`,
  `Level.performAll` — one lemma for each operation, then whole runs.
* `closures_are_levels` — which closures a run hands out.
-/
import Topiary.Proofs.Dependency.Closure
import Topiary.Proofs.Dependency.Delivery
import Topiary.Proofs.Dependency.Height

namespace Topiary

namespace Schedule

open DependencyGraph

variable {V κ α : Type}

/-! ## Levels -/

/-- The vertices of height `k` that do not close themselves, in order. -/
structure IsLevel (g : DependencyGraph V κ α) (auto : Nat → Bool) (height : Nat → Nat) (k : Nat)
    (ids : List Nat) : Prop where
  ascending : ids.Pairwise (· < ·)
  mem_iff : ∀ v, v ∈ ids ↔ v < g.size ∧ auto v = false ∧ height v = k

variable [Vertex V κ]

/-- After each closing the same vertices can close themselves. -/
def Steady (auto : Nat → Bool) (events : List (Event V κ α)) : Prop :=
  ∀ v graph, .close v graph ∈ events → graph.canResolve = auto

theorem steady_append {auto : Nat → Bool} {events events' : List (Event V κ α)} :
    Steady auto (events ++ events') ↔ Steady auto events ∧ Steady auto events' := by
  simp only [Steady, List.mem_append, or_imp, forall_and]

/-- What holds once `k` closures were handed out.  The next one is pending or is not
computed yet. -/
structure Level (g : DependencyGraph V κ α) (auto : Nat → Bool) (height : Nat → Nat) (k : Nat)
    (held : Nat → Prop) (s : Schedule V κ α) : Prop extends Books g held s where
  answers : s.graph.canResolve = auto
  autoClose : s.options.autoClose = true
  below : ∀ v, v < g.size → height v < k → s.IsReached v
  reached : ∀ v, s.IsReached v → height v < k ∨ height v = k ∧ (auto v = true ∨ s.pending ≠ [])
  pending : s.pending ≠ [] → s.yielded = [] ∧ IsLevel g auto height k s.pending
    ∧ ∀ v, v < g.size → auto v = true → height v = k → s.isClosed v = true

variable {g : DependencyGraph V κ α} {auto : Nat → Bool} {height : Nat → Nat} {k : Nat}
  {held : Nat → Prop} {s : Schedule V κ α}

theorem level_start (g : DependencyGraph V κ α) :
    Level g g.canResolve height 0 (fun _ => False) (start g { autoClose := true }) where
  toBooks := books_start g _
  answers := rfl
  autoClose := rfl
  below := fun v _ hv => absurd hv (Nat.not_lt_zero _)
  reached := fun v hv => by simp [IsReached, start, List.getElem?_replicate] at hv
  pending := fun hne => absurd rfl hne

theorem Level.congr (h : Level g auto height k held s) {held' : Nat → Prop}
    (hheld : ∀ v, held v ↔ held' v) : Level g auto height k held' s :=
  { h with toBooks := h.toBooks.congr hheld }

/-- Once the last closure is closed, everything below height `k` is. -/
theorem Level.isClosed_below (h : Level g auto height k (fun _ => False) s)
    (hyielded : s.yielded = []) {v : Nat} (hv : v < g.size) (hk : height v < k) :
    s.isClosed v = true := by
  rcases h.below v hv hk with helig | hclosed
  · have hpending : v ∈ s.pending := by simpa [h.eligible v, hyielded] using helig
    obtain ⟨-, hlevel, -⟩ := h.pending (List.ne_nil_of_mem hpending)
    have := ((hlevel.mem_iff v).1 hpending).2.2
    omega
  · exact (isClosed_iff s v).2 hclosed

/-! ## What is ready -/

section

variable (hh : Heights g auto height) (hg : g.InRange) (hground : ∀ v, g.Grounded v)
  (h : Level g auto height k (fun _ => False) s) (hyielded : s.yielded = [])
  (hpending : s.pending = [])

include hh h hpending in
/-- What is ready has height `k`, since it would have been reached if it were lower,
and one of its dependencies would be open if it were higher. -/
theorem Level.height_of_ready {v : Nat} (hv : v ∈ (List.range s.graph.size).filter s.isReady) :
    v < g.size ∧ height v = k := by
  obtain ⟨hwait, hdeps⟩ := (h.toBooks.mem_ready_iff v).1 hv
  have hlt := h.toBooks.lt_of_status hwait
  refine ⟨hlt, Nat.le_antisymm (Nat.le_of_not_lt fun habove => ?_) ?_⟩
  · obtain ⟨j, hj⟩ := Nat.exists_eq_succ_of_ne_zero (Nat.ne_of_gt (Nat.zero_lt_of_lt habove))
    obtain ⟨u, hvu, hu⟩ := hh.attained hj
    have hreached := h.reached u (.inr ((isClosed_iff s u).1 (hdeps u hvu)))
    simp only [hpending, ne_eq, not_true, or_false] at hreached
    rcases hu with ⟨-, hheight⟩ | ⟨hauto, hheight⟩
    · omega
    · rcases hreached with hlow | ⟨-, hself⟩
      · omega
      · rw [hauto] at hself
        cases hself
  · refine Nat.le_of_not_lt fun hlow => ?_
    rcases h.below v hlt hlow with hreached | hreached
    · simp [hwait] at hreached
    · simp [hwait] at hreached

include h hyielded hpending in
/-- A vertex that is not closed is ready once its dependencies are. -/
theorem Level.ready_of_deps {v : Nat} (hv : v < g.size) (hopen : s.isClosed v = false)
    (hdeps : ∀ u, g.DependsOn v u → s.isClosed u = true) :
    v ∈ (List.range s.graph.size).filter s.isReady := by
  refine (h.toBooks.mem_ready_iff v).2 ⟨?_, hdeps⟩
  obtain ⟨a, ha⟩ := h.toBooks.status_of_lt hv
  cases a with
  | unclosed => exact ha
  | eligible => simpa [hyielded, hpending] using (h.eligible v).1 ha
  | closed => simp [isClosed, ha] at hopen

include hh hg h hyielded in
/-- The dependencies of a vertex of height `k` are closed, apart from those that close
themselves at this height. -/
theorem Level.isClosed_dependency {v u : Nat} (hk : height v = k) (hvu : g.DependsOn v u)
    (hauto : auto u = true → height u = k → s.isClosed u = true) : s.isClosed u = true := by
  have hle := hh.le hvu
  by_cases hlow : height u < k
  · exact h.isClosed_below hyielded (hg v u hvu) hlow
  · cases hu : auto u with
    | true => exact hauto hu (by omega)
    | false => exact absurd (hk ▸ hh.lt hvu hu) hlow

include hh hg hground h hyielded hpending

/-- Once nothing closes itself, everything of height `k` that could has done so. -/
theorem Level.isClosed_auto (hnone : s.resolvable = []) {v : Nat} (hv : v < g.size)
    (hauto : auto v = true) (hk : height v = k) : s.isClosed v = true := by
  induction hground v with
  | intro v _ ih =>
    by_contra hopen
    have hready := h.ready_of_deps hyielded hpending hv (by simpa using hopen) fun u hvu =>
      h.isClosed_dependency hh hg hyielded hk hvu fun hu hku => ih u hvu (hg v u hvu) hu hku
    have hcan : s.canResolve v = true := (congrFun h.answers v).trans hauto
    have hmem : v ∈ s.resolvable := List.mem_filter.2 ⟨hready, hcan⟩
    rw [hnone] at hmem
    exact List.not_mem_nil hmem

/-- Once nothing closes itself, the other ready vertices are the level `k`. -/
theorem Level.isLevel_offered (hnone : s.resolvable = []) :
    IsLevel g auto height k s.offered where
  ascending := (List.pairwise_lt_range.filter _).filter _
  mem_iff := by
    intro v
    have hcan : s.canResolve v = auto v := congrFun h.answers v
    rw [offered, List.mem_filter]
    simp only [Function.comp_apply, hcan, Bool.not_eq_true']
    constructor
    · rintro ⟨hready, hauto⟩
      obtain ⟨hv, hk⟩ := h.height_of_ready hh hpending hready
      exact ⟨hv, hauto, hk⟩
    · rintro ⟨hv, hauto, hk⟩
      have hopen : s.isClosed v = false := by
        refine Bool.eq_false_iff.2 fun hclosed => ?_
        have hreached := h.reached v (.inr ((isClosed_iff s v).1 hclosed))
        simp only [hpending, hauto, ne_eq, not_true, or_false, Bool.false_eq_true,
          and_false] at hreached
        omega
      refine ⟨h.ready_of_deps hyielded hpending hv hopen fun u hvu => ?_, hauto⟩
      exact h.isClosed_dependency hh hg hyielded hk hvu fun hu hku =>
        h.isClosed_auto hh hg hground hyielded hpending hnone (hg v u hvu) hu hku

/-- Where nothing is ready, everything is closed. -/
theorem Level.all_closed (hnone : s.resolvable = []) (hoffered : s.offered = []) {v : Nat}
    (hv : v < g.size) : s.isClosed v = true := by
  have hlevel := h.isLevel_offered hh hg hground hyielded hpending hnone
  have hempty : ∀ u, u < g.size → height u = k → auto u = true := by
    intro u hu hk
    by_contra hauto
    have hmem := (hlevel.mem_iff u).2 ⟨hu, by simpa using hauto, hk⟩
    rw [hoffered] at hmem
    exact List.not_mem_nil hmem
  rcases Nat.lt_trichotomy (height v) k with hlow | hk | habove
  · exact h.isClosed_below hyielded hv hlow
  · exact h.isClosed_auto hh hg hground hyielded hpending hnone hv (hempty v hv hk) hk
  · obtain ⟨u, ⟨w, hwu⟩, hauto, hk⟩ := hh.exists_at (hground v) habove
    rw [hempty u (hg w u hwu) hk] at hauto
    cases hauto

end

/-! ## Closing -/

variable [EdgeAction α V]

/-- Closing a vertex below height `k`, or one at this height that closes itself. -/
theorem Level.closeOne (h : Level g auto height k held s) {v : Nat} (hv : v < g.size)
    (hk : height v < k ∨ height v = k ∧ auto v = true)
    (hsteady : ∀ t, s.closeOne v = .ok t → s.isClosed v = false →
      t.graph.canResolve = auto) :
    ∃ t, s.closeOne v = .ok t ∧ Level g auto height k (fun u => held u ∧ u ≠ v) t
      ∧ Onward s t := by
  rcases h.toBooks.closeOne_cases hv with ⟨hclosed, hsame⟩ | ⟨graph, hopen, hlinks, hnew⟩
  · exact ⟨s, hsame, h.congr (h.toBooks.not_held hclosed), .refl s⟩
  · have hanswers : graph.canResolve = auto := hsteady _ hnew (by simpa [isClosed] using hopen)
    -- what is pending does not close itself and has height `k`
    have hpending : (s.withClosed graph v).pending = s.pending := by
      refine List.filter_eq_self.2 fun u hu => bne_iff_ne.2 ?_
      rintro rfl
      obtain ⟨-, hlevel, -⟩ := h.pending (List.ne_nil_of_mem hu)
      obtain ⟨-, hauto, hku⟩ := (hlevel.mem_iff u).1 hu
      rcases hk with hlow | ⟨-, hself⟩
      · omega
      · rw [hauto] at hself
        cases hself
    have hreached := h.toBooks.isReached_withClosed hv graph
    refine ⟨_, hnew, ⟨h.toBooks.withClosed hv hlinks hopen, hanswers, h.autoClose, ?_, ?_, ?_⟩,
      h.toBooks.onward_withClosed hv graph⟩
    · exact fun u hu hlow => (hreached u).2 (.inr (h.below u hu hlow))
    · rw [hpending]
      intro u hu
      rcases (hreached u).1 hu with rfl | hu
      · exact hk.imp_right fun hku => ⟨hku.1, .inl hku.2⟩
      · exact h.reached u hu
    · rw [hpending]
      intro hne
      obtain ⟨hyielded, hlevel, hauto⟩ := h.pending hne
      refine ⟨by simp [Schedule.withClosed, hyielded], hlevel, fun u hu hself hku => ?_⟩
      exact (isClosed_withClosed h.toBooks hv graph u).2 (.inr (hauto u hu hself hku))

theorem Level.close {ids : List Nat} : ∀ {held : Nat → Prop} {s : Schedule V κ α},
    Level g auto height k held s →
    (∀ v ∈ ids, v < g.size ∧ (height v < k ∨ height v = k ∧ auto v = true)) →
    Steady auto (s.closeEvents ids) →
    ∃ t, s.close ids = (t, .ok ()) ∧ Level g auto height k (fun u => held u ∧ u ∉ ids) t
      ∧ Onward s t := by
  induction ids with
  | nil => exact fun h _ _ => ⟨_, rfl, h.congr (by simp), .refl _⟩
  | cons v ids ih =>
    intro held s h hids hsteady
    obtain ⟨hv, hk⟩ := hids v (List.mem_cons_self ..)
    obtain ⟨t, hone, ht, honward⟩ := h.closeOne hv hk fun t hone hopen => by
      rw [closeEvents, hone] at hsteady
      exact hsteady v t.graph (by simp [hopen])
    rw [closeEvents, hone, steady_append] at hsteady
    obtain ⟨t', hclose, ht', honward'⟩ := ih ht
      (fun u hu => hids u (List.mem_cons_of_mem _ hu)) hsteady.2
    refine ⟨t', by simp only [Schedule.close, hone, hclose], ht'.congr ?_, honward.trans honward'⟩
    simp [and_assoc]

/-! ## The next closure -/

section

variable (hh : Heights g auto height) (hg : g.InRange) (hground : ∀ v, g.Grounded v)

include hh hg hground

/-- Where nothing closes itself, the level `k` becomes eligible, or all is closed. -/
theorem Level.last_pass (h : Level g auto height k (fun _ => False) s)
    (hyielded : s.yielded = []) (hpending : s.pending = []) (hnone : s.resolvable = [])
    (passes : Nat) : ∃ t closure, s.closureWithin (passes + 1) = (t, .ok closure)
      ∧ Level g auto height k (fun _ => False) { t with pending := closure }
      ∧ (closure = [] → ∀ v, v < g.size → t.isClosed v = true) := by
  have hlevel := h.isLevel_offered hh hg hground hyielded hpending hnone
  have hauto : ∀ v, v < g.size → auto v = true → height v = k → s.isClosed v = true :=
    fun v hv => h.isClosed_auto hh hg hground hyielded hpending hnone hv
  rw [closureWithin_succ, hnone, List.isEmpty_nil, if_pos rfl]
  by_cases hoffered : s.offered = []
  · have hall : ∀ v, v < g.size → s.isClosed v = true :=
      fun v hv => h.all_closed hh hg hground hyielded hpending hnone hoffered hv
    have hzero : s.unclosed = 0 := h.toBooks.unclosed_eq_zero_iff.2 hall
    have hcheck : s.checkCycle = .ok () := by simp [checkCycle, hzero]
    refine ⟨s, [], by simp [hoffered, hcheck], ?_, fun _ => hall⟩
    have hsame : { s with pending := [] } = s := by rw [← hpending]
    rwa [hsame]
  · refine ⟨s.markEligible s.offered, s.offered, by simp [hoffered], ?_, fun hnil => ?_⟩
    · have hids : ∀ v ∈ s.offered, v < g.size ∧ s.isClosed v = false := fun v hv =>
        ⟨((hlevel.mem_iff v).1 hv).1,
          not_closed_of_isReady (List.mem_filter.1 (List.mem_filter.1 hv).1).2⟩
      obtain ⟨hbooks, -, hreached⟩ := h.toBooks.markEligible hids
      have hquiet := quiet_markEligible s.offered s fun v hv => (hids v hv).2
      refine ⟨⟨hbooks.links, hbooks.length, hbooks.unclosed, fun v => ?_⟩, h.answers, h.autoClose,
        ?_, ?_, fun _ => ⟨hyielded, hlevel, fun v hv hself hk => ?_⟩⟩
      · rw [hbooks.eligible]
        simp [Schedule.markEligible, hyielded, hpending]
      · exact fun v hv hlow => (hreached v).2 (.inr (h.below v hv hlow))
      · intro v hv
        rcases (hreached v).1 hv with hv | hv
        · exact .inr ⟨((hlevel.mem_iff v).1 hv).2.2, .inr hoffered⟩
        · refine (h.reached v hv).imp_right fun hk => ⟨hk.1, .inl ?_⟩
          exact hk.2.resolve_right fun hne => hne hpending
      · have hclosed := hauto v hv hself hk
        rw [← hquiet.isClosed] at hclosed
        exact hclosed
    · exact absurd hnil hoffered

/-- However many passes it takes, the closure that is computed is the level `k`. -/
theorem Level.closureWithin (passes : Nat) : ∀ {s : Schedule V κ α},
    Level g auto height k (fun _ => False) s → s.yielded = [] → s.pending = [] →
    s.unclosed ≤ passes → Steady auto (s.closureEvents passes) →
    ∃ t closure, s.closureWithin passes = (t, .ok closure)
      ∧ Level g auto height k (fun _ => False) { t with pending := closure }
      ∧ (closure = [] → ∀ v, v < g.size → t.isClosed v = true) := by
  induction passes with
  | zero =>
    intro s h hyielded hpending hpasses _
    refine ⟨s, [], rfl, ?_, fun _ => ?_⟩
    · have hsame : { s with pending := [] } = s := by rw [← hpending]
      rwa [hsame]
    · exact h.toBooks.unclosed_eq_zero_iff.1 (Nat.le_zero.1 hpasses)
  | succ passes ih =>
    intro s h hyielded hpending hpasses hsteady
    cases hres : s.resolvable with
    | nil => exact h.last_pass hh hg hground hyielded hpending hres passes
    | cons v ids =>
      have hready : ∀ u ∈ s.resolvable, u < g.size ∧ height u = k ∧ auto u = true := by
        intro u hu
        obtain ⟨hmem, hcan⟩ := List.mem_filter.1 hu
        obtain ⟨hlt, hk⟩ := h.height_of_ready hh hpending hmem
        exact ⟨hlt, hk, (congrFun h.answers u).symm.trans hcan⟩
      have hnone : s.resolvable.isEmpty = false := by simp [hres]
      simp only [closureEvents, hnone, Bool.false_eq_true, if_false, steady_append] at hsteady
      obtain ⟨t, hclose, ht, honward⟩ := h.close
        (fun u hu => ⟨(hready u hu).1, .inr (hready u hu).2⟩) hsteady.1
      have hless : t.unclosed < s.unclosed := by
        have htidy : Tidy g (fun _ => False) s := ⟨h.toBooks, fun v _ => hground v⟩
        obtain ⟨t', hclose', -, -, hless⟩ := htidy.close fun u hu => ⟨(hready u hu).1, hground u⟩
        rw [hclose, Prod.mk.injEq] at hclose'
        have hmem : v ∈ s.resolvable := hres ▸ List.mem_cons_self ..
        have hwait := ((h.toBooks.mem_ready_iff v).1 (List.mem_filter.1 hmem).1).1
        exact hclose'.1 ▸ hless v ids hres hwait
      rw [hclose] at hsteady
      obtain ⟨t', closure, hrest, hlevel, hall⟩ := ih (ht.congr (by simp))
        (honward.yielded hyielded) (honward.pending hpending) (by omega) hsteady.2
      refine ⟨t', closure, ?_, hlevel, hall⟩
      simp only [closureWithin_succ, hnone, Bool.false_eq_true, if_false, hclose, hrest]

/-! ## The calls -/

omit hh hg hground in
/-- The rest of the last closure is below height `k`. -/
theorem Level.closeRest (h : Level g auto height k (fun _ => False) s)
    (hsteady : Steady auto s.restEvents) :
    ∃ t, s.closeRest = (t, .ok ()) ∧ Level g auto height k (fun _ => False) t ∧ t.yielded = [] := by
  unfold restEvents at hsteady
  unfold Schedule.closeRest
  cases hyielded : s.yielded with
  | nil => exact ⟨s, by simp, h, hyielded⟩
  | cons v ids =>
    have hpending : s.pending = [] := by
      by_contra hne
      rw [(h.pending hne).1] at hyielded
      cases hyielded
    have hheld : Level g auto height k (· ∈ v :: ids) { s with yielded := [] } :=
      ⟨⟨h.links, h.length, h.toBooks.unclosed, fun u => by
          simpa [hyielded] using h.eligible u⟩,
        h.answers, h.autoClose, h.below, h.reached, fun hne => absurd hpending hne⟩
    have hids : ∀ u ∈ v :: ids, u < g.size ∧ (height u < k ∨ height u = k ∧ auto u = true) := by
      intro u hu
      have helig := (h.eligible u).2 (.inr (.inl (hyielded ▸ hu)))
      refine ⟨h.toBooks.lt_of_status helig, (h.reached u (.inl helig)).imp_right ?_⟩
      exact And.imp_right fun hor => hor.resolve_right fun hne => hne hpending
    simp only [h.autoClose, hyielded, List.isEmpty_cons, Bool.not_false, Bool.and_true,
      if_true] at hsteady ⊢
    obtain ⟨t, hclose, ht, honward⟩ := hheld.close hids hsteady
    have hnone : ∀ u, (u ∈ v :: ids ∧ u ∉ v :: ids) ↔ False := fun u => and_not_self_iff _
    exact ⟨t, hclose, ht.congr hnone, honward.yielded rfl⟩

theorem Level.hasNext (h : Level g auto height k (fun _ => False) s)
    (hsteady : Steady auto s.hasNextEvents) :
    ∃ t, s.hasNext = (t, .ok (!t.pending.isEmpty)) ∧ Level g auto height k (fun _ => False) t
      ∧ (t.pending = [] → ∀ v, v < g.size → t.isClosed v = true) := by
  unfold hasNextEvents at hsteady
  rw [steady_append] at hsteady
  obtain ⟨t, hrest, ht, hyielded⟩ := h.closeRest hsteady.1
  unfold Schedule.hasNext
  simp only [hrest, prepare, nextClosure] at hsteady ⊢
  by_cases hpending : t.pending = []
  · simp only [hpending, List.isEmpty_nil, if_true] at hsteady ⊢
    obtain ⟨t', closure, hclosure, hlevel, hall⟩ :=
      ht.closureWithin hh hg hground t.unclosed hyielded hpending (Nat.le_refl _) hsteady.2
    exact ⟨_, by rw [hclosure], hlevel, hall⟩
  · have hnonempty : t.pending.isEmpty = false := by simpa using hpending
    simp only [hnonempty, Bool.false_eq_true, if_false]
    exact ⟨t, by simp [hnonempty], ht, fun hnil => absurd hnil hpending⟩

/-- One call that closes only what was handed out. -/
theorem Level.perform (h : Level g auto height k (fun _ => False) s) {call : Call}
    (hids : ∀ ids, call = .close ids → ∀ v ∈ ids, v < g.size ∧ height v < k)
    (hsteady : Steady auto (s.callEvents call)) :
    ∃ t result, s.perform call = (t, .ok result)
      ∧ Level g auto height (k + result.toList.length) (fun _ => False) t
      ∧ (∀ ids ∈ result, call = .next ∧ ids ≠ [] ∧ IsLevel g auto height k ids)
      ∧ (call = .next → result = none → ∀ v, v < g.size → t.isClosed v = true) := by
  cases call with
  | hasNext =>
    obtain ⟨t, hhas, ht, -⟩ := h.hasNext hh hg hground hsteady
    exact ⟨t, none, by rw [Schedule.perform, hhas]; rfl, ht, by simp, by simp⟩
  | close ids =>
    obtain ⟨t, hclose, ht, -⟩ := h.close (fun v hv => (hids ids rfl v hv).imp_right .inl) hsteady
    exact ⟨t, none, by rw [Schedule.perform, hclose]; rfl, ht.congr (by simp), by simp, by simp⟩
  | next =>
    simp only [callEvents, steady_append] at hsteady
    obtain ⟨t, hhas, ht, hall⟩ := h.hasNext hh hg hground hsteady.1
    simp only [Schedule.perform, Schedule.next, hhas]
    by_cases hpending : t.pending = []
    · simp only [hpending, List.isEmpty_nil, Bool.not_true]
      exact ⟨t, none, rfl, ht, by simp, fun _ _ => hall hpending⟩
    · have hnonempty : t.pending.isEmpty = false := by simpa using hpending
      obtain ⟨hyielded, hlevel, hauto⟩ := ht.pending hpending
      simp only [hnonempty, Bool.not_false]
      refine ⟨_, some t.pending, rfl, ⟨⟨ht.links, ht.length, ht.toBooks.unclosed, fun v => ?_⟩,
        ht.answers, ht.autoClose, ?_, ?_, fun hne => absurd rfl hne⟩, ?_, by simp⟩
      · rw [ht.eligible]
        simp
      · -- the level `k` is reached: what closes itself is closed, the rest is handed out
        intro v hv hlow
        rcases Nat.lt_or_eq_of_le (Nat.le_of_lt_succ hlow) with hlow | hk
        · exact ht.below v hv hlow
        · cases hself : auto v with
          | true => exact .inr ((isClosed_iff t v).1 (hauto v hv hself hk))
          | false =>
            exact .inl ((ht.eligible v).2 (.inr (.inr ((hlevel.mem_iff v).2 ⟨hv, hself, hk⟩))))
      · intro v hv
        have hle := ht.reached v hv
        simp only [Option.toList_some, List.length_singleton]
        omega
      · intro ids hids
        obtain rfl := Option.mem_some.1 hids
        exact ⟨trivial, hpending, hlevel⟩

/-! ## Runs -/

/-- Runs whose owner closes only what was handed out. -/
theorem Level.performAll {calls : List Call} : ∀ {k : Nat} {out : List Nat} {s : Schedule V κ α},
    Level g auto height k (fun _ => False) s → (∀ v ∈ out, v < g.size ∧ height v < k) →
    s.Heeds out calls → Steady auto (s.journal calls) →
    ∃ t closures, s.performAll calls = (t, .ok closures)
      ∧ Level g auto height (k + closures.length) (fun _ => False) t
      ∧ (∀ i ids, closures[i]? = some ids → ids ≠ [] ∧ IsLevel g auto height (k + i) ids)
      ∧ (closures.length < calls.count .next → ∀ v, v < g.size → t.isClosed v = true) := by
  induction calls with
  | nil => exact fun h _ _ _ => ⟨_, [], rfl, h, by simp, by simp⟩
  | cons call calls ih =>
    rintro k out s h hout ⟨hcloses, hheeds⟩ hsteady
    rw [journal, steady_append] at hsteady
    obtain ⟨t, result, hperform, ht, hresult, hnone⟩ := h.perform hh hg hground
      (fun ids hids v hv => hout v (hcloses ids hids v hv)) hsteady.1
    have hlinked := linked_journal calls t
    simp only [hperform] at hheeds hsteady
    obtain ⟨t', closures, hall, ht', hlevels, hclosed⟩ := ih ht (fun v hv => by
      rcases List.mem_append.1 hv with hv | hv
      · exact (hout v hv).imp_right fun hlow => Nat.lt_of_lt_of_le hlow (Nat.le_add_right ..)
      · obtain ⟨ids, hids, hmem⟩ := List.mem_flatten.1 hv
        rw [Option.mem_toList] at hids
        obtain ⟨-, -, hlevel⟩ := hresult ids hids
        obtain ⟨hlt, -, hk⟩ := (hlevel.mem_iff v).1 hmem
        obtain rfl := Option.mem_def.1 hids
        exact ⟨hlt, by simp [hk]⟩) hheeds hsteady.2
    rw [hall] at hlinked
    refine ⟨t', result.toList ++ closures, by simp only [Schedule.performAll, hperform, hall], ?_,
      ?_, ?_⟩
    · rwa [List.length_append, ← Nat.add_assoc]
    · intro i ids hids
      cases result with
      | none => simpa using hlevels i ids (by simpa using hids)
      | some first =>
        cases i with
        | zero =>
          obtain rfl : first = ids := by simpa using hids
          exact (hresult first rfl).2
        | succ i =>
          have hrest := hlevels i ids (by simpa using hids)
          rwa [Option.toList_some, List.length_singleton, Nat.add_assoc, Nat.add_comm 1] at hrest
    · intro hless v hv
      rw [List.count_cons] at hless
      by_cases hcall : call = .next
      · cases result with
        | none => exact (hlinked.isClosed_iff v).2 (.inr (hnone hcall rfl v hv))
        | some first =>
          refine hclosed ?_ v hv
          simp only [hcall, beq_self_eq_true, if_true, Option.toList_some, List.length_append,
            List.length_singleton] at hless
          omega
      · cases result with
        | none =>
          refine hclosed ?_ v hv
          simpa [hcall] using hless
        | some first => exact absurd (hresult first rfl).1 hcall

end

/-- **Closures are levels.**  A schedule that closes the rest of each closure by
itself never faults on a graph without cycles.  The `k`-th closure consists of the
vertices of height `k` that do not close themselves, whatever the owner closes of
what was handed out; once a call of `next` hands out nothing, everything is closed
and all levels were handed out, and at most as many calls as there are vertices hand
out something. -/
theorem closures_are_levels [DecidableEq κ] (hg : g.Built) (hacyclic : g.Acyclic)
    {calls : List Call} (hheeds : Heeds (start g { autoClose := true }) [] calls)
    (hsteady : Steady g.canResolve ((start g { autoClose := true }).journal calls)) :
    ∃ s closures, (start g { autoClose := true }).performAll calls = (s, .ok closures)
      ∧ (∀ k ids, closures[k]? = some ids → ids ≠ [] ∧ ids.Pairwise (· < ·)
        ∧ ∀ v, v ∈ ids ↔ v < g.size ∧ g.canResolve v = false ∧ g.HasHeight g.canResolve v k)
      ∧ (closures.length < calls.count .next →
        (∀ v, v < g.size → s.isClosed v = true)
        ∧ ∀ v, v < g.size → g.canResolve v = false → ∃ ids ∈ closures, v ∈ ids)
      ∧ (g.size < calls.count .next → closures.length < calls.count .next) := by
  have hrange := hg.inRange
  have hground := hacyclic.grounded hrange
  choose height hheight using exists_hasHeight hacyclic hrange g.canResolve
  obtain ⟨s, closures, hrun, hs, hlevels, hclosed⟩ := (level_start g).performAll
    (HasHeight.heights hheight) hrange hground (List.forall_mem_nil _) hheeds hsteady
  simp only [Nat.zero_add] at hs hlevels
  have hmem : ∀ k v, g.HasHeight g.canResolve v k ↔ height v = k := fun k v =>
    ⟨fun h => (hheight v).unique h, fun h => h ▸ hheight v⟩
  refine ⟨s, closures, hrun, fun k ids hids => ?_, fun hless => ⟨hclosed hless, ?_⟩, fun hmore => ?_⟩
  · obtain ⟨hne, hlevel⟩ := hlevels k ids hids
    simp only [hmem]
    exact ⟨hne, hlevel.ascending, hlevel.mem_iff⟩
  · intro v hv hauto
    have hvclosed := hclosed hless v hv
    have hlow : height v < closures.length := by
      refine (hs.reached v (.inr ((isClosed_iff s v).1 hvclosed))).resolve_right ?_
      rintro ⟨hk, hor⟩
      have hpending := hor.resolve_left (by simp [hauto])
      have helig := (hs.eligible v).2 (.inr (.inr
        (((hs.pending hpending).2.1.mem_iff v).2 ⟨hv, hauto, hk⟩)))
      rw [(isClosed_iff s v).1 hvclosed] at helig
      cases helig
    obtain ⟨ids, hids⟩ : ∃ ids, closures[height v]? = some ids :=
      ⟨_, List.getElem?_eq_getElem hlow⟩
    exact ⟨ids, List.mem_of_getElem? hids, ((hlevels _ ids hids).2.mem_iff v).2 ⟨hv, hauto, rfl⟩⟩
  · -- each closure has a height of its own
    refine Nat.lt_of_le_of_lt ?_ hmore
    have hsubset : Finset.range closures.length ⊆ (Finset.range g.size).image height := by
      intro k hk
      rw [Finset.mem_range] at hk
      obtain ⟨hne, hlevel⟩ := hlevels k _ (List.getElem?_eq_getElem hk)
      obtain ⟨v, hv⟩ := List.exists_mem_of_ne_nil _ hne
      obtain ⟨hlt, -, hvk⟩ := (hlevel.mem_iff v).1 hv
      exact Finset.mem_image.2 ⟨v, Finset.mem_range.2 hlt, hvk⟩
    simpa using (Finset.card_le_card hsubset).trans Finset.card_image_le

/-- `b` closes itself once `a` is closed, and `c` depends on `b`; `d` stands alone. -/
def assembly : DependencyGraph (SimpleVertex String) String Signal where
  slots := [⟨⟨"a", false, 0⟩, "a", [], [(1, 0)]⟩, ⟨⟨"b", true, 0⟩, "b", [(0, 0)], [(2, 1)]⟩,
    ⟨⟨"c", false, 0⟩, "c", [(1, 1)], []⟩, ⟨⟨"d", false, 0⟩, "d", [], []⟩]
  edges := [some ⟨0, 1, some (.ofKind .count)⟩, some ⟨1, 2, none⟩]
  edgeCount := 2

/-- `d` is closed early and twice, `a` is not closed by the owner, and the end is asked
for. -/
theorem assembly_levels :
    assembly.Built ∧ assembly.Acyclic
      ∧ ∃ s, (start assembly { autoClose := true }).performAll
          [.hasNext, .next, .close [3, 3], .hasNext, .next, .next] = (s, .ok [[0, 3], [2]])
        ∧ assembly.HasHeight assembly.canResolve 3 0 ∧ assembly.HasHeight assembly.canResolve 2 1
        ∧ ∀ v, v < 4 → s.isClosed v = true := by
  have hbuilt : assembly.Built := by
    have hvertices := Built.add (α := Signal) (SimpleVertex.mk "d" false 0)
      (.add (.mk "c" false 0) (.add (.mk "b" true 0) (.add (.mk "a" false 0) .empty)))
    have hfirst := Built.depend hvertices
      (show DependencyGraph.depend _ 1 0 (some (.ofKind .count)) = .ok (_, some 0) from rfl)
    exact .depend hfirst (show DependencyGraph.depend _ 2 1 none = .ok (_, some 1) from rfl)
  have hlower : ∀ v u, assembly.DependsOn v u → u < v := by
    rintro v u ⟨slot, hslot, link, hlink, rfl⟩
    match v with
    | 0 | 1 | 2 | 3 =>
      obtain rfl := Option.some.inj hslot
      revert link
      decide
    | n + 4 => cases hslot
  have hacyclic : assembly.Acyclic := by
    intro v hcycle
    have hless : ∀ v u, Relation.TransGen assembly.DependsOn v u → u < v := by
      intro v u h
      induction h with
      | single h => exact hlower _ _ h
      | tail _ h ih => exact Nat.lt_trans (hlower _ _ h) ih
    exact Nat.lt_irrefl v (hless v v hcycle)
  have hheeds : Heeds (start assembly { autoClose := true }) []
      [.hasNext, .next, .close [3, 3], .hasNext, .next, .next] := by
    refine ⟨by simp, by simp, ?_, by simp, by simp, by simp, trivial⟩
    rintro ids ⟨⟩ v hv
    revert v
    decide
  have hjournal : (start assembly { autoClose := true }).journal
      [.hasNext, .next, .close [3, 3], .hasNext, .next, .next]
        = [.handOut [0, 3], .close 3 _, .close 0 _, .close 1 _, .handOut [2], .close 2 _] := rfl
  have hsteady : Steady assembly.canResolve ((start assembly { autoClose := true }).journal
      [.hasNext, .next, .close [3, 3], .hasNext, .next, .next]) := by
    intro v graph hmem
    rw [hjournal] at hmem
    simp only [List.mem_cons, Event.close.injEq, reduceCtorEq, List.not_mem_nil, false_or,
      or_false] at hmem
    rcases hmem with ⟨-, rfl⟩ | ⟨-, rfl⟩ | ⟨-, rfl⟩ | ⟨-, rfl⟩ <;>
    · funext u
      match u with
      | 0 | 1 | 2 | 3 => rfl
      | n + 4 => rfl
  have hrun : (start assembly { autoClose := true }).performAll
      [.hasNext, .next, .close [3, 3], .hasNext, .next, .next] = (_, .ok [[0, 3], [2]]) := rfl
  obtain ⟨s, closures, heq, hlevels, hend, -⟩ :=
    closures_are_levels hbuilt hacyclic hheeds hsteady
  rw [hrun, Prod.mk.injEq, Except.ok.injEq] at heq
  obtain ⟨rfl, rfl⟩ := heq
  obtain ⟨-, -, hfirst⟩ := hlevels 0 [0, 3] rfl
  obtain ⟨-, -, hsecond⟩ := hlevels 1 [2] rfl
  exact ⟨hbuilt, hacyclic, _, hrun, ((hfirst 3).1 (by decide)).2.2, ((hsecond 2).1 (by decide)).2.2,
    (hend (by decide)).1⟩

end Schedule

end Topiary
