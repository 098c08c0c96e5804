/-
Topiary.Proofs.Dependency.Fixpoint — each closure is complete.

A closure is computed from what the last pass finds, after passes in which
vertices closed themselves and switched others on and off.  It is the whole set
of vertices that can be handed out then: whatever is neither closed nor handed
out waits for something that is not closed.  This holds in every schedule that
calls can lead to, also calls that close vertices before their turn or fault.

* `Schedule.Arises` — the schedules that calls lead to, and those in which a
  closure is computed.
* `Schedule.Complete` — what a computed closure holds, against the schedule
  before the computation.
* `Intact.closureWithin_one`, `Intact.complete` — the last pass.
* `Intact.perform`, `Arises.intact` — all calls keep the books.
* `Arises.closures_are_fixpoints` — the computation as a whole.
-/
import Topiary.Proofs.Dependency.Detection
import Topiary.Proofs.Dependency.Passes

namespace Topiary

namespace Schedule

open DependencyGraph

variable {V κ α : Type} {g : DependencyGraph V κ α} {options : OrderingOptions}
  {s t : Schedule V κ α} {v : Nat} {passes : List (List Nat)}

section

variable [Vertex V κ] [EdgeAction α V]

/-! ## The last pass -/

/-- The closure that is computed from `s`, once the passes are over and the
schedule is `s'`. -/
structure Complete (g : DependencyGraph V κ α) (s : Schedule V κ α) (passes : List (List Nat))
    (closure : List Nat) (s' : Schedule V κ α) : Prop where
  /-- It holds all vertices that are neither closed nor eligible before and depend
  on closed ones only. -/
  mem_iff : ∀ v, v ∈ closure ↔ v < g.size ∧ s'.isClosed v = false
    ∧ s.status[v]? ≠ some .eligible ∧ ∀ u, g.DependsOn v u → s'.isClosed u = true
  ascending : closure.Pairwise (· < ·)
  unable : ∀ v ∈ closure, s'.canResolve v = false
  eligible : ∀ v, s'.status[v]? = some .eligible ↔ v ∈ closure ∨ s.status[v]? = some .eligible
  closed : ∀ v, s'.isClosed v = true ↔ v ∈ passes.flatten ∨ s.isClosed v = true
  unready : ∀ v, s'.isReady v = false

/-- One pass more, where nothing closes itself. -/
theorem closureWithin_of_resolvable_eq_nil (h : s.resolvable = []) (n : Nat) :
    s.closureWithin (n + 1) =
      if s.offered.isEmpty then
        match s.checkCycle with
        | .error f => (s, .error f)
        | .ok () => (s, .ok [])
      else (s.markEligible s.offered, .ok s.offered) := by
  rw [closureWithin_succ, h]
  rfl

omit [EdgeAction α V] in
theorem Books.not_isReady {held : Nat → Prop} (h : Books g held s) (hnone : s.resolvable = [])
    (hoffered : s.offered = []) (v : Nat) (hv : v < s.graph.size) : s.isReady v = false := by
  refine Bool.eq_false_iff.2 fun hready => ?_
  obtain ⟨hunclosed, hsupplied⟩ :=
    (h.mem_ready_iff v).1 (List.mem_filter.2 ⟨List.mem_range.2 hv, hready⟩)
  cases hable : s.canResolve v with
  | true => exact List.not_mem_nil (hnone ▸ h.mem_resolvable_iff.2 ⟨hunclosed, hsupplied, hable⟩)
  | false => exact List.not_mem_nil (hoffered ▸ h.mem_offered_iff.2 ⟨hunclosed, hsupplied, hable⟩)

/-- The ends of the last pass: something is offered, or something waits, or all is
closed; otherwise the schedule is stuck. -/
theorem Intact.closureWithin_one (h : Intact g options s) (hnone : s.resolvable = []) :
    (s.closureWithin 1 = (s.markEligible s.offered, .ok s.offered)
      ∧ (s.offered = [] → s.unclosed = 0 ∨ ∃ v : Nat, s.status[v]? = some .eligible))
    ∨ s.closureWithin 1 = (s, .error (.misuse (.dependencyCycle s.unclosed))) ∧ Stuck s := by
  rw [closureWithin_of_resolvable_eq_nil hnone 0]
  by_cases hoffered : s.offered = []
  · rw [if_pos (List.isEmpty_iff.2 hoffered)]
    by_cases hcheck : (s.status.contains .eligible || s.unclosed == 0) = true
    · refine .inl ⟨?_, fun _ => ?_⟩
      · rw [checkCycle, if_pos hcheck, hoffered]
        rfl
      · rw [Bool.or_eq_true, beq_iff_eq, List.contains_iff_mem] at hcheck
        exact hcheck.symm.imp_right List.getElem?_of_mem
    · refine .inr ⟨by rw [checkCycle, if_neg hcheck], fun hzero => hcheck ?_, fun v hv => hcheck ?_,
        h.not_isReady hnone hoffered⟩
      · simp [hzero]
      · simp [List.mem_of_getElem? hv]
  · rw [if_neg (mt List.isEmpty_iff.1 hoffered)]
    exact .inl ⟨rfl, fun hnil => absurd hnil hoffered⟩

/-- As many passes as there are unclosed vertices are enough, and more make no
difference. -/
theorem Intact.closureWithin_eq (ht : Intact g options t) (hpasses : Passes g s passes t)
    (hadvanced : Advanced s passes.flatten t)
    (hnone : t.resolvable = []) {n : Nat} (hn : s.unclosed ≤ n) :
    s.closureWithin n = t.closureWithin 1 := by
  have hlength := hpasses.length_le
  have hunclosed := hadvanced.unclosed
  obtain ⟨m, rfl⟩ := Nat.exists_eq_add_of_le (show passes.length ≤ n by omega)
  rw [hpasses.closureWithin_eq]
  cases m with
  | succ m => rw [closureWithin_of_resolvable_eq_nil hnone, closureWithin_of_resolvable_eq_nil hnone]
  | zero =>
    have hzero : t.unclosed = 0 := by omega
    have hoffered : t.offered = [] := by
      refine List.eq_nil_iff_forall_not_mem.2 fun v hv => ?_
      obtain ⟨hopen, -⟩ := ht.mem_offered_iff.1 hv
      have hclosed := ht.unclosed_eq_zero_iff.1 hzero v (ht.lt_of_status hopen)
      rw [isClosed_iff, hopen] at hclosed
      cases hclosed
    rw [closureWithin_of_resolvable_eq_nil hnone, if_pos (List.isEmpty_iff.2 hoffered), checkCycle,
      if_pos (by simp [hzero])]
    rfl

omit [EdgeAction α V] in
/-- What is offered in the last pass becomes eligible. -/
theorem Intact.markOffered (h : Intact g options t) :
    Books g (· ∈ t.offered) (t.markEligible t.offered)
      ∧ Quiet t (t.markEligible t.offered) := by
  have hopen : ∀ v ∈ t.offered, v < g.size ∧ t.isClosed v = false := by
    intro v hv
    have hunclosed := (h.mem_offered_iff.1 hv).1
    refine ⟨h.lt_of_status hunclosed, ?_⟩
    rw [isClosed, hunclosed]
    rfl
  exact ⟨(h.toBooks.markEligible hopen).1.congr (by simp),
    quiet_markEligible t.offered t fun v hv => (hopen v hv).2⟩

omit [EdgeAction α V] in
/-- What is offered in the last pass is complete. -/
theorem Intact.complete (h : Intact g options t) (hadvanced : Advanced s passes.flatten t)
    (hnone : t.resolvable = []) :
    Complete g s passes t.offered (t.markEligible t.offered) := by
  obtain ⟨hbooks, hquiet⟩ := h.markOffered
  have hbefore : ∀ v : Nat, t.status[v]? = some .eligible ↔ s.status[v]? = some .eligible := by
    intro v
    rw [hadvanced.status]
    by_cases hv : v ∈ passes.flatten
    · simp [hv, hadvanced.unclosed_before v hv]
    · simp [hv]
  have heligible : ∀ v : Nat, (t.markEligible t.offered).status[v]? = some .eligible
      ↔ v ∈ t.offered ∨ s.status[v]? = some .eligible := by
    intro v
    rw [hbooks.eligible, ← hbefore, h.eligible]
    simp [Schedule.markEligible]
  have hmem : ∀ v, v ∈ t.offered ↔ v < g.size ∧ t.isClosed v = false
      ∧ s.status[v]? ≠ some .eligible ∧ ∀ u, g.DependsOn v u → t.isClosed u = true := by
    intro v
    rw [h.mem_offered_iff, ne_eq, ← hbefore]
    constructor
    · rintro ⟨hunclosed, hsupplied, -⟩
      refine ⟨h.lt_of_status hunclosed, ?_, by simp [hunclosed], hsupplied⟩
      rw [isClosed, hunclosed]
      rfl
    · rintro ⟨hlt, hopen, hfresh, hsupplied⟩
      have hunclosed : t.status[v]? = some .unclosed := by
        obtain ⟨a, ha⟩ := h.status_of_lt hlt
        cases a with
        | unclosed => exact ha
        | eligible => exact absurd ha hfresh
        | closed => simp [isClosed, ha] at hopen
      refine ⟨hunclosed, hsupplied, Bool.eq_false_iff.2 fun hable => ?_⟩
      exact List.not_mem_nil (hnone ▸ h.mem_resolvable_iff.2 ⟨hunclosed, hsupplied, hable⟩)
  refine ⟨fun v => ?_, (List.pairwise_lt_range.filter _).filter _,
    fun v hv => (h.mem_offered_iff.1 hv).2.2, heligible, fun v => ?_, fun v => ?_⟩
  · rw [hquiet.isClosed]
    exact hmem v
  · rw [hquiet.isClosed]
    exact hadvanced.isClosed_iff v
  · refine Bool.eq_false_iff.2 fun hready => ?_
    have hunclosed : (t.markEligible t.offered).status[v]? = some .unclosed := by
      rw [isReady, Bool.and_eq_true, beq_iff_eq] at hready
      exact hready.1
    have hlt := hbooks.lt_of_status hunclosed
    have hsupplied := ((hbooks.isReady_iff hlt).1 hready).2
    have hopen := not_closed_of_isReady hready
    rw [hquiet.isClosed] at hsupplied hopen
    have hfresh : s.status[v]? ≠ some .eligible := by
      intro he
      have helig := (heligible v).2 (.inr he)
      rw [hunclosed] at helig
      cases helig
    have helig := (heligible v).2 (.inl ((hmem v).2 ⟨hlt, hopen, hfresh, hsupplied⟩))
    rw [hunclosed] at helig
    cases helig

/-! ## Calls -/

/-- A closure is computed, or the schedule is stuck. -/
theorem Intact.nextClosure (h : Intact g options s) : ∃ passes t, Passes g s passes t
    ∧ Intact g options t ∧ Advanced s passes.flatten t ∧ t.resolvable = []
    ∧ ((s.nextClosure = (t.markEligible t.offered, .ok t.offered)
        ∧ (t.offered = [] → t.unclosed = 0 ∨ ∃ v : Nat, t.status[v]? = some .eligible))
      ∨ s.nextClosure = (t, .error (.misuse (.dependencyCycle t.unclosed))) ∧ Stuck t) := by
  obtain ⟨passes, t, hpasses, ht, hadvanced, hnone⟩ := h.exists_passes
  have heq : s.nextClosure = t.closureWithin 1 :=
    ht.closureWithin_eq hpasses hadvanced hnone (Nat.le_refl _)
  exact ⟨passes, t, hpasses, ht, hadvanced, hnone, heq ▸ ht.closureWithin_one hnone⟩

/-- The rest of the last closure is closed. -/
theorem Intact.closeRest (h : Intact g options s) : ∃ t, s.closeRest = (t, .ok ())
    ∧ Intact g options t ∧ (options.autoClose = true → t.yielded = []) := by
  have hconsistent := ((linked_closeRest s).store_eq h.consistent).1
  unfold Schedule.closeRest at hconsistent ⊢
  by_cases hauto : (s.options.autoClose && !s.yielded.isEmpty) = true
  · rw [if_pos hauto] at hconsistent ⊢
    have hheld : Books g (· ∈ s.yielded) { s with yielded := [] } :=
      ⟨h.links, h.length, h.unclosed, fun v => by simpa using h.eligible v⟩
    obtain ⟨held', ht, honward, hold, hall⟩ := hheld.close s.yielded
    obtain ⟨hok, hnot⟩ := hall fun v hv => h.lt_of_status ((h.eligible v).2 (.inr (.inl hv)))
    have hnone : ∀ u, held' u ↔ False := fun u => ⟨fun hu => hnot u hu (hold u hu), False.elim⟩
    exact ⟨_, Prod.ext rfl hok,
      ⟨ht.congr hnone, honward.options.trans h.options, hconsistent⟩, fun _ => honward.yielded rfl⟩
  · rw [if_neg hauto]
    refine ⟨s, rfl, h, fun ho => ?_⟩
    simpa [h.options, ho] using hauto

omit [EdgeAction α V] in
/-- What is offered in the last pass is what is handed out next. -/
theorem Intact.announce (h : Intact g options t) (hpending : t.pending = []) :
    Intact g options { t.markEligible t.offered with pending := t.offered } := by
  obtain ⟨hbooks, hquiet⟩ := h.markOffered
  refine ⟨⟨hbooks.links, hbooks.length, hbooks.unclosed, fun v => ?_⟩, h.options, ?_⟩
  · rw [hbooks.eligible]
    simp [Schedule.markEligible, hpending, or_comm]
  · rw [hquiet.graph]
    exact h.consistent

/-- The question for another closure.  If there is none, all is closed, or a vertex
that was handed out waits to be closed by the owner. -/
theorem Intact.hasNext (h : Intact g options s) : ∃ t r, s.hasNext = (t, r) ∧ Intact g options t
    ∧ (r = .ok false → t.unclosed = 0
      ∨ options.autoClose = false ∧ ∃ v ∈ t.yielded, t.isClosed v = false) := by
  obtain ⟨s₁, hrest, h₁, hyielded⟩ := h.closeRest
  unfold Schedule.hasNext
  simp only [hrest, Schedule.prepare]
  by_cases hpending : s₁.pending = []
  · obtain ⟨passes, t, -, ht, hadvanced, -, hends⟩ := h₁.nextClosure
    simp only [hpending, List.isEmpty_nil, if_true]
    rcases hends with ⟨hnext, hdone⟩ | ⟨hnext, -⟩
    · rw [hnext]
      refine ⟨_, _, rfl, ht.announce (hadvanced.pending.trans hpending), fun hr => ?_⟩
      have hoffered : t.offered = [] := by simpa using hr
      refine (hdone hoffered).imp_right fun hwaits => ?_
      obtain ⟨v, hv⟩ := hwaits
      have hlisted : v ∈ t.yielded := by
        simpa [hadvanced.pending, hpending] using (ht.eligible v).1 hv
      refine ⟨Bool.eq_false_iff.2 fun hauto => ?_, v, hlisted, ?_⟩
      · rw [hadvanced.yielded, hyielded hauto] at hlisted
        exact List.not_mem_nil hlisted
      · simp [hoffered, Schedule.markEligible, isClosed, hv]
    · rw [hnext]
      exact ⟨t, _, rfl, ht, fun hr => by cases hr⟩
  · have hsome : s₁.pending.isEmpty = false := by simpa using hpending
    simp only [hsome]
    exact ⟨s₁, _, rfl, h₁, fun hr => absurd (by simpa using hr) hpending⟩

/-- Calls keep the books, and so do calls that fault. -/
theorem Intact.perform (h : Intact g options s) (call : Call) :
    Intact g options (s.perform call).1 := by
  cases call with
  | hasNext =>
    obtain ⟨t, r, hhas, ht, -⟩ := h.hasNext
    rw [Schedule.perform, hhas]
    exact ht
  | next =>
    obtain ⟨t, r, hhas, ht, -⟩ := h.hasNext
    rw [Schedule.perform, Schedule.next, hhas]
    cases r with
    | error f => exact ht
    | ok more =>
      cases more with
      | false => exact ht
      | true =>
        refine ⟨⟨ht.links, ht.length, ht.unclosed, fun v => ?_⟩, ht.options, ht.consistent⟩
        rw [ht.eligible]
        simp
  | close ids =>
    obtain ⟨held, hbooks, honward, hheld, -⟩ := h.toBooks.close ids
    exact ⟨hbooks.congr fun u => ⟨hheld u, False.elim⟩, honward.options.trans h.options,
      ((linked_close ids s).store_eq h.consistent).1⟩

/-- The schedules that calls can lead to, whatever they close and whether they fault,
and those in which a closure is computed, which is after the rest of the last one was
closed. -/
inductive Arises (g : DependencyGraph V κ α) (options : OrderingOptions) :
    Schedule V κ α → Prop
  | start : Arises g options (start g options)
  | call {s : Schedule V κ α} (call : Call) : Arises g options s →
    Arises g options (s.perform call).1
  | rest {s : Schedule V κ α} : Arises g options s → Arises g options s.closeRest.1

theorem Arises.intact (hg : g.Consistent) (h : Arises g options s) : Intact g options s := by
  induction h with
  | start => exact ⟨books_start g options, rfl, hg⟩
  | call call _ ih => exact ih.perform call
  | rest _ ih =>
    obtain ⟨t, hrest, ht, -⟩ := ih.closeRest
    rw [hrest]
    exact ht

/-! ## The theorem -/

/-- **Each closure is a complete fixpoint.**  In every schedule of a graph, whatever
its vertices and actions do, the computation of a closure ends after finitely many
passes, each of which closes at least one vertex.  Every vertex that they close has
its dependencies closed and can close itself at this very moment, and nothing that
happens in its pass before changes it.  Then the closure is complete, or the schedule
faults because the vertices that are not closed have a cycle among them.

So there is no further closure only if everything is closed, or, without
`autoClose`, if a vertex that was handed out waits to be closed. -/
theorem Arises.closures_are_fixpoints [DecidableEq κ] (hg : g.Built)
    (h : Arises g options s) :
    (∃ passes t, Passes g s passes t ∧ passes.length ≤ s.unclosed ∧ t.resolvable = []
      ∧ (∀ n, s.unclosed ≤ n → s.closureWithin n = s.nextClosure)
      ∧ ((∃ closure s', s.nextClosure = (s', .ok closure) ∧ s'.graph = t.graph
          ∧ Complete g s passes closure s')
        ∨ (s.nextClosure = (t, .error (.misuse (.dependencyCycle t.unclosed)))
          ∧ ∃ v, Relation.TransGen
            (fun a b => g.DependsOn a b ∧ t.isClosed a = false ∧ t.isClosed b = false) v v)))
    ∧ ∀ s', s.hasNext = (s', .ok false) →
      (options.autoClose = true → ∀ v, v < g.size → s'.isClosed v = true)
      ∧ (options.autoClose = false → (∀ v, v < g.size → s'.isClosed v = true)
        ∨ ∃ v ∈ s'.yielded, s'.isClosed v = false) := by
  have hs := h.intact hg.consistent
  constructor
  · obtain ⟨passes, t, hpasses, ht, hadvanced, hnone, hends⟩ := hs.nextClosure
    have hlength : passes.length ≤ s.unclosed := by
      have := hpasses.length_le
      have := hadvanced.unclosed
      omega
    refine ⟨passes, t, hpasses, hlength, hnone, fun n hn => ?_, ?_⟩
    · rw [ht.closureWithin_eq hpasses hadvanced hnone hn]
      exact (ht.closureWithin_eq hpasses hadvanced hnone (Nat.le_refl _)).symm
    · rcases hends with ⟨hnext, -⟩ | ⟨hnext, hstuck⟩
      · exact .inl ⟨_, _, hnext, ht.markOffered.2.graph, ht.complete hadvanced hnone⟩
      · exact .inr ⟨hnext, ht.exists_open_cycle hstuck hg.inRange⟩
  · intro s' hhas
    obtain ⟨t, r, hr, ht, hdone⟩ := hs.hasNext
    obtain ⟨rfl, rfl⟩ := Prod.mk.inj (hhas.symm.trans hr)
    have hends := (hdone rfl).imp_left ht.unclosed_eq_zero_iff.1
    refine ⟨fun hauto => ?_, fun _ => hends.imp_right And.right⟩
    exact hends.resolve_right fun hmanual => by simp [hauto] at hmanual

end

/-- The rocket depends on the fuse, which closes itself and then lets the rocket do
so; the smoke depends on the rocket. -/
def fuse : DependencyGraph (SimpleVertex String) String Signal where
  slots := [⟨⟨"fuse", true, 0⟩, "fuse", [], [(1, 0)]⟩,
    ⟨⟨"rocket", false, 0⟩, "rocket", [(0, 0)], [(2, 1)]⟩,
    ⟨⟨"smoke", false, 0⟩, "smoke", [(1, 1)], []⟩]
  edges := [some ⟨0, 1, some (.ofKind (.setAuto true))⟩, some ⟨1, 2, none⟩]
  edgeCount := 2

/-- The first closure is the smoke alone, after a pass for the fuse and one for the
rocket. -/
theorem fuse_closure_is_fixpoint : fuse.Built ∧ Arises fuse {} (start fuse {})
    ∧ ∃ passes t s', Passes fuse (start fuse {}) passes t
      ∧ (start fuse {}).nextClosure = (s', .ok [2])
      ∧ Complete fuse (start fuse {}) passes [2] s'
      ∧ 1 ∈ passes.flatten := by
  have hbuilt : fuse.Built := by
    have hvertices := Built.add (α := Signal) (SimpleVertex.mk "smoke" false 0)
      (.add (.mk "rocket" false 0) (.add (.mk "fuse" true 0) .empty))
    have hfirst := Built.depend hvertices
      (show DependencyGraph.depend _ 1 0 (some (.ofKind (.setAuto true))) = .ok (_, some 0) from rfl)
    exact .depend hfirst (show DependencyGraph.depend _ 2 1 none = .ok (_, some 1) from rfl)
  have harises : Arises fuse {} (start fuse {}) := .start
  have hrun : (start fuse {}).nextClosure = (_, .ok [2]) := rfl
  obtain ⟨⟨passes, t, hpasses, -, -, -, hends⟩, -⟩ := harises.closures_are_fixpoints hbuilt
  rcases hends with ⟨closure, s', hnext, -, hcomplete⟩ | ⟨hnext, -⟩
  · obtain ⟨rfl, hclosure⟩ := Prod.mk.inj (hrun.symm.trans hnext)
    obtain rfl := Except.ok.inj hclosure
    refine ⟨hbuilt, harises, passes, t, _, hpasses, hrun, hcomplete, ?_⟩
    exact ((hcomplete.closed 1).1 rfl).resolve_right (by decide)
  · exact absurd (Prod.mk.inj (hrun.symm.trans hnext)).2 (by simp)

end Schedule

end Topiary
