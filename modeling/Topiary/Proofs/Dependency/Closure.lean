/-
Topiary.Proofs.Dependency.Closure — computing the next closure.

Every pass closes a vertex or is the last one, so the count of vertices that
are not closed bounds the passes.  The last pass makes all ready vertices
eligible, or finds none; then something is eligible already, all is closed,
or the schedule is stuck.

* `Tidy.markEligible` — the vertices that become eligible.
* `Stuck` — nothing is eligible or ready although something is not closed.
* `Tidy.closureWithin` — the three ways in which it ends.
* `Books.exists_dependency` — what is not closed depends on something that
  is not closed.
-/
import Topiary.Proofs.Dependency.Tidy

namespace Topiary

namespace Schedule

open DependencyGraph

variable {V κ α : Type} {g : DependencyGraph V κ α} {held : Nat → Prop} {s : Schedule V κ α}

/-! ## Becoming eligible -/

/-- One vertex that is not closed becomes eligible. -/
theorem Tidy.markOne (h : Tidy g held s) {v : Nat} (hv : v < g.size) (hground : g.Grounded v)
    (hopen : s.status[v]? ≠ some .closed) :
    Tidy g (fun u => held u ∨ u = v) { s with status := s.status.set v .eligible } := by
  refine ⟨h.toBooks.markOne hv hopen, fun u hu => ?_⟩
  rcases (h.toBooks.isReached_markOne hv u).1 hu with rfl | hu
  · exact hground
  · exact h.grounded u hu

/-- Vertices that are not closed become eligible. -/
theorem Tidy.markEligible {ids : List Nat} : ∀ {held : Nat → Prop} {s : Schedule V κ α},
    Tidy g held s →
    (∀ v ∈ ids, v < g.size ∧ g.Grounded v ∧ s.status[v]? ≠ some .closed) →
    Tidy g (fun u => held u ∨ u ∈ ids) (s.markEligible ids) ∧ Onward s (s.markEligible ids)
      ∧ (∀ v rest, ids = v :: rest → s.status[v]? = some .unclosed →
        (s.markEligible ids).waiting < s.waiting) := by
  induction ids with
  | nil =>
    intro held s h _
    exact ⟨h.congr (by simp), .refl s, by simp⟩
  | cons v ids ih =>
    intro held s h hids
    obtain ⟨hv, hground, hopen⟩ := hids v (List.mem_cons_self ..)
    obtain ⟨honward, hless⟩ := h.toBooks.onward_markOne hv
    obtain ⟨htidy, honward', -⟩ := ih (h.markOne hv hground hopen) fun u hu => by
      obtain ⟨hlt, hgu, hou⟩ := hids u (List.mem_cons_of_mem _ hu)
      refine ⟨hlt, hgu, ?_⟩
      rw [h.toBooks.getElem?_set_status hv]
      by_cases huv : u = v
      · simp [huv]
      · simpa [huv] using hou
    refine ⟨htidy.congr ?_, honward.trans honward', ?_⟩
    · simp [or_assoc]
    · intro w rest hw hwait
      rw [List.cons.injEq] at hw
      exact Nat.lt_of_le_of_lt honward'.waiting (hless (hw.1 ▸ hwait))

/-! ## Being stuck -/

/-- Something is not closed, and nothing can be done about it. -/
structure Stuck (s : Schedule V κ α) : Prop where
  unclosed : s.unclosed ≠ 0
  not_eligible : ∀ v : Nat, s.status[v]? ≠ some .eligible
  not_ready : ∀ v, v < s.graph.size → s.isReady v = false

/-- Of a stuck schedule, what is not closed depends on something else that is
not closed. -/
theorem Books.exists_dependency (h : Books g held s) (hs : Stuck s) (hg : g.InRange) {v : Nat}
    (hv : v < g.size) (hopen : s.isClosed v = false) :
    ∃ u, g.DependsOn v u ∧ u < g.size ∧ s.isClosed u = false := by
  obtain ⟨a, ha⟩ := h.status_of_lt hv
  have hwait : s.status[v]? = some .unclosed := by
    cases a with
    | unclosed => exact ha
    | eligible => exact absurd ha (hs.not_eligible v)
    | closed =>
      rw [(isClosed_iff s v).2 ha] at hopen
      cases hopen
  have hnot := hs.not_ready v (h.links.size_eq ▸ hv)
  rw [← Bool.not_eq_true, h.isReady_iff hv] at hnot
  simp only [hwait, true_and, not_forall] at hnot
  obtain ⟨u, hu, hclosed⟩ := hnot
  exact ⟨u, hu, hg v u hu, by simpa using hclosed⟩

/-- Something is not closed exactly if the count says so. -/
theorem Books.unclosed_eq_zero_iff (h : Books g held s) :
    s.unclosed = 0 ↔ ∀ v, v < g.size → s.isClosed v = true := by
  have hunclosed := h.unclosed
  have hlength := h.length
  constructor
  · intro hzero v hv
    have hall := List.count_eq_length.1 (show s.status.count .closed = s.status.length by omega)
    obtain ⟨a, ha⟩ := h.status_of_lt hv
    rw [isClosed_iff, ha, hall a (List.mem_of_getElem? ha)]
  · intro hall
    have hcount : s.status.count .closed = s.status.length := by
      refine List.count_eq_length.2 fun a ha => ?_
      obtain ⟨v, hv⟩ := List.getElem?_of_mem ha
      have hlt : v < g.size := hlength ▸ (List.getElem?_eq_some_iff.1 hv).1
      have hclosed := (isClosed_iff s v).1 (hall v hlt)
      rw [hv] at hclosed
      exact (Option.some.inj hclosed).symm
    omega

/-! ## The passes -/

/-- The three ends of the computation of a closure: the schedule is stuck,
nothing becomes eligible, or something does. -/
inductive ClosureEnds (g : DependencyGraph V κ α) (s s' : Schedule V κ α) :
    Except Fault (List Nat) → Prop
  | stuck : Tidy g (fun _ => False) s' → Stuck s' →
    ClosureEnds g s s' (.error (.misuse (.dependencyCycle s'.unclosed)))
  | nothing : Tidy g (fun _ => False) s' →
    (s'.unclosed = 0 ∨ ∃ v : Nat, s'.status[v]? = some .eligible) → ClosureEnds g s s' (.ok [])
  | closure (v : Nat) (ids : List Nat) : Tidy g (fun u => u ∈ v :: ids) s' →
    s'.waiting < s.waiting → ClosureEnds g s s' (.ok (v :: ids))

theorem ClosureEnds.after {s₀ s' : Schedule V κ α} {r : Except Fault (List Nat)}
    (h : ClosureEnds g s s' r) (hle : s.waiting ≤ s₀.waiting) : ClosureEnds g s₀ s' r := by
  cases h with
  | stuck htidy hstuck => exact .stuck htidy hstuck
  | nothing htidy hdone => exact .nothing htidy hdone
  | closure v ids htidy hlt => exact .closure v ids htidy (Nat.lt_of_lt_of_le hlt hle)

/-- What is ready can be handed out. -/
theorem Tidy.of_mem_ready (h : Tidy g held s) {v : Nat}
    (hv : v ∈ (List.range s.graph.size).filter s.isReady) :
    v < g.size ∧ g.Grounded v ∧ s.status[v]? = some .unclosed := by
  have hwait := ((h.toBooks.mem_ready_iff v).1 hv).1
  have hlt := h.toBooks.lt_of_status hwait
  exact ⟨hlt, h.grounded_of_isReady hlt (List.mem_filter.1 hv).2, hwait⟩

/-- A pass that makes vertices eligible is the last one. -/
theorem Tidy.markReady (h : Tidy g (fun _ => False) s) {v : Nat} {ids : List Nat}
    (hids : ∀ u ∈ v :: ids, u ∈ (List.range s.graph.size).filter s.isReady) :
    Onward s (s.markEligible (v :: ids))
      ∧ ClosureEnds g s (s.markEligible (v :: ids)) (.ok (v :: ids)) := by
  have hopen : ∀ u ∈ v :: ids, u < g.size ∧ g.Grounded u ∧ s.status[u]? ≠ some .closed := by
    intro u hu
    obtain ⟨hlt, hgrounded, hwait⟩ := h.of_mem_ready (hids u hu)
    exact ⟨hlt, hgrounded, by simp [hwait]⟩
  obtain ⟨-, -, hwait⟩ := h.of_mem_ready (hids v (List.mem_cons_self ..))
  obtain ⟨htidy, honward, hless⟩ := h.markEligible hopen
  exact ⟨honward, .closure v ids (htidy.congr (by simp)) (hless v ids rfl hwait)⟩

/-- Where nothing is ready, the check tells a stuck schedule from one that
waits or is done. -/
theorem Tidy.checkCycle (h : Tidy g (fun _ => False) s)
    (hnone : ∀ v, v < s.graph.size → s.isReady v = false) :
    ClosureEnds g s s (s.checkCycle.map fun _ => []) := by
  by_cases hcheck : (s.status.contains .eligible || s.unclosed == 0) = true
  · rw [Schedule.checkCycle, if_pos hcheck]
    rw [Bool.or_eq_true, beq_iff_eq, List.contains_iff_mem] at hcheck
    exact .nothing h (hcheck.symm.imp_right List.getElem?_of_mem)
  · rw [Schedule.checkCycle, if_neg hcheck]
    refine .stuck h ⟨fun hzero => hcheck ?_, fun v hv => hcheck ?_, hnone⟩
    · simp [hzero]
    · simp [List.mem_of_getElem? hv]

variable [Vertex V κ] [EdgeAction α V]

/-- As many passes as there are vertices that are not closed are enough. -/
theorem Tidy.closureWithin (passes : Nat) : ∀ {s : Schedule V κ α},
    Tidy g (fun _ => False) s → s.unclosed ≤ passes →
    ∃ s' r, s.closureWithin passes = (s', r) ∧ Onward s s' ∧ ClosureEnds g s s' r := by
  induction passes with
  | zero =>
    intro s h hpasses
    exact ⟨s, .ok [], rfl, .refl s, .nothing h (.inl (Nat.le_zero.1 hpasses))⟩
  | succ passes ih =>
    intro s h hpasses
    simp only [Schedule.closureWithin, List.partition_eq_filter_filter]
    cases hres : ((List.range s.graph.size).filter s.isReady).filter s.canResolve with
    | cons v ids =>
      -- something closes itself
      have hready : ∀ u ∈ v :: ids, u ∈ (List.range s.graph.size).filter s.isReady :=
        fun u hu => (List.mem_filter.1 (hres ▸ hu)).1
      obtain ⟨-, -, hwait⟩ := h.of_mem_ready (hready v (List.mem_cons_self ..))
      have hgrounded : ∀ u ∈ v :: ids, u < g.size ∧ g.Grounded u := by
        intro u hu
        obtain ⟨hlt, hground, -⟩ := h.of_mem_ready (hready u hu)
        exact ⟨hlt, hground⟩
      obtain ⟨s', hclose, htidy, honward, hless⟩ := h.close hgrounded
      have hlt := hless v ids rfl hwait
      obtain ⟨s'', r, hrest, honward', hends⟩ :=
        ih (htidy.congr (by simp)) (show s'.unclosed ≤ passes by omega)
      refine ⟨s'', r, ?_, honward.trans honward', hends.after honward.waiting⟩
      simp only [List.isEmpty_cons, Bool.false_eq_true, if_false, hclose]
      exact hrest
    | nil =>
      cases hclosure : ((List.range s.graph.size).filter s.isReady).filter
          (not ∘ s.canResolve) with
      | cons v ids =>
        obtain ⟨honward, hends⟩ := h.markReady fun u hu => (List.mem_filter.1 (hclosure ▸ hu)).1
        exact ⟨_, _, rfl, honward, hends⟩
      | nil =>
        have hnone : ∀ v, v < s.graph.size → s.isReady v = false := by
          intro v hv
          refine Bool.eq_false_iff.2 fun hready => ?_
          have hmem := List.mem_filter.2 ⟨List.mem_range.2 hv, hready⟩
          cases hcan : s.canResolve v with
          | true => exact List.not_mem_nil (hres ▸ List.mem_filter.2 ⟨hmem, hcan⟩)
          | false =>
            exact List.not_mem_nil (hclosure ▸ List.mem_filter.2 ⟨hmem, by simp [hcan]⟩)
        refine ⟨s, _, ?_, .refl s, h.checkCycle hnone⟩
        cases s.checkCycle <;> rfl

end Schedule

end Topiary
