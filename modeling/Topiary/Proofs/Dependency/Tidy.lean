/-
Topiary.Proofs.Dependency.Tidy — schedules that close what is handed out.

A schedule whose owner closes only what was handed out lets a vertex become
eligible or closed only after all that it depends on is closed, so the chains of
dependencies of such a vertex end.

* `Schedule.Tidy` — the invariant: the books, and that chains end.
* `Tidy.closeOne`, `Tidy.close` — closing vertices.
-/
import Topiary.Proofs.Dependency.Books

namespace Topiary

namespace Schedule

open DependencyGraph

variable {V κ α : Type}

/-! ## The invariant -/

/-- What holds of every schedule of a graph. -/
structure Tidy (g : DependencyGraph V κ α) (held : Nat → Prop) (s : Schedule V κ α) : Prop
    extends Books g held s where
  grounded : ∀ v, s.IsReached v → g.Grounded v

section

variable {g : DependencyGraph V κ α} {held : Nat → Prop} {s : Schedule V κ α}

theorem tidy_start (g : DependencyGraph V κ α) (options : OrderingOptions) :
    Tidy g (fun _ => False) (start g options) := by
  refine ⟨books_start g options, fun v hv => ?_⟩
  simp [IsReached, start, List.getElem?_replicate] at hv

theorem Tidy.congr (h : Tidy g held s) {held' : Nat → Prop} (hheld : ∀ v, held v ↔ held' v) :
    Tidy g held' s :=
  ⟨h.toBooks.congr hheld, h.grounded⟩

theorem IsReached.lt (h : Tidy g held s) {v : Nat} (hv : s.IsReached v) : v < g.size := by
  rcases hv with hv | hv
  · exact h.toBooks.lt_of_status hv
  · exact h.toBooks.lt_of_status hv

theorem Tidy.grounded_of_isReady (h : Tidy g held s) {v : Nat} (hv : v < g.size)
    (hready : s.isReady v = true) : g.Grounded v :=
  .of_dependencies fun u hu =>
    h.grounded u (.inr ((isClosed_iff s u).1 (((h.toBooks.isReady_iff hv).1 hready).2 u hu)))

/-! ## Closing -/

theorem Tidy.withClosed (h : Tidy g held s) {v : Nat} (hv : v < g.size)
    (hground : g.Grounded v) {graph : DependencyGraph V κ α} (hlinks : s.graph.SameLinks graph)
    (hopen : s.status[v]? ≠ some .closed) :
    Tidy g (fun u => held u ∧ u ≠ v) (s.withClosed graph v) := by
  refine ⟨h.toBooks.withClosed hv hlinks hopen, fun u hu => ?_⟩
  rcases (h.toBooks.isReached_withClosed hv graph u).1 hu with rfl | hu
  · exact hground
  · exact h.grounded u hu

variable [Vertex V κ] [EdgeAction α V]

/-- Closing a grounded vertex. -/
theorem Tidy.closeOne (h : Tidy g held s) {v : Nat} (hv : v < g.size) (hground : g.Grounded v) :
    ∃ s', s.closeOne v = .ok s' ∧ Tidy g (fun u => held u ∧ u ≠ v) s' ∧ Onward s s'
      ∧ (s.status[v]? = some .unclosed → s'.unclosed < s.unclosed) := by
  rcases h.toBooks.closeOne_cases hv with ⟨hclosed, hclose⟩ | ⟨graph, hopen, hlinks, hclose⟩
  · exact ⟨s, hclose, h.congr (h.toBooks.not_held hclosed), .refl s, by simp [hclosed]⟩
  · obtain ⟨a, ha⟩ := h.toBooks.status_of_lt hv
    have hne : a ≠ .closed := fun he => hopen (he ▸ ha)
    exact ⟨s.withClosed graph v, hclose, h.withClosed hv hground hlinks hopen,
      h.toBooks.onward_withClosed hv graph,
      fun _ => Nat.sub_lt (h.toBooks.unclosed_withClosed ha hne).2 Nat.one_pos⟩

/-- Closing grounded vertices one after the other. -/
theorem Tidy.close {ids : List Nat} : ∀ {held : Nat → Prop} {s : Schedule V κ α},
    Tidy g held s → (∀ v ∈ ids, v < g.size ∧ g.Grounded v) →
    ∃ s', s.close ids = (s', .ok ()) ∧ Tidy g (fun u => held u ∧ u ∉ ids) s' ∧ Onward s s'
      ∧ (∀ v rest, ids = v :: rest → s.status[v]? = some .unclosed →
        s'.unclosed < s.unclosed) := by
  induction ids with
  | nil =>
    intro held s h _
    exact ⟨s, rfl, h.congr (by simp), .refl s, by simp⟩
  | cons v ids ih =>
    intro held s h hids
    obtain ⟨hv, hground⟩ := hids v (List.mem_cons_self ..)
    obtain ⟨s', hclose, htidy, honward, hless⟩ := h.closeOne hv hground
    obtain ⟨s'', hrest, htidy', honward', -⟩ :=
      ih htidy fun u hu => hids u (List.mem_cons_of_mem _ hu)
    refine ⟨s'', ?_, htidy'.congr ?_, honward.trans honward', ?_⟩
    · rw [Schedule.close, hclose]
      exact hrest
    · simp [and_assoc]
    · intro w rest hw hwait
      rw [List.cons.injEq] at hw
      exact Nat.lt_of_le_of_lt honward'.unclosed (hless (hw.1 ▸ hwait))

end

end Schedule

end Topiary
