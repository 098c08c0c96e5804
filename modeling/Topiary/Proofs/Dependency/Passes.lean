/-
Topiary.Proofs.Dependency.Passes — the passes in which vertices close themselves.

To compute a closure, a schedule closes what closes itself, pass after pass.
Which vertices these are is found out at the beginning of a pass, and then they
are closed one by one, each of which resolves a vertex and fires actions that
write to others.  What was found out still holds when a vertex gets its turn: an
action writes to vertices that depend on the one that is closed, and of two
vertices that are ready at one moment none depends on the other.

* `Schedule.Intact` — the books, and a graph that agrees with itself.
* `Schedule.Advanced` — some vertices that were unclosed are closed, and
  everything else is as it was.
* `Schedule.SelfClosing` — one turn of a pass; `Schedule.Pass`,
  `Schedule.Passes` — a pass, and passes one after the other.
* `Consistent.vertex_resolve` — what resolving a vertex leaves alone.
* `Intact.exists_pass`, `Intact.exists_passes` — all turns and all passes, up to
  one in which nothing closes itself.
* `Passes.closureWithin_eq` — the computation goes through these passes.
-/
import Topiary.Proofs.Dependency.Deeds

namespace Topiary

variable {V κ α : Type}

/-! ## What resolving a vertex leaves alone -/

/-- A vertex that does not depend on the resolved one stays as it is. -/
theorem DependencyGraph.Consistent.vertex_resolve [Vertex V κ] [EdgeAction α V]
    {g g' : DependencyGraph V κ α} (h : g.Consistent) {v w : Nat}
    (hresolve : g.resolve v = .ok g') (hne : w ≠ v) (hfree : ¬ g.DependsOn w v) :
    g'.store.vertex w = g.store.vertex w := by
  rw [(h.resolve_store hresolve).2]
  refine Store.carryAll_vertex_of_ne (fun deed hdeed => ?_) g.store
  rcases List.mem_cons.1 hdeed with rfl | hfiring
  · exact hne
  · obtain ⟨id, u, a, hedge, rfl⟩ := (DependencyGraph.mem_firings_iff h v deed).1 hfiring
    rintro rfl
    exact hfree ((h.dependsOn_iff_joins _ _).2 ⟨id, some a, hedge⟩)

namespace Schedule

open DependencyGraph

/-- Whether a vertex can close itself is a matter of the vertex alone. -/
theorem canResolve_congr [Vertex V κ] {s t : Schedule V κ α} {v : Nat}
    (h : t.graph.store.vertex v = s.graph.store.vertex v) : t.canResolve v = s.canResolve v := by
  have hvertex : ∀ s : Schedule V κ α,
      s.canResolve v = ((s.graph.store.vertex v).map Vertex.canResolve).getD false := by
    intro s
    simp only [canResolve, store]
    cases s.graph.slots[v]? <;> rfl
  rw [hvertex, hvertex, h]

variable {g : DependencyGraph V κ α} {options : OrderingOptions} {s t t' : Schedule V κ α}
  {v : Nat} {ids ids' pass : List Nat} {passes : List (List Nat)}

/-! ## The invariant -/

/-- What holds of a schedule of `g` between two calls, whatever they were. -/
structure Intact (g : DependencyGraph V κ α) (options : OrderingOptions) (s : Schedule V κ α) :
    Prop extends Books g (fun _ => False) s where
  options : s.options = options
  consistent : s.graph.Consistent

/-- These vertices were unclosed and are closed. -/
structure Advanced (s : Schedule V κ α) (ids : List Nat) (t : Schedule V κ α) : Prop where
  options : t.options = s.options
  unclosed_before : ∀ u ∈ ids, s.status[u]? = some .unclosed
  status : ∀ u, t.status[u]? = if u ∈ ids then some .closed else s.status[u]?
  unclosed : t.unclosed + ids.length = s.unclosed
  yielded : t.yielded = s.yielded
  pending : t.pending = s.pending

theorem Advanced.refl (s : Schedule V κ α) : Advanced s [] s :=
  ⟨rfl, fun _ hu => absurd hu List.not_mem_nil, fun _ => rfl, rfl, rfl, rfl⟩

theorem Advanced.append (h : Advanced s ids t) (h' : Advanced t ids' t') :
    Advanced s (ids ++ ids') t' where
  options := h'.options.trans h.options
  unclosed_before := by
    intro u hu
    rcases List.mem_append.1 hu with hu | hu
    · exact h.unclosed_before u hu
    · have hunclosed := h'.unclosed_before u hu
      rw [h.status] at hunclosed
      by_cases hids : u ∈ ids
      · simp [hids] at hunclosed
      · simpa [hids] using hunclosed
  status := by
    intro u
    rw [h'.status, h.status]
    by_cases hu : u ∈ ids
    · simp [hu]
    · simp [hu]
  unclosed := by
    rw [List.length_append, ← h.unclosed, ← h'.unclosed]
    omega
  yielded := h'.yielded.trans h.yielded
  pending := h'.pending.trans h.pending

theorem Advanced.isClosed_iff (h : Advanced s ids t) (u : Nat) :
    t.isClosed u = true ↔ u ∈ ids ∨ s.isClosed u = true := by
  rw [Schedule.isClosed_iff, Schedule.isClosed_iff, h.status]
  by_cases hu : u ∈ ids
  · simp [hu]
  · simp [hu]

variable [Vertex V κ] [EdgeAction α V]

omit [EdgeAction α V] in
theorem Books.mem_resolvable_iff {held : Nat → Prop} (h : Books g held s) :
    v ∈ s.resolvable ↔ s.status[v]? = some .unclosed
      ∧ (∀ u, g.DependsOn v u → s.isClosed u = true) ∧ s.canResolve v = true := by
  rw [resolvable, List.mem_filter, h.mem_ready_iff, and_assoc]

omit [EdgeAction α V] in
theorem Books.mem_offered_iff {held : Nat → Prop} (h : Books g held s) :
    v ∈ s.offered ↔ s.status[v]? = some .unclosed
      ∧ (∀ u, g.DependsOn v u → s.isClosed u = true) ∧ s.canResolve v = false := by
  rw [offered, List.mem_filter, h.mem_ready_iff, and_assoc]
  simp

/-! ## One turn -/

/-- Closing an unclosed vertex. -/
theorem Intact.closeOne (h : Intact g options s) (hv : s.status[v]? = some .unclosed) :
    ∃ t, s.closeOne v = .ok t ∧ Intact g options t ∧ Advanced s [v] t
      ∧ ∀ w, w ≠ v → ¬ g.DependsOn w v → t.graph.store.vertex w = s.graph.store.vertex w := by
  have hlt := h.lt_of_status hv
  rcases h.closeOne_cases hlt with ⟨hclosed, -⟩ | ⟨graph, hopen, hlinks, hclose⟩
  · rw [hv] at hclosed
    cases hclosed
  · have hresolve : s.graph.resolve v = .ok graph := by
      rcases closing_of_closeOne hclose with ⟨hclosed, -⟩ | hclosing
      · exact absurd ((isClosed_iff s v).1 hclosed) hopen
      · exact hclosing.resolve
    have hunlisted : ∀ u, u ∈ s.yielded ∨ u ∈ s.pending → (u != v) = true := by
      intro u hu
      rw [bne_iff_ne]
      rintro rfl
      have heligible := (h.eligible u).2 (.inr hu)
      rw [hv] at heligible
      cases heligible
    refine ⟨s.withClosed graph v, hclose,
      ⟨(h.withClosed hlt hlinks hopen).congr (by simp), h.options, h.consistent.resolve hresolve⟩,
      ⟨rfl, fun u hu => List.mem_singleton.1 hu ▸ hv, fun u => ?_, ?_, ?_, ?_⟩,
      fun w hne hfree => ?_⟩
    · simp only [Schedule.withClosed, h.getElem?_set_status hlt, List.mem_singleton]
    · have hpos := (h.unclosed_withClosed hv (by decide)).2
      simp only [Schedule.withClosed, List.length_singleton]
      omega
    · exact List.filter_eq_self.2 fun u hu => hunlisted u (.inl hu)
    · exact List.filter_eq_self.2 fun u hu => hunlisted u (.inr hu)
    · rw [h.links.dependsOn_eq] at hfree
      exact h.consistent.vertex_resolve hresolve hne hfree

/-- One turn of a pass.  When the vertex is closed, all that it depends on is, it
can close itself, and the other vertices of the pass are left as they are. -/
structure SelfClosing (g : DependencyGraph V κ α) (pass : List Nat) (s : Schedule V κ α)
    (v : Nat) (t : Schedule V κ α) : Prop where
  unclosed : s.status[v]? = some .unclosed
  supplied : ∀ u, g.DependsOn v u → s.isClosed u = true
  able : s.canResolve v = true
  closeOne : s.closeOne v = .ok t
  apart : ∀ w ∈ pass, w ≠ v → t.graph.store.vertex w = s.graph.store.vertex w

/-- The turns of a pass. -/
inductive Pass (g : DependencyGraph V κ α) (pass : List Nat) :
    Schedule V κ α → List Nat → Schedule V κ α → Prop
  | nil {s : Schedule V κ α} : Pass g pass s [] s
  | cons {s t t' : Schedule V κ α} {v : Nat} {ids : List Nat} :
    SelfClosing g pass s v t → Pass g pass t ids t' → Pass g pass s (v :: ids) t'

/-- A pass closes its vertices in order. -/
theorem Pass.close_eq (h : Pass g pass s ids t) : s.close ids = (t, .ok ()) := by
  induction h with
  | nil => rfl
  | cons hturn _ ih =>
    rw [Schedule.close, hturn.closeOne]
    exact ih

/-- What holds of the vertices of a pass at its beginning still holds when they
get their turns. -/
theorem Intact.exists_pass (hfree : ∀ v ∈ pass, ∀ w ∈ pass, ¬ g.DependsOn w v) :
    ∀ {s : Schedule V κ α}, Intact g options s → ids.Nodup → ids ⊆ pass →
      (∀ v ∈ ids, v ∈ s.resolvable) →
      ∃ t, Pass g pass s ids t ∧ Intact g options t ∧ Advanced s ids t := by
  induction ids with
  | nil => exact fun {s} h _ _ _ => ⟨s, .nil, h, .refl s⟩
  | cons v ids ih =>
    intro s h hnodup hpass hids
    obtain ⟨hnew, hnodup⟩ := List.nodup_cons.1 hnodup
    have hv := hpass (List.mem_cons_self ..)
    obtain ⟨hunclosed, hsupplied, hable⟩ := h.mem_resolvable_iff.1 (hids v (List.mem_cons_self ..))
    obtain ⟨t, hclose, ht, hadvanced, halone⟩ := h.closeOne hunclosed
    have hapart : ∀ w ∈ pass, w ≠ v → t.graph.store.vertex w = s.graph.store.vertex w :=
      fun w hw hne => halone w hne (hfree v hv w hw)
    have hrest : ∀ w ∈ ids, w ∈ t.resolvable := by
      intro w hw
      have hne : w ≠ v := fun he => hnew (he ▸ hw)
      obtain ⟨hunclosed, hsupplied, hable⟩ :=
        h.mem_resolvable_iff.1 (hids w (List.mem_cons_of_mem _ hw))
      refine ht.mem_resolvable_iff.2 ⟨?_, fun u hu => ?_, ?_⟩
      · rw [hadvanced.status, if_neg (mt List.mem_singleton.1 hne)]
        exact hunclosed
      · exact (hadvanced.isClosed_iff u).2 (.inr (hsupplied u hu))
      · rw [canResolve_congr (hapart w (hpass (List.mem_cons_of_mem _ hw)) hne)]
        exact hable
    obtain ⟨t', hturns, ht', hadvanced'⟩ :=
      ih ht hnodup (fun w hw => hpass (List.mem_cons_of_mem _ hw)) hrest
    exact ⟨t', .cons ⟨hunclosed, hsupplied, hable, hclose, hapart⟩ hturns, ht',
      hadvanced.append hadvanced'⟩

/-! ## All passes -/

/-- Passes one after the other, none of them empty. -/
inductive Passes (g : DependencyGraph V κ α) :
    Schedule V κ α → List (List Nat) → Schedule V κ α → Prop
  | nil {s : Schedule V κ α} : Passes g s [] s
  | cons {s t t' : Schedule V κ α} {passes : List (List Nat)} : s.resolvable ≠ [] →
    Pass g s.resolvable s s.resolvable t → Passes g t passes t' →
      Passes g s (s.resolvable :: passes) t'

/-- Every pass closes something. -/
theorem Passes.length_le (h : Passes g s passes t) : passes.length ≤ passes.flatten.length := by
  induction h with
  | nil => exact Nat.le_refl _
  | cons hsome _ _ ih =>
    have hpos := List.length_pos_iff.2 hsome
    rw [List.length_cons, List.flatten_cons, List.length_append]
    omega

/-- The passes end, and then nothing that is ready closes itself. -/
theorem Intact.exists_passes (h : Intact g options s) :
    ∃ passes t, Passes g s passes t ∧ Intact g options t ∧ Advanced s passes.flatten t
      ∧ t.resolvable = [] := by
  induction hn : s.unclosed using Nat.strong_induction_on generalizing s with
  | h n ih =>
    by_cases hnone : s.resolvable = []
    · exact ⟨[], s, .nil, h, .refl s, hnone⟩
    · have hfree : ∀ v ∈ s.resolvable, ∀ w ∈ s.resolvable, ¬ g.DependsOn w v := by
        intro v hv w hw hdep
        have hclosed := (h.mem_resolvable_iff.1 hw).2.1 v hdep
        rw [isClosed_iff, (h.mem_resolvable_iff.1 hv).1] at hclosed
        cases hclosed
      have hnodup : s.resolvable.Nodup := (List.nodup_range.filter _).filter _
      obtain ⟨t, hpass, ht, hadvanced⟩ :=
        h.exists_pass hfree hnodup (List.Subset.refl _) fun v hv => hv
      have hless : t.unclosed < n := by
        have := hadvanced.unclosed
        have := List.length_pos_iff.2 hnone
        omega
      obtain ⟨passes, t', hpasses, ht', hadvanced', hlast⟩ := ih _ hless ht rfl
      exact ⟨_, t', .cons hnone hpass hpasses, ht', hadvanced.append hadvanced', hlast⟩

/-- The computation of a closure goes through the passes. -/
theorem Passes.closureWithin_eq (h : Passes g s passes t) (n : Nat) :
    s.closureWithin (passes.length + n) = t.closureWithin n := by
  induction h with
  | nil => rw [List.length_nil, Nat.zero_add]
  | cons hsome hpass _ ih =>
    rw [List.length_cons, Nat.add_right_comm, closureWithin_succ,
      if_neg (mt List.isEmpty_iff.1 hsome), hpass.close_eq]
    exact ih

end Schedule

end Topiary
