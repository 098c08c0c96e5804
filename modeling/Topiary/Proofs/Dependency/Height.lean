/-
Topiary.Proofs.Dependency.Height — how many closures a vertex has to wait for.

In a graph without cycles every chain of dependencies is short, so among the chains
that end at a vertex there is one with the most vertices that have to be waited for.
Their number is the height of the vertex.

* `DependencyGraph.canResolve` — the vertex can close itself and is not waited for.
* `HasHeight` — the height, by chains.
* `exists_hasHeight` — without cycles every vertex has one.
* `Heights` — heights, by one step of the dependency relation.
* `HasHeight.heights` — the two agree.
* `Heights.exists_at` — below a vertex all smaller heights occur.
-/
import Mathlib.Data.List.Chain
import Mathlib.Order.Lattice.Nat
import Topiary.Proofs.Dependency.Cycle

namespace Topiary

namespace DependencyGraph

variable {V κ α : Type}

/-- The vertex can close itself. -/
def canResolve [Vertex V κ] (g : DependencyGraph V κ α) (id : Nat) : Bool :=
  match g.slots[id]? with
  | none => false
  | some slot => Vertex.canResolve slot.vertex

/-! ## Graphs without cycles -/

variable {g : DependencyGraph V κ α}

/-- Without cycles all chains of dependencies end. -/
theorem Acyclic.grounded (h : g.Acyclic) (hg : g.InRange) (v : Nat) : g.Grounded v := by
  by_contra hv
  have hnext : ∀ v, ¬ g.Grounded v → ∃ u, g.DependsOn v u ∧ ¬ g.Grounded u := by
    intro v hv
    by_contra hnone
    push Not at hnone
    exact hv (.of_dependencies hnone)
  obtain ⟨u, hvu, hu⟩ := hnext v hv
  obtain ⟨w, hw⟩ := exists_cycle (p := fun v => v < g.size ∧ ¬ g.Grounded v) (fun _ h => h.1)
    (fun v ⟨_, hv⟩ => by
      obtain ⟨u, hvu, hu⟩ := hnext v hv
      exact ⟨u, hvu, hg v u hvu, hu⟩)
    ⟨v, hvu.lt, hv⟩
  exact h w (hw.lift id fun a b hab => hab.1)

/-- Without cycles a chain of dependencies is no longer than the graph is large. -/
theorem Acyclic.length_le (h : g.Acyclic) (hg : g.InRange) {v : Nat} {us : List Nat}
    (hchain : List.IsChain g.DependsOn (v :: us)) : us.length ≤ g.size := by
  have hpairs : (v :: us).Pairwise (Relation.TransGen g.DependsOn) :=
    List.isChain_iff_pairwise.1 (hchain.imp fun _ _ => .single)
  have hnodup : us.Nodup := by
    refine (List.pairwise_cons.1 hpairs).2.imp fun hab heq => ?_
    subst heq
    exact h _ hab
  have hrange : us ⊆ List.range g.size := by
    intro u hu
    have hvu := (List.pairwise_cons.1 hpairs).1 u hu
    obtain ⟨w, -, hwu⟩ := Relation.TransGen.tail'_iff.1 hvu
    exact List.mem_range.2 (hg w u hwu)
  simpa using (hnodup.subperm hrange).length_le

/-! ## Heights -/

/-- Of the chains of dependencies that end at a vertex, none has more than `k`
vertices apart from this one that do not close themselves, and one has as many. -/
structure HasHeight (g : DependencyGraph V κ α) (auto : Nat → Bool) (v k : Nat) : Prop where
  attained : ∃ us, List.IsChain g.DependsOn (v :: us) ∧ us.countP (fun u => !auto u) = k
  bound : ∀ us, List.IsChain g.DependsOn (v :: us) → us.countP (fun u => !auto u) ≤ k

variable {auto : Nat → Bool}

theorem HasHeight.unique {v k k' : Nat} (h : g.HasHeight auto v k) (h' : g.HasHeight auto v k') :
    k = k' := by
  obtain ⟨us, hus, rfl⟩ := h.attained
  obtain ⟨us', hus', rfl⟩ := h'.attained
  exact Nat.le_antisymm (h'.bound us hus) (h.bound us' hus')

/-- Without cycles every vertex has a height. -/
theorem exists_hasHeight (h : g.Acyclic) (hg : g.InRange) (auto : Nat → Bool) (v : Nat) :
    ∃ k, g.HasHeight auto v k := by
  let counts := {k | ∃ us, List.IsChain g.DependsOn (v :: us) ∧ us.countP (fun u => !auto u) = k}
  have hsome : counts.Nonempty := ⟨0, [], List.isChain_singleton v, rfl⟩
  have hbound : BddAbove counts := by
    refine ⟨g.size, ?_⟩
    rintro k ⟨us, hchain, rfl⟩
    exact Nat.le_trans List.countP_le_length (h.length_le hg hchain)
  exact ⟨sSup counts, Nat.sSup_mem hsome hbound, fun us hus => le_csSup hbound ⟨us, hus, rfl⟩⟩

/-- Heights, told by the dependencies of each vertex. -/
structure Heights (g : DependencyGraph V κ α) (auto : Nat → Bool) (height : Nat → Nat) :
    Prop where
  /-- A dependency that closes itself is no higher. -/
  le : ∀ {v u}, g.DependsOn v u → height u ≤ height v
  /-- Any other one is lower. -/
  lt : ∀ {v u}, g.DependsOn v u → auto u = false → height u < height v
  /-- And one dependency leaves no room. -/
  attained : ∀ {v k}, height v = k + 1 → ∃ u, g.DependsOn v u
    ∧ (auto u = true ∧ height u = k + 1 ∨ auto u = false ∧ height u = k)

theorem HasHeight.heights {height : Nat → Nat} (h : ∀ v, g.HasHeight auto v (height v)) :
    Heights g auto height := by
  -- a chain that ends at a dependency goes on to the vertex
  have hstep : ∀ {v u}, g.DependsOn v u →
      height u + [u].countP (fun u => !auto u) ≤ height v := by
    intro v u hvu
    obtain ⟨us, hus, hcount⟩ := (h u).attained
    rw [← hcount, Nat.add_comm, ← List.countP_append]
    exact (h v).bound _ (List.isChain_cons_cons.2 ⟨hvu, hus⟩)
  refine ⟨fun hvu => Nat.le_trans (Nat.le_add_right ..) (hstep hvu), fun hvu hu => ?_, ?_⟩
  · have hlt := hstep hvu
    simp only [List.countP_singleton, hu, Bool.not_false, if_true] at hlt
    omega
  · intro v k hk
    obtain ⟨us, hus, hcount⟩ := (h v).attained
    cases us with
    | nil => simp [hk] at hcount
    | cons u us =>
      rw [List.isChain_cons_cons] at hus
      have hle := (h u).bound us hus.2
      have hge := hstep hus.1
      rw [List.countP_cons] at hcount
      refine ⟨u, hus.1, ?_⟩
      cases hu : auto u with
      | true =>
        simp only [hu, Bool.not_true, Bool.false_eq_true, if_false, List.countP_cons,
          List.countP_nil] at hcount hge
        exact .inl ⟨rfl, by omega⟩
      | false =>
        simp only [hu, Bool.not_false, if_true, List.countP_cons, List.countP_nil] at hcount hge
        exact .inr ⟨rfl, by omega⟩

/-- Where a height occurs, every smaller one occurs at a vertex that does not close
itself. -/
theorem Heights.exists_at {height : Nat → Nat} (h : Heights g auto height) {v k : Nat}
    (hv : g.Grounded v) (hk : k < height v) :
    ∃ u, (∃ w, g.DependsOn w u) ∧ auto u = false ∧ height u = k := by
  induction hv with
  | intro v _ ih =>
    obtain ⟨j, hj⟩ := Nat.exists_eq_succ_of_ne_zero (Nat.ne_of_gt (Nat.zero_lt_of_lt hk))
    obtain ⟨u, hvu, hu | hu⟩ := h.attained hj
    · exact ih u hvu (by omega)
    · by_cases hkj : k = j
      · exact ⟨u, ⟨v, hvu⟩, hu.1, by omega⟩
      · exact ih u hvu (by omega)

end DependencyGraph

end Topiary
