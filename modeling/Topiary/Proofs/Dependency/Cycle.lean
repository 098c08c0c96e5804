/-
Topiary.Proofs.Dependency.Cycle — dependency cycles.

What a schedule can close is a matter of the dependency relation alone, which
closing vertices and firing actions leave as it is.

* `DependencyGraph.DependsOn`, `OnCycle`, `Blocked` — the relation, the
  vertices on cycles, and those that can reach one.
* `DependencyGraph.Built` — graphs made by the operations on graphs.
* `Built.inRange` — in such a graph all dependencies are vertices.
* `exists_cycle` — vertices that each depend on one of them have a cycle.
* `Grounded.not_blocked` — a vertex whose dependencies are grounded is not
  blocked.
-/
import Mathlib.Data.Fintype.EquivFin
import Topiary.Dependency.Schedule

namespace Topiary

namespace DependencyGraph

variable {V κ α : Type}

/-! ## The dependency relation -/

/-- The first vertex depends on the second one directly. -/
def DependsOn (g : DependencyGraph V κ α) (v u : Nat) : Prop :=
  ∃ slot, g.slots[v]? = some slot ∧ ∃ link ∈ slot.incoming, link.1 = u

/-- The vertex depends on itself through others. -/
def OnCycle (g : DependencyGraph V κ α) (v : Nat) : Prop :=
  Relation.TransGen g.DependsOn v v

/-- The vertex lies on a cycle or depends, directly or not, on one that does. -/
def Blocked (g : DependencyGraph V κ α) (v : Nat) : Prop :=
  ∃ u, Relation.ReflTransGen g.DependsOn v u ∧ g.OnCycle u

/-- No vertex depends on itself through others. -/
def Acyclic (g : DependencyGraph V κ α) : Prop := ∀ v, ¬ g.OnCycle v

/-- All dependencies are vertices of the graph. -/
def InRange (g : DependencyGraph V κ α) : Prop := ∀ v u, g.DependsOn v u → u < g.size

/-- A graph made by the operations on graphs. -/
inductive Built [Vertex V κ] [DecidableEq κ] [EdgeAction α V] : DependencyGraph V κ α → Prop
  | empty : Built .empty
  | add {g} (v : V) : Built g → Built (g.add v).1
  | depend {g g'} {sink source : Nat} {action : Option α} {id : Option Nat} :
    Built g → g.depend sink source action = .ok (g', id) → Built g'
  | remove {g g'} {sink source : Nat} {found : Bool} :
    Built g → g.remove sink source = .ok (g', found) → Built g'
  | modifyVertex {g} (id : Nat) (f : V → V) : Built g → Built (g.modifyVertex id f)
  | resolve {g g'} {id : Nat} : Built g → g.resolve id = .ok g' → Built g'

/-- Both graphs have the same dependencies at each vertex. -/
def SameLinks (g g' : DependencyGraph V κ α) : Prop :=
  g.slots.map Slot.incoming = g'.slots.map Slot.incoming

theorem SameLinks.size_eq {g g' : DependencyGraph V κ α} (h : SameLinks g g') :
    g.size = g'.size := by
  have hlen := congrArg List.length h
  rwa [List.length_map, List.length_map] at hlen

theorem dependsOn_iff (g : DependencyGraph V κ α) (v u : Nat) :
    g.DependsOn v u
      ↔ ∃ links, (g.slots.map Slot.incoming)[v]? = some links ∧ ∃ link ∈ links, link.1 = u := by
  simp only [DependsOn, List.getElem?_map, Option.map_eq_some_iff]
  constructor
  · rintro ⟨slot, hslot, hlink⟩
    exact ⟨_, ⟨slot, hslot, rfl⟩, hlink⟩
  · rintro ⟨_, ⟨slot, hslot, rfl⟩, hlink⟩
    exact ⟨slot, hslot, hlink⟩

theorem SameLinks.dependsOn_eq {g g' : DependencyGraph V κ α} (h : SameLinks g g') :
    g.DependsOn = g'.DependsOn := by
  funext v u
  rw [eq_iff_iff, dependsOn_iff, dependsOn_iff, h]

theorem SameLinks.inRange {g g' : DependencyGraph V κ α} (h : SameLinks g g')
    (hg : g.InRange) : g'.InRange := by
  intro v u hu
  rw [← h.dependsOn_eq] at hu
  exact h.size_eq ▸ hg v u hu

theorem DependsOn.lt {g : DependencyGraph V κ α} {v u : Nat} (h : g.DependsOn v u) :
    v < g.size := by
  obtain ⟨slot, hslot, -⟩ := h
  exact (List.getElem?_eq_some_iff.1 hslot).1

theorem OnCycle.lt {g : DependencyGraph V κ α} {v : Nat} (h : g.OnCycle v) : v < g.size := by
  obtain ⟨u, hvu, -⟩ := Relation.TransGen.head'_iff.1 h
  exact hvu.lt

/-! ## Operations that keep it -/

theorem sameLinks_modifySlot (g : DependencyGraph V κ α) (id : Nat)
    {f : Slot V κ → Slot V κ} (hf : ∀ slot, (f slot).incoming = slot.incoming) :
    SameLinks g (g.modifySlot id f) := by
  refine List.ext_getElem? fun i => ?_
  simp only [modifySlot, List.getElem?_map, List.getElem?_modify]
  cases g.slots[i]? with
  | none => rfl
  | some slot =>
    by_cases hi : id = i
    · simp [hi, hf]
    · simp [hi]

theorem sameLinks_modifyVertex (g : DependencyGraph V κ α) (id : Nat) (f : V → V) :
    SameLinks g (g.modifyVertex id f) :=
  sameLinks_modifySlot g id fun _ => rfl

theorem sameLinks_setAction (g : DependencyGraph V κ α) (id : Nat) (action : Option α) :
    SameLinks g (g.setAction id action) := by
  cases action <;> rfl

theorem sameLinks_fire [EdgeAction α V] (g : DependencyGraph V κ α) (id : Nat) :
    SameLinks g (g.fire id) := by
  unfold fire
  split
  · split
    · exact (sameLinks_modifyVertex g _ _).trans (sameLinks_setAction _ _ _)
    · rfl
  · rfl

/-- Resolving a vertex never fails and keeps all dependencies. -/
theorem resolve_of_lt [Vertex V κ] [EdgeAction α V] (g : DependencyGraph V κ α) {id : Nat}
    (h : id < g.size) : ∃ g', g.resolve id = .ok g' ∧ SameLinks g g' := by
  have hfold : ∀ (links : Links) (g : DependencyGraph V κ α),
      SameLinks g (links.foldl (fun g link => g.fire link.2) g) := by
    intro links
    induction links with
    | nil => exact fun _ => rfl
    | cons link links ih => exact fun g => (sameLinks_fire g link.2).trans (ih _)
  obtain ⟨slot, hget⟩ : ∃ slot, g.slots[id]? = some slot := ⟨_, List.getElem?_eq_getElem h⟩
  have hslot : g.slot id = .ok slot := by rw [DependencyGraph.slot, hget]
  refine ⟨_, by rw [resolve, hslot]; rfl, ?_⟩
  exact (sameLinks_modifyVertex g id Vertex.resolve).trans (hfold _ _)

/-! ## Built graphs -/

theorem inRange_modifySlot {g : DependencyGraph V κ α} (hg : g.InRange) (id : Nat)
    {f : Slot V κ → Slot V κ}
    (hf : ∀ slot, ∀ link ∈ (f slot).incoming, link ∈ slot.incoming ∨ link.1 < g.size) :
    (g.modifySlot id f).InRange := by
  have hsize : (g.modifySlot id f).size = g.size := List.length_modify ..
  rintro v u ⟨slot, hslot, link, hlink, rfl⟩
  rw [hsize]
  rw [modifySlot, List.getElem?_modify] at hslot
  cases hget : g.slots[v]? with
  | none => simp [hget] at hslot
  | some old =>
    rw [hget] at hslot
    by_cases hv : id = v
    · obtain rfl : f old = slot := by simpa [hv] using hslot
      rcases hf old link hlink with hold | hlt
      · exact hg v link.1 ⟨old, hget, link, hold, rfl⟩
      · exact hlt
    · obtain rfl : old = slot := by simpa [hv] using hslot
      exact hg v link.1 ⟨old, hget, link, hlink, rfl⟩

theorem mem_links_add {neighbour edge : Nat} {links : Links} {link : Nat × Nat}
    (h : link ∈ links.add neighbour edge) : link = (neighbour, edge) ∨ link ∈ links := by
  induction links with
  | nil => exact .inl (List.mem_singleton.1 h)
  | cons head links ih =>
    obtain ⟨n, e⟩ := head
    rw [Links.add] at h
    split at h
    · exact List.mem_cons.1 h
    · split at h
      · rcases List.mem_cons.1 h with h | h
        · exact .inl h
        · exact .inr (List.mem_cons_of_mem _ h)
      · rcases List.mem_cons.1 h with h | h
        · exact .inr (h ▸ List.mem_cons_self ..)
        · exact (ih h).imp_right (List.mem_cons_of_mem _)

theorem inRange_add [Vertex V κ] [DecidableEq κ] {g : DependencyGraph V κ α} (hg : g.InRange)
    (v : V) : (g.add v).1.InRange := by
  unfold add
  split
  · exact hg
  · rintro w u ⟨slot, hslot, link, hlink, rfl⟩
    rw [List.getElem?_append] at hslot
    split at hslot
    · have := hg w link.1 ⟨slot, hslot, link, hlink, rfl⟩
      simp only [size, List.length_append, List.length_singleton] at this ⊢
      omega
    · rw [List.getElem?_singleton] at hslot
      split at hslot
      · rw [← Option.some.inj hslot] at hlink
        exact absurd hlink List.not_mem_nil
      · exact absurd hslot (by simp)

theorem inRange_addEdge {g : DependencyGraph V κ α} (hg : g.InRange) {sink source : Nat}
    (hsource : source < g.size) (action : Option α) :
    (g.addEdge sink source action).InRange := by
  have hin : (g.modifySlot sink fun slot =>
      { slot with incoming := slot.incoming.add source g.edges.length }).InRange :=
    inRange_modifySlot hg sink fun slot link hlink => (mem_links_add hlink).elim
      (fun h => .inr (h ▸ hsource)) .inl
  exact inRange_modifySlot hin source fun _ _ h => .inl h

theorem inRange_depend {g g' : DependencyGraph V κ α} (hg : g.InRange) {sink source : Nat}
    {action : Option α} {id : Option Nat} (h : g.depend sink source action = .ok (g', id)) :
    g'.InRange := by
  unfold depend at h
  split at h
  · rename_i hlt
    split at h
    · cases h
      exact hg
    · split at h
      · cases h
        exact (sameLinks_setAction g _ action).inRange hg
      · cases h
        exact inRange_addEdge hg hlt.2 action
  · cases h

theorem inRange_remove {g g' : DependencyGraph V κ α} (hg : g.InRange) {sink source : Nat}
    {found : Bool} (h : g.remove sink source = .ok (g', found)) : g'.InRange := by
  have hdrop : (g.modifySlot sink fun slot =>
      { slot with incoming := slot.incoming.drop source }).InRange :=
    inRange_modifySlot hg sink fun _ _ hlink => .inl (List.mem_filter.1 hlink).1
  simp only [remove, bind, Except.bind] at h
  split at h
  · cases h
  · split at h
    · cases h
      exact hg
    · split at h
      · cases h
      · cases h
        exact inRange_modifySlot hdrop source fun _ _ hlink => .inl hlink

/-- The operations on graphs add no dependency on a missing vertex. -/
theorem Built.inRange [Vertex V κ] [DecidableEq κ] [EdgeAction α V] {g : DependencyGraph V κ α}
    (h : g.Built) : g.InRange := by
  induction h with
  | empty =>
    rintro v u ⟨slot, hslot, -⟩
    exact absurd hslot (by simp [DependencyGraph.empty])
  | add v _ ih => exact inRange_add ih v
  | depend _ hdepend ih => exact inRange_depend ih hdepend
  | remove _ hremove ih => exact inRange_remove ih hremove
  | modifyVertex id f _ ih => exact (sameLinks_modifyVertex _ id f).inRange ih
  | @resolve g g' id _ hresolve ih =>
    have hlt : id < g.size := by
      refine Decidable.byContradiction fun hge => ?_
      have hnone : g.slots[id]? = none := List.getElem?_eq_none (Nat.le_of_not_lt hge)
      rw [DependencyGraph.resolve, DependencyGraph.slot, hnone] at hresolve
      cases hresolve
    obtain ⟨g'', hg'', hlinks⟩ := resolve_of_lt g hlt
    rw [hresolve] at hg''
    cases hg''
    exact hlinks.inRange ih

/-! ## Cycles -/

/-- Among finitely many vertices that each depend on one of them there is a
cycle. -/
theorem exists_cycle {g : DependencyGraph V κ α} {p : Nat → Prop} {n : Nat}
    (hbound : ∀ v, p v → v < n) (hnext : ∀ v, p v → ∃ u, g.DependsOn v u ∧ p u)
    (hsome : ∃ v, p v) :
    ∃ v, Relation.TransGen (fun a b => g.DependsOn a b ∧ p a ∧ p b) v v := by
  by_contra hnone
  simp only [not_exists] at hnone
  -- without a cycle the relation is well-founded, so one of them has no next one
  let reaches : Fin n → Fin n → Prop := fun a b =>
    Relation.TransGen (fun a b => g.DependsOn a b ∧ p a ∧ p b) b a
  have htrans : IsTrans (Fin n) reaches := ⟨fun _ _ _ hab hbc => hbc.trans hab⟩
  have hirrefl : Std.Irrefl reaches := ⟨fun a ha => hnone a ha⟩
  have hwf : WellFounded reaches := Finite.wellFounded_of_trans_of_irrefl reaches
  have hall : ∀ x : Fin n, ¬ p x := by
    intro x
    induction x using hwf.induction with
    | _ x ih =>
      intro hx
      obtain ⟨u, hdep, hu⟩ := hnext x hx
      exact ih ⟨u, hbound u hu⟩ (.single ⟨hdep, hx, hu⟩) hu
  obtain ⟨v, hv⟩ := hsome
  exact hall ⟨v, hbound v hv⟩ hv

/-- All chains of dependencies that begin at the vertex end. -/
def Grounded (g : DependencyGraph V κ α) (v : Nat) : Prop :=
  Acc (fun u w => g.DependsOn w u) v

theorem Grounded.of_dependencies {g : DependencyGraph V κ α} {v : Nat}
    (h : ∀ u, g.DependsOn v u → g.Grounded u) : g.Grounded v :=
  Acc.intro v h

theorem Grounded.not_onCycle {g : DependencyGraph V κ α} {v : Nat} (h : g.Grounded v) :
    ¬ g.OnCycle v := by
  intro hcycle
  have hacc : Acc (Relation.TransGen fun u w => g.DependsOn w u) v := h.transGen
  have hloop : Relation.TransGen (fun u w => g.DependsOn w u) v v := Relation.transGen_swap.2 hcycle
  induction hacc with
  | intro v _ ih => exact ih v hloop (h.inv_of_transGen hloop) hcycle hloop

/-- From a grounded vertex no cycle can be reached. -/
theorem Grounded.not_blocked {g : DependencyGraph V κ α} {v : Nat} (h : g.Grounded v) :
    ¬ g.Blocked v := by
  rintro ⟨u, hreach, hcycle⟩
  induction hreach using Relation.ReflTransGen.head_induction_on with
  | refl => exact h.not_onCycle hcycle
  | head hstep _ ih => exact ih (h.inv hstep)

end DependencyGraph

end Topiary
