/-
Topiary.Proofs.Dependency.Consistent — what a graph says twice agrees.

An edge stands at its sink, at its source and in the list of edges.  The three
places agree in every graph that the operations build, and the neighbours of a
vertex are in ascending order, each once.

* `Links.Ascending` — links in order, kept by adding and dropping.
* `DependencyGraph.Joins` — the ends of an edge, whatever its action.
* `DependencyGraph.Consistent` — the three places agree.
* `Consistent.addEdge`, `Consistent.removeEdge` — the two changes of the edges.
* `Built.consistent` — graphs made by the operations on graphs.
-/
import Topiary.Proofs.Dependency.Cycle

namespace Topiary

/-! ## Links in ascending order -/

namespace Links

/-- The neighbours ascend, so each occurs once. -/
def Ascending (links : Links) : Prop := links.Pairwise fun a b => a.1 < b.1

theorem mem_add_iff {neighbour : Nat} (edge : Nat) {links : Links}
    (hnew : ∀ link ∈ links, link.1 ≠ neighbour) (link : Nat × Nat) :
    link ∈ links.add neighbour edge ↔ link = (neighbour, edge) ∨ link ∈ links := by
  induction links with
  | nil => simp [add]
  | cons head links ih =>
    obtain ⟨n, e⟩ := head
    have hne : n ≠ neighbour := hnew (n, e) (List.mem_cons_self ..)
    have ih := ih fun link hlink => hnew link (List.mem_cons_of_mem _ hlink)
    rw [add]
    split
    · simp only [List.mem_cons]
    · rw [if_neg (Ne.symm hne), List.mem_cons, ih, List.mem_cons, or_left_comm]

theorem Ascending.add {links : Links} (h : links.Ascending) (neighbour edge : Nat) :
    (links.add neighbour edge).Ascending := by
  induction links with
  | nil => exact List.pairwise_singleton ..
  | cons head links ih =>
    obtain ⟨n, e⟩ := head
    obtain ⟨hhead, htail⟩ := List.pairwise_cons.1 h
    rw [Links.add]
    split
    · next hlt =>
      refine List.pairwise_cons.2 ⟨fun link hlink => ?_, h⟩
      rcases List.mem_cons.1 hlink with rfl | hlink
      · exact hlt
      · exact Nat.lt_trans hlt (hhead link hlink)
    · split
      · next heq => exact List.pairwise_cons.2 ⟨fun link hlink => heq ▸ hhead link hlink, htail⟩
      · next hge hne =>
        refine List.pairwise_cons.2 ⟨fun link hlink => ?_, ih htail⟩
        rcases DependencyGraph.mem_links_add hlink with rfl | hlink
        · exact Nat.lt_of_le_of_ne (Nat.le_of_not_lt hge) (Ne.symm hne)
        · exact hhead link hlink

theorem mem_drop_iff (neighbour : Nat) (links : Links) (link : Nat × Nat) :
    link ∈ links.drop neighbour ↔ link ∈ links ∧ link.1 ≠ neighbour := by
  rw [drop, List.mem_filter, bne_iff_ne]

theorem Ascending.drop {links : Links} (h : links.Ascending) (neighbour : Nat) :
    (links.drop neighbour).Ascending :=
  List.Pairwise.filter _ h

/-- The edge to a neighbour is the one that stands beside it. -/
theorem Ascending.edge?_eq_some_iff {links : Links} (h : links.Ascending)
    (neighbour edge : Nat) : links.edge? neighbour = some edge ↔ (neighbour, edge) ∈ links := by
  induction links with
  | nil => simp [edge?]
  | cons head links ih =>
    obtain ⟨n, e⟩ := head
    obtain ⟨hhead, htail⟩ := List.pairwise_cons.1 h
    by_cases hn : neighbour = n
    · subst hn
      have hnot : (neighbour, edge) ∉ links := fun hmem => Nat.lt_irrefl _ (hhead (_, edge) hmem)
      simp [edge?, hnot, eq_comm]
    · have hne : (neighbour == n) = false := by simpa using hn
      rw [List.mem_cons, Prod.mk.injEq, ← ih htail]
      simp [edge?, List.lookup_cons, hn, hne]

end Links

namespace DependencyGraph

variable {V κ α : Type}

/-! ## The ends of an edge -/

/-- The edge with this number leads from the source to the sink. -/
def Joins (g : DependencyGraph V κ α) (id source sink : Nat) : Prop :=
  ∃ action, g.edge? id = some ⟨source, sink, action⟩

theorem Joins.unique {g : DependencyGraph V κ α} {id u v u' v' : Nat} (h : g.Joins id u v)
    (h' : g.Joins id u' v') : u = u' ∧ v = v' := by
  obtain ⟨a, ha⟩ := h
  obtain ⟨a', ha'⟩ := h'
  rw [ha, Option.some.injEq, Edge.mk.injEq] at ha'
  exact ⟨ha'.1, ha'.2.1⟩

theorem Joins.lt {g : DependencyGraph V κ α} {id u v : Nat} (h : g.Joins id u v) :
    id < g.edges.length := by
  obtain ⟨a, ha⟩ := h
  rw [edge?, Option.join_eq_some_iff] at ha
  exact (List.getElem?_eq_some_iff.1 ha).1

/-- What a graph says of its edges at their sinks, at their sources and in the list
of edges agrees. -/
structure Consistent (g : DependencyGraph V κ α) : Prop where
  incoming : ∀ {v slot}, g.slots[v]? = some slot → slot.incoming.Ascending
    ∧ ∀ u id, (u, id) ∈ slot.incoming ↔ g.Joins id u v
  outgoing : ∀ {u slot}, g.slots[u]? = some slot → slot.outgoing.Ascending
    ∧ ∀ v id, (v, id) ∈ slot.outgoing ↔ g.Joins id u v
  ends : ∀ {id u v}, g.Joins id u v → u < g.size ∧ v < g.size ∧ u ≠ v

theorem exists_slot {g : DependencyGraph V κ α} {v : Nat} (hv : v < g.size) :
    ∃ slot, g.slots[v]? = some slot :=
  ⟨_, List.getElem?_eq_getElem hv⟩

theorem slot_eq_ok {g : DependencyGraph V κ α} {v : Nat} {slot : Slot V κ}
    (h : g.slots[v]? = some slot) : g.slot v = .ok slot := by
  rw [DependencyGraph.slot, h]

/-- A pair of vertices has at most one edge. -/
theorem Consistent.joins_unique {g : DependencyGraph V κ α} (h : g.Consistent) {id id' u v : Nat}
    (hid : g.Joins id u v) (hid' : g.Joins id' u v) : id = id' := by
  obtain ⟨slot, hslot⟩ := exists_slot (h.ends hid).2.1
  obtain ⟨hasc, hmem⟩ := h.incoming hslot
  have hlink := (hasc.edge?_eq_some_iff u id).2 ((hmem u id).2 hid)
  rw [(hasc.edge?_eq_some_iff u id').2 ((hmem u id').2 hid'), Option.some.injEq] at hlink
  exact hlink.symm

/-- The edge that is found between two vertices is the one that joins them. -/
theorem Consistent.edgeBetween?_eq_some_iff {g : DependencyGraph V κ α} (h : g.Consistent)
    (sink source id : Nat) : g.edgeBetween? sink source = some id ↔ g.Joins id source sink := by
  rw [edgeBetween?]
  cases hslot : g.slots[sink]? with
  | none =>
    refine ⟨fun hnone => absurd hnone (by simp), fun hjoins => ?_⟩
    have hlt := (h.ends hjoins).2.1
    rw [List.getElem?_eq_none_iff] at hslot
    exact absurd hlt (Nat.not_lt.2 hslot)
  | some slot =>
    obtain ⟨hasc, hmem⟩ := h.incoming hslot
    exact (hasc.edge?_eq_some_iff source id).trans (hmem source id)

/-- What a vertex depends on are the sources of its incoming edges. -/
theorem Consistent.dependsOn_iff_joins {g : DependencyGraph V κ α} (h : g.Consistent) (v u : Nat) :
    g.DependsOn v u ↔ ∃ id, g.Joins id u v := by
  constructor
  · rintro ⟨slot, hslot, ⟨u, id⟩, hlink, rfl⟩
    exact ⟨id, ((h.incoming hslot).2 u id).1 hlink⟩
  · rintro ⟨id, hid⟩
    obtain ⟨slot, hslot⟩ := exists_slot (h.ends hid).2.1
    exact ⟨slot, hslot, (u, id), ((h.incoming hslot).2 u id).2 hid, rfl⟩

/-! ## Operations that keep the edges -/

/-- Both graphs have the same links at each vertex. -/
def SameBonds (g g' : DependencyGraph V κ α) : Prop :=
  g.slots.map (fun slot => (slot.incoming, slot.outgoing))
    = g'.slots.map fun slot => (slot.incoming, slot.outgoing)

theorem SameBonds.size_eq {g g' : DependencyGraph V κ α} (h : SameBonds g g') :
    g.size = g'.size := by
  have hlen := congrArg List.length h
  rwa [List.length_map, List.length_map] at hlen

theorem SameBonds.exists_slot {g g' : DependencyGraph V κ α} (h : SameBonds g g') {v : Nat}
    {slot' : Slot V κ} (hslot : g'.slots[v]? = some slot') : ∃ slot, g.slots[v]? = some slot
      ∧ slot.incoming = slot'.incoming ∧ slot.outgoing = slot'.outgoing := by
  have hget := congrArg (fun l => l[v]?) h
  simp only [List.getElem?_map, hslot, Option.map_some, Option.map_eq_some_iff,
    Prod.mk.injEq] at hget
  exact hget

theorem Consistent.congr {g g' : DependencyGraph V κ α} (h : g.Consistent)
    (hbonds : SameBonds g g') (hjoins : ∀ id u v, g'.Joins id u v ↔ g.Joins id u v) :
    g'.Consistent where
  incoming := by
    intro v slot' hslot'
    obtain ⟨slot, hslot, hin, -⟩ := hbonds.exists_slot hslot'
    simpa only [← hin, hjoins] using h.incoming hslot
  outgoing := by
    intro u slot' hslot'
    obtain ⟨slot, hslot, -, hout⟩ := hbonds.exists_slot hslot'
    simpa only [← hout, hjoins] using h.outgoing hslot
  ends := fun hid => hbonds.size_eq ▸ h.ends ((hjoins _ _ _).1 hid)

theorem slots_modifySlot (g : DependencyGraph V κ α) (id : Nat) (f : Slot V κ → Slot V κ)
    (v : Nat) : (g.modifySlot id f).slots[v]?
      = (g.slots[v]?).map fun slot => if id = v then f slot else slot :=
  List.getElem?_modify ..

/-- Changing slots one by one leaves alone what the changes leave alone. -/
theorem map_slots_eq {β : Type} {g g' : DependencyGraph V κ α} {f : Slot V κ → β}
    {change : Nat → Slot V κ → Slot V κ}
    (hslots : ∀ v, g'.slots[v]? = (g.slots[v]?).map (change v))
    (hf : ∀ v slot, f (change v slot) = f slot) : g'.slots.map f = g.slots.map f := by
  refine List.ext_getElem? fun v => ?_
  rw [List.getElem?_map, List.getElem?_map, hslots, Option.map_map]
  exact Option.map_congr fun slot _ => hf v slot

theorem sameBonds_modifyVertex (g : DependencyGraph V κ α) (id : Nat) (f : V → V) :
    SameBonds g (g.modifyVertex id f) := by
  refine (map_slots_eq (g.slots_modifySlot id _) fun v slot => ?_).symm
  by_cases hv : id = v
  · simp [hv]
  · simp [hv]

/-- A new action is seen at its edge only, and there only as the action. -/
theorem edge?_setAction (g : DependencyGraph V κ α) (id : Nat) (a : α) (id' : Nat) :
    (g.setAction id (some a)).edge? id'
      = (g.edge? id').map fun e => if id = id' then { e with action := some a } else e := by
  simp only [setAction, edge?, List.getElem?_modify]
  cases g.edges[id']? with
  | none => rfl
  | some e? =>
    by_cases hid : id = id'
    · cases e? <;> simp [hid]
    · cases e? <;> simp [hid]

theorem joins_setAction (g : DependencyGraph V κ α) (id : Nat) (action : Option α)
    (id' u v : Nat) : (g.setAction id action).Joins id' u v ↔ g.Joins id' u v := by
  cases action with
  | none => rfl
  | some a =>
    simp only [Joins, edge?_setAction, Option.map_eq_some_iff]
    constructor
    · rintro ⟨b, e, he, heq⟩
      refine ⟨e.action, ?_⟩
      rw [he]
      by_cases hid : id = id'
      · rw [if_pos hid, Edge.mk.injEq] at heq
        rw [← heq.1, ← heq.2.1]
      · rw [if_neg hid] at heq
        rw [heq]
    · rintro ⟨b, hb⟩
      by_cases hid : id = id'
      · exact ⟨some a, _, hb, by rw [if_pos hid]⟩
      · exact ⟨b, _, hb, by rw [if_neg hid]⟩

theorem sameBonds_setAction (g : DependencyGraph V κ α) (id : Nat) (action : Option α) :
    SameBonds g (g.setAction id action) := by
  cases action <;> rfl

theorem Consistent.setAction {g : DependencyGraph V κ α} (h : g.Consistent) (id : Nat)
    (action : Option α) : (g.setAction id action).Consistent :=
  h.congr (sameBonds_setAction g id action) (g.joins_setAction id action)

theorem Consistent.modifyVertex {g : DependencyGraph V κ α} (h : g.Consistent) (id : Nat)
    (f : V → V) : (g.modifyVertex id f).Consistent :=
  h.congr (sameBonds_modifyVertex g id f) fun _ _ _ => Iff.rfl

theorem Consistent.fire [EdgeAction α V] {g : DependencyGraph V κ α} (h : g.Consistent)
    (id : Nat) : (g.fire id).Consistent := by
  unfold DependencyGraph.fire
  split
  · split
    · exact (h.modifyVertex _ _).setAction _ _
    · exact h
  · exact h

theorem Consistent.resolve [Vertex V κ] [EdgeAction α V] {g g' : DependencyGraph V κ α}
    (h : g.Consistent) {id : Nat} (hresolve : g.resolve id = .ok g') : g'.Consistent := by
  have hfold : ∀ (links : Links) (g : DependencyGraph V κ α), g.Consistent →
      (links.foldl (fun g link => g.fire link.2) g).Consistent := by
    intro links
    induction links with
    | nil => exact fun _ hg => hg
    | cons link links ih => exact fun g hg => ih _ (hg.fire link.2)
  cases hslot : g.slots[id]? with
  | none =>
    rw [DependencyGraph.resolve, DependencyGraph.slot, hslot] at hresolve
    cases hresolve
  | some slot =>
    rw [DependencyGraph.resolve, DependencyGraph.slot, hslot] at hresolve
    rw [← Except.ok.inj hresolve]
    exact hfold _ _ (h.modifyVertex id Vertex.resolve)

/-! ## Operations that change the edges -/

theorem consistent_empty : (empty : DependencyGraph V κ α).Consistent where
  incoming := fun hslot => by simp [empty] at hslot
  outgoing := fun hslot => by simp [empty] at hslot
  ends := by
    rintro id u v ⟨a, ha⟩
    simp [edge?, empty] at ha

/-- A new vertex has no edges. -/
theorem Consistent.add [Vertex V κ] [DecidableEq κ] {g : DependencyGraph V κ α}
    (h : g.Consistent) (v : V) : (g.add v).1.Consistent := by
  unfold DependencyGraph.add
  split
  · exact h
  · -- the number of the new vertex is at no edge yet
    have hslots : ∀ {w slot}, (g.slots ++ [⟨v, Vertex.key v, [], []⟩])[w]? = some slot →
        g.slots[w]? = some slot
          ∨ w = g.size ∧ slot = ⟨v, Vertex.key v, [], []⟩ := by
      intro w slot hslot
      rcases Nat.lt_trichotomy w g.slots.length with hw | rfl | hw
      · rw [List.getElem?_append_left hw] at hslot
        exact .inl hslot
      · rw [List.getElem?_concat_length, Option.some.injEq] at hslot
        exact .inr ⟨rfl, hslot.symm⟩
      · rw [List.getElem?_eq_none (by simp; omega)] at hslot
        cases hslot
    constructor
    · intro w slot hslot
      rcases hslots hslot with hold | ⟨rfl, rfl⟩
      · exact h.incoming hold
      · refine ⟨List.Pairwise.nil, fun u id => ⟨fun hmem => absurd hmem List.not_mem_nil, ?_⟩⟩
        exact fun hid => absurd (h.ends hid).2.1 (Nat.lt_irrefl _)
    · intro w slot hslot
      rcases hslots hslot with hold | ⟨rfl, rfl⟩
      · exact h.outgoing hold
      · refine ⟨List.Pairwise.nil, fun u id => ⟨fun hmem => absurd hmem List.not_mem_nil, ?_⟩⟩
        exact fun hid => absurd (h.ends hid).1 (Nat.lt_irrefl _)
    · intro id u w hid
      obtain ⟨hu, hw, hne⟩ := h.ends hid
      simp only [size, List.length_append, List.length_singleton] at hu hw ⊢
      omega

theorem edge?_addEdge (g : DependencyGraph V κ α) (sink source : Nat) (action : Option α)
    (id : Nat) : (g.addEdge sink source action).edge? id
      = if id = g.edges.length then some ⟨source, sink, action⟩ else g.edge? id := by
  show ((g.edges ++ [some ⟨source, sink, action⟩])[id]?).join = _
  rcases Nat.lt_trichotomy id g.edges.length with hid | rfl | hid
  · rw [List.getElem?_append_left hid, if_neg (Nat.ne_of_lt hid), edge?]
  · rw [List.getElem?_concat_length, if_pos rfl, Option.join_some]
  · rw [List.getElem?_eq_none (by simp; omega), if_neg (Nat.ne_of_gt hid), edge?,
      List.getElem?_eq_none (Nat.le_of_lt hid)]

theorem joins_addEdge (g : DependencyGraph V κ α) (sink source : Nat) (action : Option α)
    (id u v : Nat) : (g.addEdge sink source action).Joins id u v
      ↔ (id = g.edges.length ∧ u = source ∧ v = sink) ∨ g.Joins id u v := by
  simp only [Joins, edge?_addEdge]
  by_cases hid : id = g.edges.length
  · have hnot : ¬ g.Joins id u v := fun h => Nat.lt_irrefl _ (hid ▸ h.lt)
    rw [Joins] at hnot
    rw [if_pos hid, or_iff_left hnot]
    simp only [Option.some.injEq, Edge.mk.injEq, hid, true_and]
    constructor
    · rintro ⟨a, rfl, rfl, -⟩
      exact ⟨rfl, rfl⟩
    · rintro ⟨rfl, rfl⟩
      exact ⟨action, rfl, rfl, rfl⟩
  · simp [hid]

theorem slots_addEdge (g : DependencyGraph V κ α) (sink source : Nat) (action : Option α)
    (v : Nat) : (g.addEdge sink source action).slots[v]? = (g.slots[v]?).map fun slot =>
      { slot with
        incoming := if sink = v then slot.incoming.add source g.edges.length else slot.incoming
        outgoing := if source = v then slot.outgoing.add sink g.edges.length
          else slot.outgoing } := by
  show ((g.modifySlot sink _).modifySlot source _).slots[v]? = _
  rw [slots_modifySlot, slots_modifySlot, Option.map_map]
  refine Option.map_congr fun slot _ => ?_
  by_cases hsink : sink = v
  · by_cases hsource : source = v <;> simp [hsink, hsource]
  · by_cases hsource : source = v <;> simp [hsink, hsource]

theorem Consistent.addEdge {g : DependencyGraph V κ α} (h : g.Consistent) {sink source : Nat}
    (hsink : sink < g.size) (hsource : source < g.size) (hne : sink ≠ source)
    (hnew : ∀ id, ¬ g.Joins id source sink) (action : Option α) :
    (g.addEdge sink source action).Consistent where
  incoming := by
    intro v slot' hslot'
    rw [slots_addEdge, Option.map_eq_some_iff] at hslot'
    obtain ⟨slot, hslot, rfl⟩ := hslot'
    obtain ⟨hasc, hmem⟩ := h.incoming hslot
    simp only [joins_addEdge]
    by_cases hv : sink = v
    · subst hv
      have hnot : ∀ link ∈ slot.incoming, link.1 ≠ source := by
        rintro ⟨u, id⟩ hlink rfl
        exact hnew id ((hmem _ id).1 hlink)
      refine ⟨by simpa using hasc.add source g.edges.length, fun u id => ?_⟩
      rw [if_pos rfl, Links.mem_add_iff _ hnot, hmem]
      simp [and_comm]
    · exact ⟨by simpa [hv] using hasc, fun u id => by simp [hv, hmem, Ne.symm hv]⟩
  outgoing := by
    intro u slot' hslot'
    rw [slots_addEdge, Option.map_eq_some_iff] at hslot'
    obtain ⟨slot, hslot, rfl⟩ := hslot'
    obtain ⟨hasc, hmem⟩ := h.outgoing hslot
    simp only [joins_addEdge]
    by_cases hu : source = u
    · subst hu
      have hnot : ∀ link ∈ slot.outgoing, link.1 ≠ sink := by
        rintro ⟨v, id⟩ hlink rfl
        exact hnew id ((hmem _ id).1 hlink)
      refine ⟨by simpa using hasc.add sink g.edges.length, fun v id => ?_⟩
      rw [if_pos rfl, Links.mem_add_iff _ hnot, hmem]
      simp [and_comm]
    · exact ⟨by simpa [hu] using hasc, fun v id => by simp [hu, hmem, Ne.symm hu]⟩
  ends := by
    intro id u v hid
    have hsize : (g.addEdge sink source action).size = g.size := by
      show (List.modify (List.modify g.slots _ _) _ _).length = _
      rw [List.length_modify, List.length_modify, size]
    rw [hsize]
    rcases (g.joins_addEdge sink source action id u v).1 hid with ⟨-, rfl, rfl⟩ | hid
    · exact ⟨hsource, hsink, Ne.symm hne⟩
    · exact h.ends hid

/-- The graph without an edge that led from the source to the sink. -/
def removeEdge (g : DependencyGraph V κ α) (sink source id : Nat) : DependencyGraph V κ α :=
  let g' := (g.modifySlot sink fun slot =>
    { slot with incoming := slot.incoming.drop source }).modifySlot source fun slot =>
      { slot with outgoing := slot.outgoing.drop sink }
  { g' with edges := g'.edges.set id none, edgeCount := g'.edgeCount - 1 }

/-- Between vertices of the graph, removing takes out the edge if there is one. -/
theorem Consistent.remove_eq {g : DependencyGraph V κ α} (h : g.Consistent) {sink source : Nat}
    (hsink : sink < g.size) (hsource : source < g.size) :
    (∃ id, g.Joins id source sink
        ∧ g.remove sink source = .ok (g.removeEdge sink source id, true))
      ∨ (∀ id, ¬ g.Joins id source sink) ∧ g.remove sink source = .ok (g, false) := by
  obtain ⟨slot, hslot⟩ := exists_slot hsink
  obtain ⟨hasc, hmem⟩ := h.incoming hslot
  have hget := slot_eq_ok hslot
  cases hedge : slot.incoming.edge? source with
  | none =>
    refine .inr ⟨fun id hid => ?_, by simp [remove, hget, hedge, bind, Except.bind]; rfl⟩
    rw [(hasc.edge?_eq_some_iff source id).2 ((hmem source id).2 hid)] at hedge
    cases hedge
  | some id =>
    have hid := (hmem source id).1 ((hasc.edge?_eq_some_iff source id).1 hedge)
    refine .inl ⟨id, hid, ?_⟩
    obtain ⟨other, hother⟩ : ∃ other, (g.modifySlot sink fun slot =>
        { slot with incoming := slot.incoming.drop source }).slots[source]? = some other := by
      obtain ⟨other, hother⟩ := exists_slot hsource
      exact ⟨_, by rw [slots_modifySlot, hother, Option.map_some]⟩
    simp only [remove, hget, hedge, bind, Except.bind, slot_eq_ok hother]
    rfl

theorem edge?_removeEdge (g : DependencyGraph V κ α) (sink source id id' : Nat) :
    (g.removeEdge sink source id).edge? id' = if id' = id then none else g.edge? id' := by
  show ((g.edges.set id none)[id']?).join = _
  rw [List.getElem?_set, edge?]
  by_cases hid : id = id'
  · subst hid
    by_cases hlt : id < g.edges.length
    · simp [hlt]
    · simp [hlt]
  · simp [hid, Ne.symm hid]

theorem joins_removeEdge (g : DependencyGraph V κ α) (sink source id id' u v : Nat) :
    (g.removeEdge sink source id).Joins id' u v ↔ id' ≠ id ∧ g.Joins id' u v := by
  simp only [Joins, edge?_removeEdge]
  by_cases hid : id' = id
  · simp [hid]
  · simp [hid]

theorem slots_removeEdge (g : DependencyGraph V κ α) (sink source id v : Nat) :
    (g.removeEdge sink source id).slots[v]? = (g.slots[v]?).map fun slot =>
      { slot with
        incoming := if sink = v then slot.incoming.drop source else slot.incoming
        outgoing := if source = v then slot.outgoing.drop sink else slot.outgoing } := by
  show ((g.modifySlot sink _).modifySlot source _).slots[v]? = _
  rw [slots_modifySlot, slots_modifySlot, Option.map_map]
  refine Option.map_congr fun slot _ => ?_
  by_cases hsink : sink = v
  · by_cases hsource : source = v <;> simp [hsink, hsource]
  · by_cases hsource : source = v <;> simp [hsink, hsource]

theorem Consistent.removeEdge {g : DependencyGraph V κ α} (h : g.Consistent)
    {sink source id : Nat} (hid : g.Joins id source sink) :
    (g.removeEdge sink source id).Consistent where
  incoming := by
    intro v slot' hslot'
    rw [slots_removeEdge, Option.map_eq_some_iff] at hslot'
    obtain ⟨slot, hslot, rfl⟩ := hslot'
    obtain ⟨hasc, hmem⟩ := h.incoming hslot
    simp only [joins_removeEdge]
    by_cases hv : sink = v
    · subst hv
      refine ⟨by simpa using hasc.drop source, fun u id' => ?_⟩
      rw [if_pos rfl, Links.mem_drop_iff, hmem, and_comm]
      refine and_congr_left fun hid' => not_congr ⟨?_, ?_⟩
      · rintro rfl
        exact h.joins_unique hid' hid
      · rintro rfl
        exact (hid'.unique hid).1
    · refine ⟨by simpa [hv] using hasc, fun u id' => ?_⟩
      rw [if_neg hv, hmem, iff_and_self]
      rintro hid' rfl
      exact hv (hid.unique hid').2
  outgoing := by
    intro u slot' hslot'
    rw [slots_removeEdge, Option.map_eq_some_iff] at hslot'
    obtain ⟨slot, hslot, rfl⟩ := hslot'
    obtain ⟨hasc, hmem⟩ := h.outgoing hslot
    simp only [joins_removeEdge]
    by_cases hu : source = u
    · subst hu
      refine ⟨by simpa using hasc.drop sink, fun v id' => ?_⟩
      rw [if_pos rfl, Links.mem_drop_iff, hmem, and_comm]
      refine and_congr_left fun hid' => not_congr ⟨?_, ?_⟩
      · rintro rfl
        exact h.joins_unique hid' hid
      · rintro rfl
        exact (hid'.unique hid).2
    · refine ⟨by simpa [hu] using hasc, fun v id' => ?_⟩
      rw [if_neg hu, hmem, iff_and_self]
      rintro hid' rfl
      exact hu (hid.unique hid').1
  ends := by
    intro id' u v hid'
    have hsize : (g.removeEdge sink source id).size = g.size := by
      show (List.modify (List.modify g.slots _ _) _ _).length = _
      rw [List.length_modify, List.length_modify, size]
    rw [hsize]
    exact h.ends ((g.joins_removeEdge sink source id id' u v).1 hid').2

/-- All that adding a dependency between two vertices of the graph can do. -/
theorem Consistent.depend_cases {g : DependencyGraph V κ α} (h : g.Consistent)
    {sink source : Nat} (hsink : sink < g.size) (hsource : source < g.size) (action : Option α) :
    (sink = source ∧ g.depend sink source action = .ok (g, none))
      ∨ (∃ id, g.Joins id source sink
        ∧ g.depend sink source action = .ok (g.setAction id action, some id))
      ∨ sink ≠ source ∧ (∀ id, ¬ g.Joins id source sink)
        ∧ g.depend sink source action
          = .ok (g.addEdge sink source action, some g.edges.length) := by
  rw [DependencyGraph.depend, if_pos ⟨hsink, hsource⟩]
  by_cases hne : sink = source
  · exact .inl ⟨hne, by rw [if_pos hne]⟩
  · rw [if_neg hne]
    cases hedge : g.edgeBetween? sink source with
    | some id => exact .inr (.inl ⟨id, (h.edgeBetween?_eq_some_iff sink source id).1 hedge, rfl⟩)
    | none =>
      refine .inr (.inr ⟨hne, fun id hid => ?_, rfl⟩)
      rw [(h.edgeBetween?_eq_some_iff sink source id).2 hid] at hedge
      cases hedge

theorem Consistent.depend {g g' : DependencyGraph V κ α} (h : g.Consistent) {sink source : Nat}
    {action : Option α} {id : Option Nat} (hdepend : g.depend sink source action = .ok (g', id)) :
    g'.Consistent := by
  by_cases hlt : sink < g.size ∧ source < g.size
  · rcases h.depend_cases hlt.1 hlt.2 action with ⟨-, heq⟩ | ⟨id', -, heq⟩ | ⟨hne, hnew, heq⟩
    · rw [hdepend, Except.ok.injEq, Prod.mk.injEq] at heq
      exact heq.1 ▸ h
    · rw [hdepend, Except.ok.injEq, Prod.mk.injEq] at heq
      exact heq.1 ▸ h.setAction id' action
    · rw [hdepend, Except.ok.injEq, Prod.mk.injEq] at heq
      exact heq.1 ▸ h.addEdge hlt.1 hlt.2 hne hnew action
  · rw [DependencyGraph.depend, if_neg hlt] at hdepend
    cases hdepend

/-- Also a removal that succeeds although a number is foreign leaves a consistent
graph. -/
theorem Consistent.remove {g g' : DependencyGraph V κ α} (h : g.Consistent) {sink source : Nat}
    {found : Bool} (hremove : g.remove sink source = .ok (g', found)) : g'.Consistent := by
  have hsink : sink < g.size := by
    refine Decidable.byContradiction fun hge => ?_
    have hnone : g.slots[sink]? = none := List.getElem?_eq_none (Nat.le_of_not_lt hge)
    rw [DependencyGraph.remove, DependencyGraph.slot, hnone] at hremove
    cases hremove
  by_cases hsource : source < g.size
  · rcases h.remove_eq hsink hsource with ⟨id, hid, heq⟩ | ⟨-, heq⟩
    · rw [hremove, Except.ok.injEq, Prod.mk.injEq] at heq
      exact heq.1 ▸ h.removeEdge hid
    · rw [hremove, Except.ok.injEq, Prod.mk.injEq] at heq
      exact heq.1 ▸ h
  · -- a foreign vertex is the source of nothing
    obtain ⟨slot, hslot⟩ := exists_slot hsink
    obtain ⟨hasc, hmem⟩ := h.incoming hslot
    have hget := slot_eq_ok hslot
    cases hedge : slot.incoming.edge? source with
    | none =>
      simp only [DependencyGraph.remove, hget, hedge, bind, Except.bind] at hremove
      rw [← (Prod.mk.inj (Except.ok.inj hremove)).1]
      exact h
    | some id =>
      exact absurd (h.ends ((hmem source id).1 ((hasc.edge?_eq_some_iff source id).1 hedge))).1
        hsource

/-- The operations on graphs keep them consistent. -/
theorem Built.consistent [Vertex V κ] [DecidableEq κ] [EdgeAction α V]
    {g : DependencyGraph V κ α} (h : g.Built) : g.Consistent := by
  induction h with
  | empty => exact consistent_empty
  | add v _ ih => exact ih.add v
  | depend _ hdepend ih => exact ih.depend hdepend
  | remove _ hremove ih => exact ih.remove hremove
  | modifyVertex id f _ ih => exact ih.modifyVertex id f
  | resolve _ hresolve ih => exact ih.resolve hresolve

end DependencyGraph

end Topiary
