/-
Topiary.Proofs.Dependency.Storage — a graph stores its outline.

Whatever calls are made, a graph answers as its outline does and looks like it.

* `Represents` — the graph stores the outline; kept by each operation.
* `Agrees` — everything that can be seen of a graph can be read off the outline.
* `Represents.performAll` — whole sequences of calls.
* `performAll_agrees` — what a graph shows, and that a number of an edge which is
  gone is gone for good.
-/
import Topiary.Proofs.Dependency.Consistent
import Topiary.Proofs.Dependency.Outline

namespace Topiary

/-! ## Graphs that store an outline -/

namespace DependencyGraph

variable {V κ α : Type} [Vertex V κ]

/-- The graph stores the outline. -/
structure Represents (g : DependencyGraph V κ α) (m : Outline V α) : Prop where
  consistent : g.Consistent
  vertices : g.vertices = m.vertices
  keys : g.slots.map Slot.key = m.vertices.map Vertex.key
  distinct : (m.vertices.map Vertex.key).Nodup
  joins : ∀ id u v, g.Joins id u v ↔ (v, u) ∈ m.pairs ∧ m.number (v, u) = id
  action : ∀ {id e}, g.edge? id = some e → e.action = m.action (e.sink, e.source)
  edgeCount : g.edgeCount = m.pairs.card
  issued : g.edges.length = m.issued

theorem represents_empty : Represents (empty : DependencyGraph V κ α) .empty where
  consistent := consistent_empty
  vertices := rfl
  keys := rfl
  distinct := List.nodup_nil
  joins := by simp [Joins, edge?, empty, Outline.empty]
  action := by simp [edge?, empty]
  edgeCount := rfl
  issued := rfl

section

variable {g : DependencyGraph V κ α} {m : Outline V α}

theorem Represents.size_eq (h : g.Represents m) : g.size = m.vertices.length := by
  rw [← h.vertices, DependencyGraph.vertices, List.length_map, size]

theorem Represents.number_lt (h : g.Represents m) : ∀ p ∈ m.pairs, m.number p < m.issued :=
  fun p hp => h.issued ▸ ((h.joins _ p.2 p.1).2 ⟨hp, rfl⟩).lt

theorem Represents.not_joins_iff (h : g.Represents m) (u v : Nat) :
    (∀ id, ¬ g.Joins id u v) ↔ (v, u) ∉ m.pairs := by
  simp only [h.joins]
  exact ⟨fun hnone hmem => hnone _ ⟨hmem, rfl⟩, fun hnot id hid => hnot hid.1⟩

theorem Represents.idOf?_eq [DecidableEq κ] (h : g.Represents m) (key : κ) :
    g.idOf? key = m.idOf? key := by
  have hgraph : g.idOf? key = (g.slots.map Slot.key).findIdx? fun k => k = key := by
    rw [List.findIdx?_map]
    rfl
  rw [hgraph, h.keys, List.findIdx?_map]
  rfl

/-! ### The operations -/

theorem Represents.add [DecidableEq κ] (h : g.Represents m) (v : V) :
    (g.add v).2 = (m.add v).2 ∧ (g.add v).1.Represents (m.add v).1 := by
  have hcons := h.consistent.add v
  unfold DependencyGraph.add Outline.add at *
  rw [h.idOf?_eq] at hcons ⊢
  cases hid : m.idOf? (Vertex.key v) with
  | some id => exact ⟨rfl, h⟩
  | none =>
    have hnew : Vertex.key v ∉ m.vertices.map Vertex.key := by
      rw [Outline.idOf?, List.findIdx?_eq_none_iff] at hid
      rw [List.mem_map]
      rintro ⟨w, hw, hkey⟩
      simpa [hkey] using hid w hw
    rw [hid] at hcons
    refine ⟨h.size_eq, hcons, ?_, ?_, ?_, h.joins, h.action, h.edgeCount, h.issued⟩
    · rw [← h.vertices]
      exact List.map_append ..
    · rw [List.map_append, List.map_append, h.keys]
      rfl
    · rw [List.map_append]
      refine List.nodup_append.2 ⟨h.distinct, List.nodup_singleton _, ?_⟩
      rintro key hkey _ hnewkey rfl
      exact hnew (List.mem_singleton.1 hnewkey ▸ hkey)

theorem Represents.setAction (h : g.Represents m) {id u v : Nat} (hid : g.Joins id u v)
    (action : Option α) : (g.setAction id action).Represents (m.withAction (v, u) action) := by
  have hcons := h.consistent.setAction id action
  cases action with
  | none => exact h
  | some a =>
    refine ⟨hcons, h.vertices, h.keys, h.distinct, fun id' u' v' => ?_, fun {id' e} he => ?_,
      h.edgeCount, (List.length_modify ..).trans h.issued⟩
    · rw [joins_setAction]
      exact h.joins id' u' v'
    · rw [edge?_setAction, Option.map_eq_some_iff] at he
      obtain ⟨e₀, he₀, rfl⟩ := he
      have hold : g.Joins id' e₀.source e₀.sink := ⟨e₀.action, he₀⟩
      show _ = Function.update m.action (v, u) (some a) _
      by_cases hsame : id = id'
      · subst hsame
        obtain ⟨rfl, rfl⟩ := hold.unique hid
        simp
      · have hne : (e₀.sink, e₀.source) ≠ (v, u) := by
          intro hp
          obtain ⟨rfl, rfl⟩ := Prod.mk.inj hp
          exact hsame (h.consistent.joins_unique hid hold)
        rw [if_neg hsame, Function.update_of_ne hne]
        exact h.action he₀

theorem Represents.addEdge (h : g.Represents m) {sink source : Nat} (hsink : sink < g.size)
    (hsource : source < g.size) (hne : sink ≠ source) (hnew : (sink, source) ∉ m.pairs)
    (action : Option α) :
    (g.addEdge sink source action).Represents (m.withPair (sink, source) action) where
  consistent := h.consistent.addEdge hsink hsource hne ((h.not_joins_iff _ _).2 hnew) action
  vertices := (map_slots_eq (g.slots_addEdge sink source action) fun _ _ => rfl).trans h.vertices
  keys := (map_slots_eq (g.slots_addEdge sink source action) fun _ _ => rfl).trans h.keys
  distinct := h.distinct
  joins := by
    intro id u v
    show _ ↔ (v, u) ∈ insert (sink, source) m.pairs
      ∧ Function.update m.number (sink, source) m.issued (v, u) = id
    rw [joins_addEdge, h.joins, h.issued]
    by_cases hp : (v, u) = (sink, source)
    · obtain ⟨rfl, rfl⟩ := Prod.mk.inj hp
      simp [hnew, eq_comm]
    · have hnot : ¬ (u = source ∧ v = sink) := fun heq => hp (by rw [heq.1, heq.2])
      simp [hp, hnot]
  action := by
    intro id e he
    show e.action = Function.update m.action (sink, source) action _
    rw [edge?_addEdge] at he
    split at he
    · obtain rfl := Option.some.inj he
      rw [Function.update_self]
    · have hold : (e.sink, e.source) ∈ m.pairs := ((h.joins _ _ _).1 ⟨e.action, he⟩).1
      have hne : (e.sink, e.source) ≠ (sink, source) := fun hp => hnew (hp ▸ hold)
      rw [Function.update_of_ne hne]
      exact h.action he
  edgeCount := by
    show g.edgeCount + 1 = (insert (sink, source) m.pairs).card
    rw [Finset.card_insert_of_notMem hnew, h.edgeCount]
  issued := by
    show (g.edges ++ [_]).length = m.issued + 1
    rw [List.length_append, h.issued, List.length_singleton]

theorem Represents.removeEdge (h : g.Represents m) {id u v : Nat} (hid : g.Joins id u v) :
    (g.removeEdge v u id).Represents (m.remove v u).1 where
  consistent := h.consistent.removeEdge hid
  vertices := (map_slots_eq (g.slots_removeEdge v u id) fun _ _ => rfl).trans h.vertices
  keys := (map_slots_eq (g.slots_removeEdge v u id) fun _ _ => rfl).trans h.keys
  distinct := h.distinct
  joins := by
    intro id' u' v'
    show _ ↔ (v', u') ∈ m.pairs.erase (v, u) ∧ m.number (v', u') = id'
    rw [joins_removeEdge, h.joins, Finset.mem_erase, and_assoc]
    refine and_congr_left fun hid' => not_congr ?_
    have hjoins := (h.joins id' u' v').2 hid'
    constructor
    · rintro rfl
      obtain ⟨rfl, rfl⟩ := hid.unique hjoins
      rfl
    · intro hp
      obtain ⟨rfl, rfl⟩ := Prod.mk.inj hp
      exact h.consistent.joins_unique hjoins hid
  action := by
    intro id' e he
    rw [edge?_removeEdge] at he
    split at he
    · cases he
    · exact h.action he
  edgeCount := by
    show g.edgeCount - 1 = (m.pairs.erase (v, u)).card
    rw [Finset.card_erase_of_mem ((h.joins id u v).1 hid).1, h.edgeCount]
  issued := (List.length_set ..).trans h.issued

theorem Represents.depend (h : g.Represents m) {sink source : Nat} (hsink : sink < g.size)
    (hsource : source < g.size) (action : Option α) :
    ∃ g', g.depend sink source action = .ok (g', (m.depend sink source action).2)
      ∧ g'.Represents (m.depend sink source action).1 := by
  unfold Outline.depend
  rcases h.consistent.depend_cases hsink hsource action with
    ⟨heq, hdepend⟩ | ⟨id, hid, hdepend⟩ | ⟨hne, hnew, hdepend⟩
  · rw [if_pos heq]
    exact ⟨g, hdepend, h⟩
  · obtain ⟨hmem, hnumber⟩ := (h.joins id source sink).1 hid
    have hne : sink ≠ source := Ne.symm (h.consistent.ends hid).2.2
    rw [if_neg hne, if_pos hmem, hnumber]
    exact ⟨_, hdepend, h.setAction hid action⟩
  · rw [h.not_joins_iff] at hnew
    rw [if_neg hne, if_neg hnew, ← h.issued]
    exact ⟨_, hdepend, h.addEdge hsink hsource hne hnew action⟩

theorem Represents.remove (h : g.Represents m) {sink source : Nat} (hsink : sink < g.size)
    (hsource : source < g.size) :
    ∃ g', g.remove sink source = .ok (g', (m.remove sink source).2)
      ∧ g'.Represents (m.remove sink source).1 := by
  rcases h.consistent.remove_eq hsink hsource with ⟨id, hid, hremove⟩ | ⟨hnone, hremove⟩
  · have hmem := ((h.joins id source sink).1 hid).1
    refine ⟨_, ?_, h.removeEdge hid⟩
    rw [hremove, Outline.remove, decide_eq_true hmem]
  · rw [h.not_joins_iff] at hnone
    have hsame : (m.remove sink source).1 = m := by
      rw [Outline.remove, Finset.erase_eq_of_notMem hnone]
    refine ⟨g, ?_, hsame.symm ▸ h⟩
    rw [hremove, Outline.remove, decide_eq_false hnone]

/-! ## Calls -/

/-- Make a call that changes a graph. -/
def perform [DecidableEq κ] (g : DependencyGraph V κ α) :
    GraphCall V α → Except Fault (DependencyGraph V κ α × GraphReply)
  | .add v => .ok ((g.add v).1, .vertex (g.add v).2)
  | .addDependency sink source action =>
    (g.addDependency sink source action).map fun r => (r.1, .edge r.2)
  | .depend sink source action => (g.depend sink source action).map fun r => (r.1, .edge r.2)
  | .remove sink source => (g.remove sink source).map fun r => (r.1, .removed r.2)

/-- Make calls in order up to the first fault. -/
def performAll [DecidableEq κ] : DependencyGraph V κ α → List (GraphCall V α) →
    Except Fault (DependencyGraph V κ α × List GraphReply)
  | g, [] => .ok (g, [])
  | g, call :: calls => do
    let (g, reply) ← g.perform call
    let (g, replies) ← performAll g calls
    return (g, reply :: replies)

/-- A graph answers as its outline does, and a number of an edge in the answer was
given out. -/
theorem Represents.perform [DecidableEq κ] (h : g.Represents m) {call : GraphCall V α}
    (hcall : m.Admits call) : ∃ g', g.perform call = .ok (g', (m.perform call).2)
      ∧ g'.Represents (m.perform call).1
      ∧ ∀ id, (m.perform call).2 = .edge (some id) → id < (m.perform call).1.issued := by
  cases call with
  | add v =>
    obtain ⟨hid, hadd⟩ := h.add v
    refine ⟨_, by rw [DependencyGraph.perform, hid]; rfl, hadd, fun id heq => ?_⟩
    cases heq
  | addDependency sink source action =>
    obtain ⟨hsink, hadd⟩ := h.add sink
    obtain ⟨hsource, hadd'⟩ := hadd.add source
    have hlt := Nat.lt_of_lt_of_le (m.lt_length_add sink) ((m.add sink).1.length_le_add source)
    have hlt' := (m.add sink).1.lt_length_add source
    rw [← hadd'.size_eq] at hlt hlt'
    obtain ⟨g', hdepend, hrep⟩ := hadd'.depend hlt hlt' action
    have hboth : g.addDependency sink source action
        = ((g.add sink).1.add source).1.depend (g.add sink).2 ((g.add sink).1.add source).2
            action := rfl
    rw [hsink, hsource, hdepend] at hboth
    refine ⟨g', by rw [DependencyGraph.perform, hboth]; rfl, hrep, fun id heq => ?_⟩
    exact Outline.lt_issued_of_depend hadd'.number_lt (GraphReply.edge.inj heq)
  | depend sink source action =>
    rw [Outline.Admits, ← h.size_eq] at hcall
    obtain ⟨g', hdepend, hrep⟩ := h.depend hcall.1 hcall.2 action
    refine ⟨g', by rw [DependencyGraph.perform, hdepend]; rfl, hrep, fun id heq => ?_⟩
    exact Outline.lt_issued_of_depend h.number_lt (GraphReply.edge.inj heq)
  | remove sink source =>
    rw [Outline.Admits, ← h.size_eq] at hcall
    obtain ⟨g', hremove, hrep⟩ := h.remove hcall.1 hcall.2
    refine ⟨g', by rw [DependencyGraph.perform, hremove]; rfl, hrep, fun id heq => ?_⟩
    cases heq

theorem Represents.performAll [DecidableEq κ] {calls : List (GraphCall V α)} :
    ∀ {g : DependencyGraph V κ α} {m : Outline V α}, g.Represents m → m.AdmitsAll calls →
    ∃ g', g.performAll calls = .ok (g', (m.performAll calls).2)
      ∧ g'.Represents (m.performAll calls).1 ∧ m.issued ≤ (m.performAll calls).1.issued
      ∧ ∀ id, .edge (some id) ∈ (m.performAll calls).2 → id < (m.performAll calls).1.issued := by
  induction calls with
  | nil => exact fun {g m} h _ => ⟨g, rfl, h, Nat.le_refl _, by simp [Outline.performAll]⟩
  | cons call calls ih =>
    intro g m h hcalls
    obtain ⟨g₁, hcall, hrep, hgiven⟩ := h.perform hcalls.1
    obtain ⟨g₂, hrest, hrep', hle, hgiven'⟩ := ih hrep hcalls.2
    refine ⟨g₂, ?_, hrep', Nat.le_trans (m.issued_perform call) hle, fun id hid => ?_⟩
    · simp only [DependencyGraph.performAll, hcall, hrest, bind, Except.bind]
      rfl
    · rcases List.mem_cons.1 hid with heq | hid
      · exact Nat.lt_of_lt_of_le (hgiven id heq.symm) hle
      · exact hgiven' id hid

/-! ## What can be seen -/

/-- All that can be seen of a graph can be read off the outline. -/
structure Agrees [DecidableEq κ] (g : DependencyGraph V κ α) (m : Outline V α) : Prop where
  vertices : g.vertices = m.vertices
  distinct : (m.vertices.map Vertex.key).Nodup
  size : g.size = m.vertices.length
  idOf? : ∀ key, g.idOf? key = m.idOf? key
  get? : ∀ key, g.get? key = m.vertices.find? fun v => Vertex.key v = key
  pairs : ∀ p ∈ m.pairs, p.1 < g.size ∧ p.2 < g.size ∧ p.1 ≠ p.2
  dependencies : ∀ v < g.size, g.dependencies v = .ok (m.dependencies v)
  dependents : ∀ u < g.size, g.dependents u = .ok (m.dependents u)
  indegree : ∀ v < g.size, g.indegree v = .ok (m.pairs.filter (·.1 = v)).card
  outdegree : ∀ u < g.size, g.outdegree u = .ok (m.pairs.filter (·.2 = u)).card
  edgeCount : g.edgeCount = m.pairs.card
  edge? : ∀ id e, g.edge? id = some e ↔ (e.sink, e.source) ∈ m.pairs
    ∧ m.number (e.sink, e.source) = id ∧ m.action (e.sink, e.source) = e.action

omit [Vertex V κ] in
/-- The neighbours of a vertex with ascending links are what they are as a set, in
order, and each link counts for one. -/
theorem ascending_links {links : Links} (hasc : links.Ascending) {s : Finset (Nat × Nat)}
    {f : Nat × Nat → Nat} (hf : Set.InjOn f s) (hmem : ∀ u, (∃ id, (u, id) ∈ links) ↔ u ∈ s.image f) :
    links.map Prod.fst = (s.image f).sort (· ≤ ·) ∧ links.length = s.card := by
  have hsorted : (links.map Prod.fst).Pairwise (· < ·) := List.pairwise_map.2 hasc
  have hset : (links.map Prod.fst).toFinset = s.image f := by
    ext u
    rw [List.mem_toFinset, ← hmem, List.mem_map]
    constructor
    · rintro ⟨⟨_, id⟩, hlink, rfl⟩
      exact ⟨id, hlink⟩
    · rintro ⟨id, hlink⟩
      exact ⟨(u, id), hlink, rfl⟩
  have hnodup : (links.map Prod.fst).Nodup := hsorted.imp Nat.ne_of_lt
  constructor
  · rw [← hset]
    exact ((List.toFinset_sort _ hnodup).2 (hsorted.imp Nat.le_of_lt)).symm
  · rw [← Finset.card_image_of_injOn hf, ← hset, List.toFinset_card_of_nodup hnodup,
      List.length_map]

theorem Represents.incoming (h : g.Represents m) {v : Nat} {slot : Slot V κ}
    (hslot : g.slots[v]? = some slot) : slot.incoming.map Prod.fst = m.dependencies v
      ∧ slot.incoming.length = (m.pairs.filter (·.1 = v)).card := by
  obtain ⟨hasc, hlinks⟩ := h.consistent.incoming hslot
  refine ascending_links hasc (fun p hp q hq heq => ?_) fun u => ?_
  · have hfst : p.1 = q.1 := by
      rw [(Finset.mem_filter.1 hp).2, (Finset.mem_filter.1 hq).2]
    exact Prod.ext hfst heq
  · simp [hlinks, h.joins]

theorem Represents.outgoing (h : g.Represents m) {u : Nat} {slot : Slot V κ}
    (hslot : g.slots[u]? = some slot) : slot.outgoing.map Prod.fst = m.dependents u
      ∧ slot.outgoing.length = (m.pairs.filter (·.2 = u)).card := by
  obtain ⟨hasc, hlinks⟩ := h.consistent.outgoing hslot
  refine ascending_links hasc (fun p hp q hq heq => ?_) fun v => ?_
  · have hsnd : p.2 = q.2 := by
      rw [(Finset.mem_filter.1 hp).2, (Finset.mem_filter.1 hq).2]
    exact Prod.ext heq hsnd
  · simp [hlinks, h.joins]

/-- The first vertex with a key is the one that is found at the place of the key. -/
theorem Represents.get?_eq [DecidableEq κ] (h : g.Represents m) (key : κ) :
    g.get? key = m.vertices.find? fun v => Vertex.key v = key := by
  have hvertex : ∀ id : Nat, m.vertices[id]? = (g.slots[id]?).map Slot.vertex := by
    intro id
    rw [← h.vertices, DependencyGraph.vertices, List.getElem?_map]
  rw [get?, h.idOf?_eq]
  cases hid : m.idOf? key with
  | none =>
    rw [Outline.idOf?, List.findIdx?_eq_none_iff] at hid
    exact (List.find?_eq_none.2 fun v hv => by simpa using hid v hv).symm
  | some id =>
    obtain ⟨hlt, hkey, hfirst⟩ := List.findIdx?_eq_some_iff_getElem.1 hid
    have hget := hvertex id
    rw [List.getElem?_eq_getElem hlt] at hget
    obtain ⟨slot, hslot, hslotvertex⟩ := Option.map_eq_some_iff.1 hget.symm
    have hfound : m.vertices.find? (fun v => Vertex.key v = key) = some m.vertices[id] :=
      List.find?_eq_some_iff_getElem.2 ⟨hkey, id, hlt, rfl, fun j hj => by
        simpa using hfirst j hj⟩
    rw [hfound, ← hslotvertex]
    simp [hslot]

theorem Represents.agrees [DecidableEq κ] (h : g.Represents m) : g.Agrees m where
  vertices := h.vertices
  distinct := h.distinct
  size := h.size_eq
  idOf? := h.idOf?_eq
  get? := h.get?_eq
  pairs := fun p hp =>
    have hends := h.consistent.ends ((h.joins _ p.2 p.1).2 ⟨hp, rfl⟩)
    ⟨hends.2.1, hends.1, Ne.symm hends.2.2⟩
  dependencies := by
    intro v hv
    obtain ⟨slot, hslot⟩ := exists_slot hv
    rw [DependencyGraph.dependencies, slot_eq_ok hslot, ← (h.incoming hslot).1]
    rfl
  dependents := by
    intro u hu
    obtain ⟨slot, hslot⟩ := exists_slot hu
    rw [DependencyGraph.dependents, slot_eq_ok hslot, ← (h.outgoing hslot).1]
    rfl
  indegree := by
    intro v hv
    obtain ⟨slot, hslot⟩ := exists_slot hv
    rw [DependencyGraph.indegree, slot_eq_ok hslot, ← (h.incoming hslot).2]
    rfl
  outdegree := by
    intro u hu
    obtain ⟨slot, hslot⟩ := exists_slot hu
    rw [DependencyGraph.outdegree, slot_eq_ok hslot, ← (h.outgoing hslot).2]
    rfl
  edgeCount := h.edgeCount
  edge? := by
    intro id e
    constructor
    · intro he
      obtain ⟨hmem, hid⟩ := (h.joins id e.source e.sink).1 ⟨e.action, he⟩
      exact ⟨hmem, hid, (h.action he).symm⟩
    · rintro ⟨hmem, hid, haction⟩
      obtain ⟨a, ha⟩ := (h.joins id e.source e.sink).2 ⟨hmem, hid⟩
      have hsame : a = e.action := (h.action ha).trans haction
      rw [ha, hsame]

/-! ## Whole sequences of calls -/

theorem Agrees.edge?_eq_none_iff [DecidableEq κ] (h : g.Agrees m) {id : Nat} :
    g.edge? id = none ↔ ∀ p ∈ m.pairs, m.number p ≠ id := by
  constructor
  · intro hnone p hp hid
    have hsome := (h.edge? id ⟨p.2, p.1, m.action p⟩).2 ⟨hp, hid, rfl⟩
    rw [hnone] at hsome
    cases hsome
  · intro hgone
    cases he : g.edge? id with
    | none => rfl
    | some e =>
      obtain ⟨hmem, hid, -⟩ := (h.edge? id e).1 he
      exact absurd hid (hgone _ hmem)

/-- **A graph is its outline.**  Whatever calls build a graph, with numbers of
vertices taken from it, they succeed and answer as on the outline, and all that can
be seen of the graph is as the outline has it.  The number of an edge that was taken
out denotes nothing and is not given out again, whatever calls come later. -/
theorem performAll_agrees [DecidableEq κ] {calls : List (GraphCall V α)}
    (hcalls : (Outline.empty : Outline V α).AdmitsAll calls) :
    ∃ g : DependencyGraph V κ α,
      empty.performAll calls = .ok (g, (Outline.empty.performAll calls).2)
      ∧ g.Agrees (Outline.empty.performAll calls).1
      ∧ ∀ id, .edge (some id) ∈ (Outline.empty.performAll calls).2 → g.edge? id = none →
        ∀ more, (Outline.empty.performAll calls).1.AdmitsAll more →
          ∃ g' replies, g.performAll more = .ok (g', replies) ∧ g'.edge? id = none
            ∧ .edge (some id) ∉ replies := by
  obtain ⟨g, hrun, hrep, -, hgiven⟩ := (represents_empty (V := V) (κ := κ)).performAll hcalls
  refine ⟨g, hrun, hrep.agrees, fun id hid hnone more hmore => ?_⟩
  have hretired : (Outline.empty.performAll calls).1.Retired id :=
    ⟨hgiven id hid, hrep.agrees.edge?_eq_none_iff.1 hnone⟩
  obtain ⟨g', hrun', hrep', -, -⟩ := hrep.performAll hmore
  exact ⟨g', _, hrun', hrep'.agrees.edge?_eq_none_iff.2 hretired.performAll.1.gone,
    hretired.performAll.2⟩

/-- `b` depends on `a` twice, then no more, then again, and never on itself. -/
def rewiring : List (GraphCall Bare Signal) :=
  [.addDependency ⟨"b"⟩ ⟨"a"⟩ none, .depend 0 1 (some (.ofKind .count)), .remove 0 1,
    .remove 0 1, .addDependency ⟨"b"⟩ ⟨"b"⟩ none, .depend 0 1 none, .add ⟨"a"⟩]

theorem rewiring_agrees :
    (Outline.empty : Outline Bare Signal).AdmitsAll rewiring
    ∧ ∃ g : DependencyGraph Bare String Signal, empty.performAll rewiring = .ok (g,
        [.edge (some 0), .edge (some 0), .removed true, .removed false, .edge none,
          .edge (some 1), .vertex 1])
      ∧ g.edgeCount = 1 ∧ g.indegree 0 = .ok 1 ∧ g.edge? 0 = none
      ∧ ∃ g' replies, g.performAll [.remove 0 1, .depend 1 0 none] = .ok (g', replies)
        ∧ g'.edge? 0 = none ∧ .edge (some 0) ∉ replies := by
  have hcalls : (Outline.empty : Outline Bare Signal).AdmitsAll rewiring :=
    ⟨trivial, ⟨by decide, by decide⟩, ⟨by decide, by decide⟩, ⟨by decide, by decide⟩, trivial,
      ⟨by decide, by decide⟩, trivial, trivial⟩
  obtain ⟨g, hrun, hagrees, hgone⟩ := performAll_agrees hcalls
  have hnone : g.edge? 0 = none := hagrees.edge?_eq_none_iff.2 (by decide)
  have hdegree := hagrees.indegree 0 (by rw [hagrees.size]; decide)
  refine ⟨hcalls, g, hrun, ?_, ?_, hnone, ?_⟩
  · rw [hagrees.edgeCount]
    decide
  · rw [hdegree]
    decide
  · exact hgone 0 (by decide) hnone _ ⟨⟨by decide, by decide⟩, ⟨by decide, by decide⟩, trivial⟩

end

end DependencyGraph

end Topiary
