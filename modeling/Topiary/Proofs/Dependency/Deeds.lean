/-
Topiary.Proofs.Dependency.Deeds — what closing a vertex does to a graph.

Closing a vertex changes vertices and actions and nothing else.  What it does is a
list of deeds: the vertex is resolved, then the actions at its outgoing edges fire
in ascending order of the sinks.

* `Store` — the vertices and the actions of a graph, the part that changes.
* `DependencyGraph.frame` — everything else.
* `Deed`, `Store.carry` — one change of a store.
* `DependencyGraph.deedsOf` — the deeds when a vertex is closed.
* `Consistent.resolve_store` — resolving a vertex of a graph carries them out.
* `Linked.store_eq` — a run carries out the deeds of what it closes.
-/
import Topiary.Proofs.Dependency.Consistent
import Topiary.Proofs.Dependency.Journal

namespace Topiary

/-! ## Stores -/

/-- The vertices and the actions at edges, each by number. -/
@[ext]
structure Store (V α : Type) where
  vertex : Nat → Option V
  action : Nat → Option α

/-- A vertex is resolved, or an action fires. -/
inductive Deed where
  | resolve (v : Nat)
  | fire (edge source sink : Nat)
deriving DecidableEq, Repr

namespace Deed

/-- The vertex that may change. -/
def target : Deed → Nat
  | resolve v => v
  | fire _ _ sink => sink

/-- The vertex that is closed. -/
def origin : Deed → Nat
  | resolve v => v
  | fire _ source _ => source

end Deed

namespace Store

variable {V κ α : Type} [Vertex V κ] [EdgeAction α V]

/-- The store after a deed. -/
def carry (st : Store V α) : Deed → Store V α
  | .resolve v =>
    { st with vertex := Function.update st.vertex v ((st.vertex v).map Vertex.resolve) }
  | .fire edge source sink =>
    match st.action edge, st.vertex source, st.vertex sink with
    | some a, some tail, some head =>
      ⟨Function.update st.vertex sink (some (EdgeAction.fire a tail head).1),
        Function.update st.action edge (some (EdgeAction.fire a tail head).2)⟩
    | _, _, _ => st

/-- A deed changes no vertex but its target. -/
theorem carry_vertex_of_ne (st : Store V α) {deed : Deed} {v : Nat} (hv : v ≠ deed.target) :
    (st.carry deed).vertex v = st.vertex v := by
  cases deed with
  | resolve w => exact Function.update_of_ne hv ..
  | fire edge source sink =>
    simp only [carry]
    split
    · exact Function.update_of_ne hv ..
    · rfl

/-- Deeds that are aimed at other vertices leave a vertex as it is. -/
theorem carryAll_vertex_of_ne {deeds : List Deed} {v : Nat} (hv : ∀ deed ∈ deeds, v ≠ deed.target)
    (st : Store V α) : (deeds.foldl carry st).vertex v = st.vertex v := by
  induction deeds generalizing st with
  | nil => rfl
  | cons deed deeds ih =>
    rw [List.foldl_cons, ih (fun d hd => hv d (List.mem_cons_of_mem _ hd)),
      carry_vertex_of_ne st (hv deed (List.mem_cons_self ..))]

end Store

namespace DependencyGraph

variable {V κ α : Type}

/-- The vertices and the actions of a graph. -/
def store (g : DependencyGraph V κ α) : Store V α where
  vertex := fun v => (g.slots[v]?).map Slot.vertex
  action := fun id => (g.edge? id).bind Edge.action

/-- What a graph is apart from its vertices and actions: the keys and the links of
the vertices, and the ends of the edges with whether they have an action. -/
def frame (g : DependencyGraph V κ α) :
    List (κ × Links × Links) × List (Option (Nat × Nat × Bool)) × Nat :=
  (g.slots.map fun slot => (slot.key, slot.incoming, slot.outgoing),
    g.edges.map (Option.map fun e => (e.source, e.sink, e.action.isSome)),
    g.edgeCount)

/-! ## The deeds of closing a vertex -/

/-- The deeds at the outgoing edges of a vertex. -/
def firings (g : DependencyGraph V κ α) (v : Nat) : List Deed :=
  match g.slots[v]? with
  | none => []
  | some slot => slot.outgoing.filterMap fun link =>
    if (g.store.action link.2).isSome then some (.fire link.2 v link.1) else none

/-- The deeds when a vertex is closed. -/
def deedsOf (g : DependencyGraph V κ α) (v : Nat) : List Deed := .resolve v :: g.firings v

theorem mem_firings_iff {g : DependencyGraph V κ α} (h : g.Consistent) (v : Nat) (deed : Deed) :
    deed ∈ g.firings v
      ↔ ∃ id w a, g.edge? id = some ⟨v, w, some a⟩ ∧ deed = .fire id v w := by
  unfold firings
  cases hslot : g.slots[v]? with
  | none =>
    refine ⟨fun hmem => absurd hmem List.not_mem_nil, ?_⟩
    rintro ⟨id, w, a, hedge, -⟩
    have hlt := (h.ends ⟨some a, hedge⟩).1
    rw [List.getElem?_eq_none_iff] at hslot
    exact absurd hlt (Nat.not_lt.2 hslot)
  | some slot =>
    obtain ⟨-, hmem⟩ := h.outgoing hslot
    simp only [List.mem_filterMap, Option.ite_none_right_eq_some, Option.some.injEq]
    constructor
    · rintro ⟨⟨w, id⟩, hlink, hsome, rfl⟩
      obtain ⟨action, hedge⟩ := (hmem w id).1 hlink
      simp only [store, hedge, Option.bind_some, Option.isSome_iff_exists] at hsome
      obtain ⟨a, rfl⟩ := hsome
      exact ⟨id, w, a, hedge, rfl⟩
    · rintro ⟨id, w, a, hedge, rfl⟩
      exact ⟨(w, id), (hmem w id).2 ⟨_, hedge⟩, by simp [store, hedge], rfl⟩

/-- The actions at the edges of a vertex fire in ascending order of the sinks. -/
theorem firings_ascending {g : DependencyGraph V κ α} (h : g.Consistent) (v : Nat) :
    (g.firings v).Pairwise fun deed deed' => deed.target < deed'.target := by
  unfold firings
  cases hslot : g.slots[v]? with
  | none => exact .nil
  | some slot =>
    refine List.Pairwise.filterMap _ (fun link link' hlt deed hdeed deed' hdeed' => ?_)
      (h.outgoing hslot).1
    rw [Option.ite_none_right_eq_some, Option.some.injEq] at hdeed hdeed'
    rw [← hdeed.2, ← hdeed'.2]
    exact hlt

theorem origin_of_mem_deedsOf {g : DependencyGraph V κ α} (h : g.Consistent) {v : Nat}
    {deed : Deed} (hdeed : deed ∈ g.deedsOf v) : deed.origin = v := by
  rcases List.mem_cons.1 hdeed with rfl | hdeed
  · rfl
  · obtain ⟨id, w, a, -, rfl⟩ := (mem_firings_iff h v deed).1 hdeed
    rfl

theorem nodup_deedsOf {g : DependencyGraph V κ α} (h : g.Consistent) (v : Nat) :
    (g.deedsOf v).Nodup := by
  refine List.nodup_cons.2 ⟨fun hmem => ?_, ?_⟩
  · obtain ⟨id, w, a, -, hfire⟩ := (mem_firings_iff h v _).1 hmem
    cases hfire
  · exact (firings_ascending h v).imp fun hlt heq => Nat.ne_of_lt hlt (congrArg Deed.target heq)

/-- Vertices that are closed once each have different deeds. -/
theorem nodup_deeds {g : DependencyGraph V κ α} (h : g.Consistent) {ids : List Nat}
    (hids : ids.Nodup) : (ids.flatMap g.deedsOf).Nodup := by
  refine List.nodup_flatMap.2 ⟨fun v _ => nodup_deedsOf h v, hids.imp fun hne => ?_⟩
  intro deed hdeed hdeed'
  exact hne ((origin_of_mem_deedsOf h hdeed).symm.trans (origin_of_mem_deedsOf h hdeed'))

theorem resolve_mem_deeds_iff {g : DependencyGraph V κ α} (h : g.Consistent) {ids : List Nat}
    (v : Nat) : .resolve v ∈ ids.flatMap g.deedsOf ↔ v ∈ ids := by
  rw [List.mem_flatMap]
  constructor
  · rintro ⟨u, hu, hdeed⟩
    obtain rfl : v = u := origin_of_mem_deedsOf h hdeed
    exact hu
  · exact fun hv => ⟨v, hv, List.mem_cons_self ..⟩

theorem fire_mem_deeds_iff {g : DependencyGraph V κ α} (h : g.Consistent) {ids : List Nat}
    (id u w : Nat) : .fire id u w ∈ ids.flatMap g.deedsOf
      ↔ u ∈ ids ∧ ∃ a, g.edge? id = some ⟨u, w, some a⟩ := by
  rw [List.mem_flatMap]
  constructor
  · rintro ⟨v, hv, hdeed⟩
    obtain rfl : u = v := origin_of_mem_deedsOf h hdeed
    rw [deedsOf, List.mem_cons, or_iff_right (by simp), mem_firings_iff h] at hdeed
    obtain ⟨id', w', a, hedge, hfire⟩ := hdeed
    cases hfire
    exact ⟨hv, a, hedge⟩
  · rintro ⟨hu, a, hedge⟩
    exact ⟨u, hu, List.mem_cons_of_mem _ ((mem_firings_iff h u _).2 ⟨id, w, a, hedge, rfl⟩)⟩

/-! ## What keeps the frame -/

theorem frame_modifyVertex (g : DependencyGraph V κ α) (v : Nat) (f : V → V) :
    (g.modifyVertex v f).frame = g.frame := by
  have hslots := map_slots_eq (f := fun slot => (slot.key, slot.incoming, slot.outgoing))
    (g.slots_modifySlot v fun slot => { slot with vertex := f slot.vertex }) fun u slot => by
      by_cases hu : v = u <;> simp [hu]
  rw [frame, frame, modifyVertex, hslots]
  rfl

/-- An action that takes the place of another one. -/
theorem frame_setAction (g : DependencyGraph V κ α) {id : Nat} {e : Edge α}
    (hedge : g.edge? id = some e) (hsome : e.action.isSome = true) (a : α) :
    (g.setAction id (some a)).frame = g.frame := by
  have hedges : (g.setAction id (some a)).edges.map
      (Option.map fun e => (e.source, e.sink, e.action.isSome))
      = g.edges.map (Option.map fun e => (e.source, e.sink, e.action.isSome)) := by
    refine List.ext_getElem? fun i => ?_
    simp only [setAction, List.getElem?_map, List.getElem?_modify]
    by_cases hi : id = i
    · subst hi
      rw [edge?, Option.join_eq_some_iff] at hedge
      simp [hedge, hsome]
    · simp [hi]
  rw [frame, frame, hedges]
  rfl

theorem joins_of_frame {g g' : DependencyGraph V κ α} (h : g'.frame = g.frame) (id u v : Nat) :
    g'.Joins id u v ↔ g.Joins id u v := by
  have hends : ∀ g : DependencyGraph V κ α, g.Joins id u v
      ↔ ∃ acts, (g.frame.2.1[id]?).join = some (u, v, acts) := by
    intro g
    simp only [Joins, edge?, frame, List.getElem?_map]
    cases g.edges[id]? with
    | none => simp
    | some e? =>
      cases e? with
      | none => simp
      | some e =>
        obtain ⟨source, sink, action⟩ := e
        simp
  rw [hends, hends, h]

theorem action_isSome_of_frame {g g' : DependencyGraph V κ α} (h : g'.frame = g.frame)
    (id : Nat) : (g'.store.action id).isSome = (g.store.action id).isSome := by
  have hedge := congrArg (fun f => (f.2.1[id]?).join) h
  simp only [frame, List.getElem?_map] at hedge
  simp only [store, edge?]
  cases he : g.edges[id]? with
  | none =>
    cases he' : g'.edges[id]? with
    | none => rfl
    | some e' => cases e' <;> simp_all
  | some e =>
    cases he' : g'.edges[id]? with
    | none => cases e <;> simp_all
    | some e' => cases e <;> cases e' <;> simp_all

/-- The deeds are a matter of the frame. -/
theorem deedsOf_of_frame {g g' : DependencyGraph V κ α} (h : g'.frame = g.frame) :
    g'.deedsOf = g.deedsOf := by
  funext v
  have hslot := congrArg (fun f => (f.1[v]?).map fun slot => slot.2.2) h
  simp only [frame, List.getElem?_map, Option.map_map] at hslot
  rw [deedsOf, deedsOf, firings, firings]
  simp only [action_isSome_of_frame h]
  cases hs : g.slots[v]? with
  | none =>
    cases hs' : g'.slots[v]? with
    | none => rfl
    | some slot' => simp [hs, hs'] at hslot
  | some slot =>
    cases hs' : g'.slots[v]? with
    | none => simp [hs, hs'] at hslot
    | some slot' =>
      have hout : slot'.outgoing = slot.outgoing := by simpa [hs, hs'] using hslot
      simp only [hout]

/-! ## Carrying the deeds out -/

theorem store_modifyVertex (g : DependencyGraph V κ α) (v : Nat) (f : V → V) :
    (g.modifyVertex v f).store
      = { g.store with vertex := Function.update g.store.vertex v ((g.store.vertex v).map f) } := by
  refine Store.ext (funext fun u => ?_) rfl
  simp only [store, modifyVertex, slots_modifySlot, Function.update_apply, Option.map_map]
  by_cases hu : u = v
  · subst hu
    simp only [if_true]
    rfl
  · simp only [if_neg hu, if_neg (Ne.symm hu)]
    rfl

theorem store_setAction (g : DependencyGraph V κ α) {id : Nat} {e : Edge α}
    (hedge : g.edge? id = some e) (a : α) : (g.setAction id (some a)).store
      = { g.store with action := Function.update g.store.action id (some a) } := by
  refine Store.ext rfl (funext fun i => ?_)
  simp only [store, edge?_setAction, Function.update_apply]
  by_cases hi : i = id
  · subst hi
    simp [hedge]
  · cases g.edge? i <;> simp [hi, Ne.symm hi]

variable [Vertex V κ] [EdgeAction α V]

/-- Firing an edge of a graph is the deed at this edge, if it has an action. -/
theorem Consistent.fire_store {g : DependencyGraph V κ α} (h : g.Consistent) {id u w : Nat}
    (hjoins : g.Joins id u w) :
    (g.fire id).frame = g.frame
      ∧ (g.fire id).store
        = (if (g.store.action id).isSome then [Deed.fire id u w] else []).foldl Store.carry
          g.store := by
  obtain ⟨tail, htail⟩ := exists_slot (h.ends hjoins).1
  obtain ⟨head, hhead⟩ := exists_slot (h.ends hjoins).2.1
  obtain ⟨action, hedge⟩ := hjoins
  cases action with
  | none => simp [DependencyGraph.fire, store, hedge]
  | some a =>
    have hmodified : (g.modifyVertex w fun _ => (EdgeAction.fire a tail.vertex head.vertex).1).edge?
        id = some ⟨u, w, some a⟩ := hedge
    simp only [DependencyGraph.fire, hedge, htail, hhead]
    refine ⟨(frame_setAction _ hmodified rfl _).trans (frame_modifyVertex g w _), ?_⟩
    rw [store_setAction _ hmodified, store_modifyVertex]
    simp [store, Store.carry, hedge, htail, hhead]

theorem Consistent.fireAll_store {links : Links} {v : Nat} : ∀ {g : DependencyGraph V κ α},
    g.Consistent → (∀ link ∈ links, g.Joins link.2 v link.1) →
    (links.foldl (fun g link => g.fire link.2) g).frame = g.frame
      ∧ (links.foldl (fun g link => g.fire link.2) g).store
        = (links.filterMap fun link => if (g.store.action link.2).isSome
          then some (Deed.fire link.2 v link.1) else none).foldl Store.carry g.store := by
  induction links with
  | nil => exact fun _ _ => ⟨rfl, rfl⟩
  | cons link links ih =>
    intro g h hlinks
    obtain ⟨hframe, hstore⟩ := h.fire_store (hlinks link (List.mem_cons_self ..))
    have hjoins : ∀ l ∈ links, (g.fire link.2).Joins l.2 v l.1 := fun l hl =>
      (joins_of_frame hframe ..).2 (hlinks l (List.mem_cons_of_mem _ hl))
    obtain ⟨hframe', hstore'⟩ := ih (h.fire link.2) hjoins
    refine ⟨hframe'.trans hframe, ?_⟩
    simp only [action_isSome_of_frame hframe] at hstore'
    rw [List.foldl_cons, hstore', hstore, List.filterMap_cons]
    cases (g.store.action link.2).isSome <;> rfl

/-- Resolving a vertex of a graph carries out the deeds of closing it. -/
theorem Consistent.resolve_store {g g' : DependencyGraph V κ α} (h : g.Consistent) {v : Nat}
    (hresolve : g.resolve v = .ok g') :
    g'.frame = g.frame ∧ g'.store = (g.deedsOf v).foldl Store.carry g.store := by
  cases hslot : g.slots[v]? with
  | none =>
    rw [DependencyGraph.resolve, DependencyGraph.slot, hslot] at hresolve
    cases hresolve
  | some slot =>
    rw [DependencyGraph.resolve, slot_eq_ok hslot] at hresolve
    obtain rfl := Except.ok.inj hresolve
    have hframe := g.frame_modifyVertex v Vertex.resolve
    have hlinks : ∀ link ∈ slot.outgoing,
        (g.modifyVertex v Vertex.resolve).Joins link.2 v link.1 :=
      fun link hlink => ((h.outgoing hslot).2 link.1 link.2).1 hlink
    obtain ⟨hframe', hstore'⟩ := (h.modifyVertex v Vertex.resolve).fireAll_store hlinks
    refine ⟨hframe'.trans hframe, ?_⟩
    simp only [action_isSome_of_frame hframe] at hstore'
    rw [hstore', deedsOf, firings, hslot, List.foldl_cons, store_modifyVertex]
    rfl

end DependencyGraph

/-! ## Runs -/

namespace Schedule

open DependencyGraph

variable {V κ α : Type} [Vertex V κ] [EdgeAction α V] {s s' : Schedule V κ α}
  {events : List (Event V κ α)}

/-- A run carries out the deeds of what it closes, and does nothing else to the
graph. -/
theorem Linked.store_eq (h : Linked s events s') (hs : s.graph.Consistent) :
    s'.graph.Consistent ∧ s'.graph.frame = s.graph.frame
      ∧ s'.graph.store
        = ((closedBy events).flatMap s.graph.deedsOf).foldl Store.carry s.graph.store := by
  induction h with
  | quiet hquiet =>
    rw [hquiet.graph]
    exact ⟨hs, rfl, rfl⟩
  | handOut ids hquiet _ ih =>
    rw [hquiet.graph] at ih
    exact ih hs
  | close hquiet hclosing _ ih =>
    have hresolve := hclosing.resolve
    rw [hquiet.graph] at hresolve
    obtain ⟨hframe, hstore⟩ := hs.resolve_store hresolve
    obtain ⟨hcons', hframe', hstore'⟩ := ih (hs.resolve hresolve)
    refine ⟨hcons', hframe'.trans hframe, ?_⟩
    rw [hstore', deedsOf_of_frame hframe, hstore, closedBy_close, List.flatMap_cons,
      List.foldl_append]

/-- At the end of each closing the graph is the one that the event tells. -/
theorem Linked.exists_of_close {past future : List (Event V κ α)} {v : Nat}
    {graph : DependencyGraph V κ α} : ∀ {s : Schedule V κ α},
    Linked s (past ++ .close v graph :: future) s' →
    ∃ t, Linked s (past ++ [.close v graph]) t ∧ t.graph = graph := by
  induction past with
  | nil =>
    rintro s (_ | ⟨hquiet, hclosing, -⟩)
    exact ⟨_, .close hquiet hclosing (.refl _), rfl⟩
  | cons event past ih =>
    rintro s (_ | ⟨hquiet, hclosing, hrest⟩ | ⟨ids, hquiet, hrest⟩)
    · obtain ⟨t, ht, hgraph⟩ := ih hrest
      exact ⟨t, .close hquiet hclosing ht, hgraph⟩
    · obtain ⟨t, ht, hgraph⟩ := ih hrest
      exact ⟨t, .handOut ids hquiet ht, hgraph⟩

end Schedule

end Topiary
