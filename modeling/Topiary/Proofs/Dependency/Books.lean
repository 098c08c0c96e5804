/-
Topiary.Proofs.Dependency.Books — what a schedule counts and lists.

A schedule keeps the same facts several times: the status of each vertex, the
number of vertices that are not closed, and the lists of those that were handed
out or are about to be.  They go together whatever is closed and in whatever
order, also when vertices are closed before their turn.

* `Schedule.Books` — the statuses, the count and the lists go together.  `held`
  are the vertices that are eligible and in neither list for the moment.
* `Schedule.Onward` — what no operation takes back.
* `Books.closeOne_cases` — all that closing a vertex can do.
* `Books.withClosed`, `Books.markOne` — the two changes of a status.
-/
import Topiary.Proofs.Dependency.Cycle

namespace Topiary

namespace Schedule

open DependencyGraph

variable {V κ α : Type}

/-! ## Statuses -/

/-- Overwriting a status moves one vertex from its old status to the new. -/
theorem count_set {status : List Status} {v : Nat} {a : Status} (h : status[v]? = some a)
    (b c : Status) :
    (status.set v b).count c + (if a = c then 1 else 0)
      = status.count c + (if b = c then 1 else 0) := by
  obtain ⟨hv, ha⟩ := List.getElem?_eq_some_iff.1 h
  have hpos : a = c → 0 < status.count c := fun hac =>
    List.count_pos_iff.2 (hac ▸ ha ▸ List.getElem_mem hv)
  rw [List.count_set hv, ha]
  by_cases hac : a = c
  · have := hpos hac
    simp only [hac, beq_self_eq_true, if_true, beq_iff_eq]
    omega
  · simp [hac]

/-- The vertex was handed out, is about to be, or is closed. -/
def IsReached (s : Schedule V κ α) (v : Nat) : Prop :=
  s.status[v]? = some .eligible ∨ s.status[v]? = some .closed

/-- The number of vertices that were not reached. -/
def waiting (s : Schedule V κ α) : Nat := s.status.count .unclosed

/-- Statuses, counts and options only move one way. -/
structure Onward (s s' : Schedule V κ α) : Prop where
  options : s'.options = s.options
  waiting : s'.waiting ≤ s.waiting
  unclosed : s'.unclosed ≤ s.unclosed
  reached : ∀ v, s.IsReached v → s'.IsReached v
  yielded : s.yielded = [] → s'.yielded = []
  pending : s.pending = [] → s'.pending = []

theorem Onward.refl (s : Schedule V κ α) : Onward s s :=
  ⟨rfl, Nat.le_refl _, Nat.le_refl _, fun _ h => h, fun h => h, fun h => h⟩

theorem Onward.trans {s s' s'' : Schedule V κ α} (h : Onward s s') (h' : Onward s' s'') :
    Onward s s'' :=
  ⟨h'.options.trans h.options, Nat.le_trans h'.waiting h.waiting,
    Nat.le_trans h'.unclosed h.unclosed, fun v hv => h'.reached v (h.reached v hv),
    fun hy => h'.yielded (h.yielded hy), fun hp => h'.pending (h.pending hp)⟩

theorem isClosed_iff (s : Schedule V κ α) (v : Nat) :
    s.isClosed v = true ↔ s.status[v]? = some .closed := by
  rw [isClosed, beq_iff_eq]

/-! ## The books -/

/-- The statuses, the count and the lists of a schedule go together. -/
structure Books (g : DependencyGraph V κ α) (held : Nat → Prop) (s : Schedule V κ α) : Prop where
  links : g.SameLinks s.graph
  length : s.status.length = g.size
  unclosed : s.unclosed + s.status.count .closed = g.size
  eligible : ∀ v, s.status[v]? = some .eligible ↔ held v ∨ v ∈ s.yielded ∨ v ∈ s.pending

theorem books_start (g : DependencyGraph V κ α) (options : OrderingOptions) :
    Books g (fun _ => False) (start g options) where
  links := rfl
  length := List.length_replicate
  unclosed := by simp [start, List.count_replicate]
  eligible := by simp [start, List.getElem?_replicate]

section

variable {g : DependencyGraph V κ α} {held : Nat → Prop} {s : Schedule V κ α}

theorem Books.congr (h : Books g held s) {held' : Nat → Prop} (hheld : ∀ v, held v ↔ held' v) :
    Books g held' s :=
  ⟨h.links, h.length, h.unclosed, fun v => by rw [h.eligible, hheld]⟩

theorem Books.status_of_lt (h : Books g held s) {v : Nat} (hv : v < g.size) :
    ∃ a, s.status[v]? = some a :=
  ⟨_, List.getElem?_eq_getElem (h.length ▸ hv)⟩

theorem Books.lt_of_status (h : Books g held s) {v : Nat} {a : Status}
    (hv : s.status[v]? = some a) : v < g.size := by
  rw [← h.length]
  exact (List.getElem?_eq_some_iff.1 hv).1

/-- A vertex is ready once all that it depends on is closed. -/
theorem Books.isReady_iff (h : Books g held s) {v : Nat} (hv : v < g.size) :
    s.isReady v = true
      ↔ s.status[v]? = some .unclosed ∧ ∀ u, g.DependsOn v u → s.isClosed u = true := by
  have hlt : v < s.graph.slots.length := by
    have := h.links.size_eq
    rw [size, size] at this
    rw [← this]
    exact hv
  obtain ⟨slot, hslot⟩ : ∃ slot, s.graph.slots[v]? = some slot :=
    ⟨_, List.getElem?_eq_getElem hlt⟩
  rw [isReady, hslot, Bool.and_eq_true, beq_iff_eq, h.links.dependsOn_eq]
  refine and_congr_right fun _ => ?_
  simp only [List.all_eq_true]
  constructor
  · rintro hall u ⟨slot', hslot', link, hlink, rfl⟩
    rw [hslot, Option.some.injEq] at hslot'
    exact hall link (hslot' ▸ hlink)
  · exact fun hall link hlink => hall link.1 ⟨slot, hslot, link, hlink, rfl⟩

theorem Books.mem_ready_iff (h : Books g held s) (v : Nat) :
    v ∈ (List.range s.graph.size).filter s.isReady
      ↔ s.status[v]? = some .unclosed ∧ ∀ u, g.DependsOn v u → s.isClosed u = true := by
  rw [List.mem_filter, List.mem_range, ← h.links.size_eq]
  constructor
  · rintro ⟨hv, hready⟩
    exact (h.isReady_iff hv).1 hready
  · intro hwait
    have hv := h.lt_of_status hwait.1
    exact ⟨hv, (h.isReady_iff hv).2 hwait⟩

/-! ## Closing -/

/-- The schedule once a vertex that was not closed is, with the graph after
its resolution. -/
def withClosed (s : Schedule V κ α) (graph : DependencyGraph V κ α) (v : Nat) :
    Schedule V κ α :=
  ⟨graph, s.options, s.status.set v .closed, s.unclosed - 1, s.yielded.filter (· != v),
    s.pending.filter (· != v)⟩

theorem Books.getElem?_set_status (h : Books g held s) {v : Nat} (hv : v < g.size) (a : Status)
    (u : Nat) : (s.status.set v a)[u]? = if u = v then some a else s.status[u]? := by
  rw [List.getElem?_set]
  by_cases huv : v = u
  · simp [huv, h.length, huv ▸ hv]
  · simp [huv, Ne.symm huv]

theorem Books.isReached_withClosed (h : Books g held s) {v : Nat} (hv : v < g.size)
    (graph : DependencyGraph V κ α) (u : Nat) :
    (s.withClosed graph v).IsReached u ↔ u = v ∨ s.IsReached u := by
  simp only [IsReached, Schedule.withClosed, h.getElem?_set_status hv]
  by_cases huv : u = v
  · simp [huv]
  · simp [huv]

theorem Books.unclosed_withClosed (h : Books g held s) {v : Nat} {a : Status}
    (ha : s.status[v]? = some a) (hne : a ≠ .closed) :
    s.unclosed - 1 + (s.status.set v .closed).count .closed = g.size ∧ 0 < s.unclosed := by
  have hone := count_set ha .closed .closed
  rw [if_neg hne, if_pos rfl] at hone
  have hle : (s.status.set v .closed).count .closed ≤ (s.status.set v .closed).length :=
    List.count_le_length
  rw [List.length_set, h.length] at hle
  have := h.unclosed
  omega

theorem Books.withClosed (h : Books g held s) {v : Nat} (hv : v < g.size)
    {graph : DependencyGraph V κ α} (hlinks : s.graph.SameLinks graph)
    (hopen : s.status[v]? ≠ some .closed) :
    Books g (fun u => held u ∧ u ≠ v) (s.withClosed graph v) := by
  obtain ⟨a, ha⟩ := h.status_of_lt hv
  have hne : a ≠ .closed := fun he => hopen (he ▸ ha)
  refine ⟨h.links.trans hlinks, ?_, (h.unclosed_withClosed ha hne).1, ?_⟩
  · simp [Schedule.withClosed, h.length]
  · intro u
    have helig := h.eligible u
    simp only [Schedule.withClosed, h.getElem?_set_status hv, List.mem_filter, bne_iff_ne]
    by_cases huv : u = v
    · simp [huv]
    · simp [huv, helig]

theorem Books.onward_withClosed (h : Books g held s) {v : Nat} (hv : v < g.size)
    (graph : DependencyGraph V κ α) : Onward s (s.withClosed graph v) where
  options := rfl
  waiting := by
    obtain ⟨a, ha⟩ := h.status_of_lt hv
    have hwait := count_set ha .closed .unclosed
    rw [if_neg (by decide : Status.closed ≠ .unclosed)] at hwait
    simp only [waiting, Schedule.withClosed]
    omega
  unclosed := Nat.sub_le _ _
  reached := fun u hu => (h.isReached_withClosed hv graph u).2 (.inr hu)
  yielded := fun hy => by simp [Schedule.withClosed, hy]
  pending := fun hp => by simp [Schedule.withClosed, hp]

/-- Closing a vertex of the graph passes it over or closes it, and nothing
else. -/
theorem Books.closeOne_cases [Vertex V κ] [EdgeAction α V] (h : Books g held s) {v : Nat}
    (hv : v < g.size) :
    (s.status[v]? = some .closed ∧ s.closeOne v = .ok s)
      ∨ ∃ graph, s.status[v]? ≠ some .closed ∧ s.graph.SameLinks graph
        ∧ s.closeOne v = .ok (s.withClosed graph v) := by
  obtain ⟨a, ha⟩ := h.status_of_lt hv
  obtain ⟨graph, hresolve, hlinks⟩ := s.graph.resolve_of_lt (h.links.size_eq ▸ hv)
  unfold Schedule.closeOne
  rw [ha]
  cases a with
  | closed => exact .inl ⟨rfl, rfl⟩
  | unclosed => exact .inr ⟨graph, by simp, hlinks, by simp only [hresolve, bind, Except.bind]; rfl⟩
  | eligible => exact .inr ⟨graph, by simp, hlinks, by simp only [hresolve, bind, Except.bind]; rfl⟩

/-- What can be closed is a vertex of the graph. -/
theorem Books.lt_of_closeOne [Vertex V κ] [EdgeAction α V] (h : Books g held s) {v : Nat}
    {s' : Schedule V κ α} (hclose : s.closeOne v = .ok s') : v < g.size := by
  refine Decidable.byContradiction fun hge => ?_
  have hnone : s.status[v]? = none := List.getElem?_eq_none (h.length ▸ Nat.le_of_not_lt hge)
  rw [Schedule.closeOne, hnone] at hclose
  cases hclose

/-- A vertex that is closed is in no list. -/
theorem Books.not_held (h : Books g held s) {v : Nat} (hclosed : s.status[v]? = some .closed) :
    ∀ u, held u ↔ held u ∧ u ≠ v := by
  refine fun u => ⟨fun hu => ⟨hu, ?_⟩, And.left⟩
  rintro rfl
  have heligible := (h.eligible u).2 (.inl hu)
  rw [hclosed] at heligible
  cases heligible

/-- Closing one vertex, whatever its status. -/
theorem Books.closeOne [Vertex V κ] [EdgeAction α V] (h : Books g held s) {v : Nat}
    {s' : Schedule V κ α} (hclose : s.closeOne v = .ok s') :
    Books g (fun u => held u ∧ u ≠ v) s' ∧ Onward s s' := by
  have hv := h.lt_of_closeOne hclose
  rcases h.closeOne_cases hv with ⟨hclosed, hsame⟩ | ⟨graph, hopen, hlinks, hnew⟩
  · rw [hclose, Except.ok.injEq] at hsame
    subst hsame
    exact ⟨h.congr (h.not_held hclosed), .refl s'⟩
  · rw [hclose, Except.ok.injEq] at hnew
    subst hnew
    exact ⟨h.withClosed hv hlinks hopen, h.onward_withClosed hv graph⟩

/-- Closing vertices one after the other, up to a fault. -/
theorem Books.close [Vertex V κ] [EdgeAction α V] (ids : List Nat) :
    ∀ {held : Nat → Prop} {s : Schedule V κ α}, Books g held s →
      ∃ held', Books g held' (s.close ids).1 ∧ Onward s (s.close ids).1
        ∧ (∀ u, held' u → held u)
        ∧ ((∀ v ∈ ids, v < g.size) →
          (s.close ids).2 = .ok () ∧ ∀ u, held' u → u ∉ ids) := by
  induction ids with
  | nil => exact fun {held s} h => ⟨held, h, .refl s, fun _ hu => hu, fun _ => ⟨rfl, by simp⟩⟩
  | cons v ids ih =>
    intro held s h
    rw [Schedule.close]
    cases hone : s.closeOne v with
    | error f =>
      refine ⟨held, h, .refl s, fun _ hu => hu, fun hids => ?_⟩
      rcases h.closeOne_cases (hids v (List.mem_cons_self ..)) with ⟨-, hok⟩ | ⟨graph, -, -, hok⟩
      · rw [hone] at hok
        cases hok
      · rw [hone] at hok
        cases hok
    | ok t =>
      obtain ⟨ht, honward⟩ := h.closeOne hone
      obtain ⟨held', hrest, honward', hheld, hall⟩ := ih ht
      refine ⟨held', hrest, honward.trans honward', fun u hu => (hheld u hu).1, fun hids => ?_⟩
      obtain ⟨hok, hnot⟩ := hall fun u hu => hids u (List.mem_cons_of_mem _ hu)
      refine ⟨hok, fun u hu => ?_⟩
      rw [List.mem_cons, not_or]
      exact ⟨(hheld u hu).2, hnot u hu⟩

/-! ## Becoming eligible -/

/-- One vertex that is not closed becomes eligible. -/
theorem Books.markOne (h : Books g held s) {v : Nat} (hv : v < g.size)
    (hopen : s.status[v]? ≠ some .closed) :
    Books g (fun u => held u ∨ u = v) { s with status := s.status.set v .eligible } := by
  obtain ⟨a, ha⟩ := h.status_of_lt hv
  have hne : a ≠ .closed := fun he => hopen (he ▸ ha)
  have hcount := count_set ha .eligible .closed
  rw [if_neg hne, if_neg (by decide), Nat.add_zero, Nat.add_zero] at hcount
  refine ⟨h.links, ?_, ?_, ?_⟩
  · simp [h.length]
  · rw [hcount]
    exact h.unclosed
  · intro u
    have helig := h.eligible u
    simp only [h.getElem?_set_status hv]
    by_cases huv : u = v
    · simp [huv]
    · simp [huv, helig]

theorem Books.isReached_markOne (h : Books g held s) {v : Nat} (hv : v < g.size) (u : Nat) :
    ({ s with status := s.status.set v .eligible } : Schedule V κ α).IsReached u
      ↔ u = v ∨ s.IsReached u := by
  simp only [IsReached, h.getElem?_set_status hv]
  by_cases huv : u = v
  · simp [huv]
  · simp [huv]

theorem Books.onward_markOne (h : Books g held s) {v : Nat} (hv : v < g.size) :
    Onward s { s with status := s.status.set v .eligible }
      ∧ (s.status[v]? = some .unclosed →
        ({ s with status := s.status.set v .eligible } : Schedule V κ α).waiting < s.waiting) := by
  obtain ⟨a, ha⟩ := h.status_of_lt hv
  have hcount := count_set ha .eligible .unclosed
  rw [if_neg (by decide : Status.eligible ≠ .unclosed)] at hcount
  refine ⟨⟨rfl, ?_, Nat.le_refl _, ?_, fun hy => hy, fun hp => hp⟩, ?_⟩
  · simp only [waiting]
    omega
  · exact fun u hu => (h.isReached_markOne hv u).2 (.inr hu)
  · intro hwait
    rw [ha, Option.some.injEq] at hwait
    rw [if_pos hwait] at hcount
    simp only [waiting]
    omega

end

end Schedule

end Topiary
