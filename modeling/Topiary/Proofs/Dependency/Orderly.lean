/-
Topiary.Proofs.Dependency.Orderly — the books of a schedule over whole runs.

The owner of a schedule may close any vertex at any time: before its turn, again,
or between the moment a closure is computed and the moment it is handed out.
Whatever calls are made, as long as none of them faults, the count and the lists
of the schedule stay right, no vertex is handed out twice, and none is handed out
before its dependencies are closed.

* `Schedule.Call`, `Schedule.performAll` — calls in any order.
* `Schedule.Orderly` — the invariant: the books, the shape of the lists, and what
  was handed out so far.
* `Orderly.close`, `Orderly.closureWithin`, `Orderly.hasNext`, `Orderly.next` —
  one lemma for each operation.
* `Delivered`, `Orderly.performAll` — a whole run.
* `performAll_keeps_books` — what the owner of a schedule can rely on.
-/
import Topiary.Proofs.Dependency.Books

namespace Topiary

namespace Schedule

open DependencyGraph

variable {V κ α : Type}

/-! ## Calls -/

/-- A call that the owner of a schedule makes. -/
inductive Call where
  | hasNext
  | next
  /-- Close these vertices, in order. -/
  | close (ids : List Nat)
deriving DecidableEq, Repr

/-- Make a call; its result is the closure that it hands out, if it does. -/
def perform [Vertex V κ] [EdgeAction α V] (s : Schedule V κ α) :
    Call → Step V κ α (Option (List Nat))
  | .hasNext => (s.hasNext.1, s.hasNext.2.map fun _ => none)
  | .next => s.next
  | .close ids => ((s.close ids).1, (s.close ids).2.map fun _ => none)

/-- Make calls in order up to the first fault; the result are the closures that
were handed out. -/
def performAll [Vertex V κ] [EdgeAction α V] :
    Schedule V κ α → List Call → Step V κ α (List (List Nat))
  | s, [] => (s, .ok [])
  | s, call :: calls =>
    match s.perform call with
    | (s, .error f) => (s, .error f)
    | (s, .ok closure) =>
      match performAll s calls with
      | (s, .error f) => (s, .error f)
      | (s, .ok closures) => (s, .ok (closure.toList ++ closures))

/-! ## The invariant -/

/-- Vertices that are closed stay closed. -/
def Closes (s s' : Schedule V κ α) : Prop := ∀ v, s.isClosed v = true → s'.isClosed v = true

theorem Closes.refl (s : Schedule V κ α) : Closes s s := fun _ h => h

theorem Closes.trans {s s' s'' : Schedule V κ α} (h : Closes s s') (h' : Closes s' s'') :
    Closes s s'' :=
  fun v hv => h' v (h v hv)

theorem Closes.open_of_open {s s' : Schedule V κ α} (h : Closes s s') {v : Nat}
    (hopen : s'.isClosed v = false) : s.isClosed v = false := by
  rw [← Bool.not_eq_true] at hopen ⊢
  exact fun hclosed => hopen (h v hclosed)

/-- What holds of a schedule after any calls that handed out the vertices `out`.
`held` are eligible and in neither list for the moment. -/
structure Orderly (g : DependencyGraph V κ α) (held : Nat → Prop) (out : List Nat)
    (s : Schedule V κ α) : Prop extends Books g held s where
  nodup : (s.yielded ++ s.pending).Nodup
  ascending : s.pending.Pairwise (· < ·)
  supplied : ∀ v ∈ s.pending, ∀ u, g.DependsOn v u → s.isClosed u = true
  out : ∀ v ∈ out, s.IsReached v ∧ v ∉ s.pending

theorem orderly_start (g : DependencyGraph V κ α) (options : OrderingOptions) :
    Orderly g (fun _ => False) [] (start g options) where
  toBooks := books_start g options
  nodup := List.nodup_nil
  ascending := List.Pairwise.nil
  supplied := fun _ hv => absurd hv List.not_mem_nil
  out := fun _ hv => absurd hv List.not_mem_nil

variable {g : DependencyGraph V κ α} {held : Nat → Prop} {out : List Nat} {s s' : Schedule V κ α}

theorem Orderly.congr (h : Orderly g held out s) {held' : Nat → Prop}
    (hheld : ∀ v, held v ↔ held' v) : Orderly g held' out s :=
  ⟨h.toBooks.congr hheld, h.nodup, h.ascending, h.supplied, h.out⟩

/-- The lists and the count alone say which vertices are closed. -/
theorem Books.unclosed_eq_countP (h : Books g held s) :
    s.unclosed = (List.range g.size).countP fun v => !s.isClosed v := by
  have hstatus : s.status = (List.range g.size).map fun v => s.status.getD v .unclosed := by
    refine List.ext_getElem (by simp [h.length]) fun i hi _ => ?_
    simp [hi]
  have hclosed : s.status.count .closed = (List.range g.size).countP fun v => s.isClosed v := by
    conv => lhs; rw [hstatus]
    rw [List.count, List.countP_map]
    refine List.countP_congr fun v hv => ?_
    rw [List.mem_range, ← h.length] at hv
    simp [isClosed, hv]
  have hall := List.length_eq_countP_add_countP (fun v => s.isClosed v) (l := List.range g.size)
  have hcount := h.unclosed
  rw [List.length_range] at hall
  simp only [Bool.not_eq_true, Bool.decide_eq_false] at hall
  omega

/-! ## Closing -/

theorem isClosed_withClosed (h : Books g held s) {v : Nat} (hv : v < g.size)
    (graph : DependencyGraph V κ α) (u : Nat) :
    (s.withClosed graph v).isClosed u = true ↔ u = v ∨ s.isClosed u = true := by
  simp only [isClosed_iff, Schedule.withClosed, h.getElem?_set_status hv]
  by_cases huv : u = v
  · simp [huv]
  · simp [huv]

theorem Orderly.withClosed (h : Orderly g held out s) {v : Nat} (hv : v < g.size)
    {graph : DependencyGraph V κ α} (hlinks : s.graph.SameLinks graph)
    (hopen : s.status[v]? ≠ some .closed) :
    Orderly g (fun u => held u ∧ u ≠ v) out (s.withClosed graph v) where
  toBooks := h.toBooks.withClosed hv hlinks hopen
  nodup := by
    rw [Schedule.withClosed, ← List.filter_append]
    exact h.nodup.filter _
  ascending := h.ascending.filter _
  supplied := by
    intro w hw u hu
    have hclosed := h.supplied w (List.mem_filter.1 hw).1 u hu
    exact (isClosed_withClosed h.toBooks hv graph u).2 (.inr hclosed)
  out := by
    intro w hw
    obtain ⟨hreached, hpending⟩ := h.out w hw
    refine ⟨(h.toBooks.isReached_withClosed hv graph w).2 (.inr hreached), fun hmem => ?_⟩
    exact hpending (List.mem_filter.1 hmem).1

variable [Vertex V κ] [EdgeAction α V]

/-- Closing one vertex, whatever its status. -/
theorem Orderly.closeOne (h : Orderly g held out s) {v : Nat} (hclose : s.closeOne v = .ok s') :
    Orderly g (fun u => held u ∧ u ≠ v) out s' ∧ Closes s s' ∧ Onward s s' := by
  have hv := h.toBooks.lt_of_closeOne hclose
  rcases h.toBooks.closeOne_cases hv with ⟨hclosed, hsame⟩ | ⟨graph, hopen, hlinks, hnew⟩
  · rw [hclose, Except.ok.injEq] at hsame
    subst hsame
    exact ⟨h.congr (h.toBooks.not_held hclosed), .refl s', .refl s'⟩
  · rw [hclose, Except.ok.injEq] at hnew
    subst hnew
    refine ⟨h.withClosed hv hlinks hopen, fun u hu => ?_, h.toBooks.onward_withClosed hv graph⟩
    exact (isClosed_withClosed h.toBooks hv graph u).2 (.inr hu)

/-- Closing vertices one after the other. -/
theorem Orderly.close {ids : List Nat} : ∀ {held : Nat → Prop} {s : Schedule V κ α},
    Orderly g held out s → s.close ids = (s', .ok ()) →
    Orderly g (fun u => held u ∧ u ∉ ids) out s' ∧ Closes s s' ∧ Onward s s' := by
  induction ids with
  | nil =>
    intro held s h hclose
    obtain ⟨rfl, -⟩ := Prod.mk.inj hclose
    exact ⟨h.congr (by simp), .refl s, .refl s⟩
  | cons v ids ih =>
    intro held s h hclose
    unfold Schedule.close at hclose
    cases hone : s.closeOne v with
    | error f =>
      rw [hone] at hclose
      cases hclose
    | ok t =>
      rw [hone] at hclose
      obtain ⟨ht, hcloses, honward⟩ := h.closeOne hone
      obtain ⟨hs', hcloses', honward'⟩ := ih ht hclose
      refine ⟨hs'.congr fun u => ?_, hcloses.trans hcloses', honward.trans honward'⟩
      simp [and_assoc]

/-! ## The next closure -/

omit [Vertex V κ] [EdgeAction α V] in
theorem Orderly.markOne (h : Orderly g held out s) {v : Nat}
    (hwait : s.status[v]? = some .unclosed) :
    Orderly g (fun u => held u ∨ u = v) out { s with status := s.status.set v .eligible }
      ∧ Closes s { s with status := s.status.set v .eligible } := by
  have hv := h.toBooks.lt_of_status hwait
  have hopen : s.status[v]? ≠ some .closed := by simp [hwait]
  have hcloses : Closes s { s with status := s.status.set v .eligible } := by
    intro u hu
    rw [isClosed_iff] at hu ⊢
    have huv : u ≠ v := fun he => hopen (he ▸ hu)
    simp [h.toBooks.getElem?_set_status hv, huv, hu]
  refine ⟨⟨h.toBooks.markOne hv hopen, h.nodup, h.ascending, ?_, ?_⟩, hcloses⟩
  · exact fun w hw u hu => hcloses u (h.supplied w hw u hu)
  · intro w hw
    obtain ⟨hreached, hpending⟩ := h.out w hw
    exact ⟨(h.toBooks.isReached_markOne hv w).2 (.inr hreached), hpending⟩

omit [Vertex V κ] [EdgeAction α V] in
/-- Vertices that wait become eligible. -/
theorem Orderly.markEligible {ids : List Nat} : ∀ {held : Nat → Prop} {s : Schedule V κ α},
    Orderly g held out s → ids.Nodup → (∀ v ∈ ids, s.status[v]? = some .unclosed) →
    Orderly g (fun u => held u ∨ u ∈ ids) out (s.markEligible ids)
      ∧ Closes s (s.markEligible ids) := by
  induction ids with
  | nil =>
    intro held s h _ _
    exact ⟨h.congr (by simp), .refl s⟩
  | cons v ids ih =>
    intro held s h hnodup hwait
    rw [List.nodup_cons] at hnodup
    have hv := hwait v (List.mem_cons_self ..)
    obtain ⟨hone, hcloses⟩ := h.markOne hv
    obtain ⟨hrest, hcloses'⟩ := ih hone hnodup.2 fun u hu => by
      have huv : u ≠ v := fun he => hnodup.1 (he ▸ hu)
      rw [h.toBooks.getElem?_set_status (h.toBooks.lt_of_status hv), if_neg huv]
      exact hwait u (List.mem_cons_of_mem _ hu)
    refine ⟨hrest.congr fun u => ?_, hcloses.trans hcloses'⟩
    simp [or_assoc]

/-- A closure that was computed from `s`, and the schedule afterwards. -/
structure Computed (g : DependencyGraph V κ α) (out : List Nat) (s : Schedule V κ α)
    (closure : List Nat) (s' : Schedule V κ α) : Prop where
  orderly : Orderly g (fun u => u ∈ closure) out s'
  pending : s'.pending = []
  closes : Closes s s'
  ascending : closure.Pairwise (· < ·)
  fresh : ∀ v ∈ closure, v ∉ out ∧ v ∉ s'.yielded
  supplied : ∀ v ∈ closure, ∀ u, g.DependsOn v u → s'.isClosed u = true

omit [Vertex V κ] [EdgeAction α V] in
theorem Computed.after {t : Schedule V κ α} {closure : List Nat}
    (h : Computed g out t closure s') (hcloses : Closes s t) : Computed g out s closure s' :=
  { h with closes := hcloses.trans h.closes }

omit [Vertex V κ] [EdgeAction α V] in
/-- Nothing is computed where nothing is ready. -/
theorem Orderly.computed_nil (h : Orderly g (fun _ => False) out s) (hpending : s.pending = []) :
    Computed g out s [] s where
  orderly := h.congr (by simp)
  pending := hpending
  closes := .refl s
  ascending := .nil
  fresh := by simp
  supplied := by simp

omit [Vertex V κ] [EdgeAction α V] in
/-- The vertices that are ready and are made eligible. -/
theorem Orderly.computed (h : Orderly g (fun _ => False) out s) (hpending : s.pending = [])
    (p : Nat → Bool) :
    Computed g out s (((List.range s.graph.size).filter s.isReady).filter p)
      (s.markEligible (((List.range s.graph.size).filter s.isReady).filter p)) := by
  have hsorted : (((List.range s.graph.size).filter s.isReady).filter p).Pairwise (· < ·) :=
    (List.pairwise_lt_range.filter _).filter _
  have hready : ∀ v ∈ ((List.range s.graph.size).filter s.isReady).filter p,
      s.status[v]? = some .unclosed ∧ ∀ u, g.DependsOn v u → s.isClosed u = true :=
    fun v hv => (h.toBooks.mem_ready_iff v).1 (List.mem_filter.1 hv).1
  obtain ⟨horderly, hcloses⟩ :=
    h.markEligible (hsorted.imp Nat.ne_of_lt) fun v hv => (hready v hv).1
  refine ⟨horderly.congr (by simp), hpending, hcloses, hsorted, fun v hv => ⟨?_, ?_⟩, ?_⟩
  · intro hout
    rcases (h.out v hout).1 with hreached | hreached
    · simp [(hready v hv).1] at hreached
    · simp [(hready v hv).1] at hreached
  · intro hyielded
    have helig := (h.eligible v).2 (.inr (.inl hyielded))
    rw [(hready v hv).1] at helig
    cases helig
  · exact fun v hv u hu => hcloses u ((hready v hv).2 u hu)

/-- However many passes it takes. -/
theorem Orderly.closureWithin (passes : Nat) : ∀ {s : Schedule V κ α} {closure : List Nat},
    Orderly g (fun _ => False) out s → s.pending = [] →
    s.closureWithin passes = (s', .ok closure) → Computed g out s closure s' := by
  induction passes with
  | zero =>
    intro s closure h hpending hrun
    obtain ⟨rfl, hnil⟩ := Prod.mk.inj hrun
    obtain rfl := Except.ok.inj hnil
    exact h.computed_nil hpending
  | succ passes ih =>
    intro s closure h hpending hrun
    simp only [Schedule.closureWithin, List.partition_eq_filter_filter] at hrun
    split at hrun
    · split at hrun
      · -- nothing is ready
        split at hrun
        · cases hrun
        · obtain ⟨rfl, hnil⟩ := Prod.mk.inj hrun
          obtain rfl := Except.ok.inj hnil
          exact h.computed_nil hpending
      · obtain ⟨rfl, hclosure⟩ := Prod.mk.inj hrun
        obtain rfl := Except.ok.inj hclosure
        exact h.computed hpending _
    · -- something closes itself
      cases hclose : s.close (((List.range s.graph.size).filter s.isReady).filter s.canResolve) with
      | mk t r =>
        cases r with
        | error f =>
          rw [hclose] at hrun
          cases hrun
        | ok u =>
          rw [hclose] at hrun
          obtain ⟨ht, hcloses, honward⟩ := h.close hclose
          exact (ih (ht.congr (by simp)) (honward.pending hpending) hrun).after hcloses

/-! ## The calls -/

theorem Orderly.closeRest (h : Orderly g (fun _ => False) out s)
    (hrest : s.closeRest = (s', .ok ())) :
    Orderly g (fun _ => False) out s' ∧ Closes s s' := by
  unfold Schedule.closeRest at hrest
  split at hrest
  · have hheld : Orderly g (· ∈ s.yielded) out { s with yielded := [] } :=
      ⟨⟨h.links, h.length, h.toBooks.unclosed, fun v => by simpa using h.eligible v⟩,
        (List.nodup_append.1 h.nodup).2.1, h.ascending, h.supplied, h.out⟩
    obtain ⟨hs', hcloses, -⟩ := hheld.close hrest
    exact ⟨hs'.congr (by simp), hcloses⟩
  · obtain ⟨rfl, -⟩ := Prod.mk.inj hrest
    exact ⟨h, .refl s⟩

omit [Vertex V κ] [EdgeAction α V] in
/-- A closure that was computed goes to the list of those to be handed out. -/
theorem Computed.announced {closure : List Nat} (h : Computed g out s closure s') :
    Orderly g (fun _ => False) out { s' with pending := closure } where
  links := h.orderly.links
  length := h.orderly.length
  unclosed := h.orderly.toBooks.unclosed
  eligible := by
    intro v
    rw [h.orderly.eligible, h.pending]
    simp [or_comm]
  nodup := by
    refine List.nodup_append.2 ⟨(List.nodup_append.1 h.orderly.nodup).1,
      h.ascending.imp Nat.ne_of_lt, fun a ha b hb hab => ?_⟩
    exact (h.fresh b hb).2 (hab ▸ ha)
  ascending := h.ascending
  supplied := h.supplied
  out := fun v hv => ⟨(h.orderly.out v hv).1, fun hmem => (h.fresh v hmem).1 hv⟩

theorem Orderly.hasNext (h : Orderly g (fun _ => False) out s) {more : Bool}
    (hhas : s.hasNext = (s', .ok more)) :
    Orderly g (fun _ => False) out s' ∧ Closes s s' ∧ more = !s'.pending.isEmpty := by
  unfold Schedule.hasNext at hhas
  cases hrest : s.closeRest with
  | mk t r =>
    cases r with
    | error f =>
      rw [hrest] at hhas
      cases hhas
    | ok u =>
      obtain ⟨ht, hcloses⟩ := h.closeRest hrest
      simp only [hrest, prepare] at hhas
      by_cases hpending : t.pending.isEmpty = true
      · rw [if_pos hpending] at hhas
        cases hnext : t.nextClosure with
        | mk t' r' =>
          cases r' with
          | error f =>
            rw [hnext] at hhas
            cases hhas
          | ok closure =>
            rw [hnext] at hhas
            obtain ⟨rfl, hmore⟩ := Prod.mk.inj hhas
            have hcomputed := ht.closureWithin t.unclosed (List.isEmpty_iff.1 hpending) hnext
            exact ⟨hcomputed.announced, hcloses.trans hcomputed.closes, (Except.ok.inj hmore).symm⟩
      · rw [if_neg hpending] at hhas
        obtain ⟨rfl, hmore⟩ := Prod.mk.inj hhas
        exact ⟨ht, hcloses, (Except.ok.inj hmore).symm⟩

/-- A closure that is handed out by a schedule which becomes `s`. -/
structure HandedOut (g : DependencyGraph V κ α) (out : List Nat) (closure : List Nat)
    (s : Schedule V κ α) : Prop where
  nonempty : closure ≠ []
  ascending : closure.Pairwise (· < ·)
  fresh : ∀ v ∈ closure, v ∉ out
  isClosed : ∀ v ∈ closure, s.isClosed v = false
  supplied : ∀ v ∈ closure, ∀ u, g.DependsOn v u → s.isClosed u = true

theorem Orderly.next (h : Orderly g (fun _ => False) out s) {result : Option (List Nat)}
    (hnext : s.next = (s', .ok result)) :
    Orderly g (fun _ => False) (out ++ result.toList.flatten) s' ∧ Closes s s'
      ∧ ∀ closure ∈ result, HandedOut g out closure s' := by
  unfold Schedule.next at hnext
  cases hhas : s.hasNext with
  | mk t r =>
    cases r with
    | error f =>
      rw [hhas] at hnext
      cases hnext
    | ok more =>
      obtain ⟨ht, hcloses, hmore⟩ := h.hasNext hhas
      rw [hhas] at hnext
      cases more with
      | false =>
        obtain ⟨rfl, hnone⟩ := Prod.mk.inj hnext
        obtain rfl := Except.ok.inj hnone
        exact ⟨by simpa using ht, hcloses, by simp⟩
      | true =>
        obtain ⟨rfl, hsome⟩ := Prod.mk.inj hnext
        obtain rfl := Except.ok.inj hsome
        have helig : ∀ v ∈ t.pending, t.status[v]? = some .eligible :=
          fun v hv => (ht.eligible v).2 (.inr (.inr hv))
        have hnodup := List.nodup_append.1 ht.nodup
        refine ⟨⟨⟨ht.links, ht.length, ht.toBooks.unclosed, fun v => ?_⟩, ?_, .nil, ?_, ?_⟩,
          hcloses, ?_⟩
        · rw [ht.eligible]
          simp
        · simpa using ht.nodup
        · simp
        · intro v hv
          refine ⟨?_, List.not_mem_nil⟩
          rcases List.mem_append.1 hv with hv | hv
          · exact (ht.out v hv).1
          · exact .inl (helig v (by simpa using hv))
        · intro closure hclosure
          obtain rfl := Option.mem_some.1 hclosure
          refine ⟨?_, ht.ascending, fun v hv hout => (ht.out v hout).2 hv, fun v hv => ?_,
            ht.supplied⟩
          · intro hnil
            simp [hnil] at hmore
          · rw [Schedule.isClosed, helig v hv]
            rfl

theorem Orderly.perform (h : Orderly g (fun _ => False) out s) {call : Call}
    {result : Option (List Nat)} (hcall : s.perform call = (s', .ok result)) :
    Orderly g (fun _ => False) (out ++ result.toList.flatten) s' ∧ Closes s s'
      ∧ ∀ closure ∈ result, HandedOut g out closure s' := by
  cases call with
  | hasNext =>
    obtain ⟨rfl, hresult⟩ := Prod.mk.inj hcall
    cases hhas : s.hasNext with
    | mk t r =>
      rw [hhas] at hresult
      cases r with
      | error f => cases hresult
      | ok more =>
        obtain rfl := Except.ok.inj hresult
        obtain ⟨ht, hcloses, -⟩ := h.hasNext hhas
        exact ⟨by simpa using ht, hcloses, by simp⟩
  | next => exact h.next hcall
  | close ids =>
    obtain ⟨rfl, hresult⟩ := Prod.mk.inj hcall
    cases hclose : s.close ids with
    | mk t r =>
      rw [hclose] at hresult
      cases r with
      | error f => cases hresult
      | ok u =>
        obtain rfl := Except.ok.inj hresult
        obtain ⟨ht, hcloses, -⟩ := h.close hclose
        have hnone : Orderly g (fun _ => False) out t := ht.congr (by simp)
        exact ⟨by simpa using hnone, hcloses, by simp⟩

/-! ## Runs -/

/-- What calls did that handed out `closures`, after others that handed out
`out`. -/
structure Delivered (g : DependencyGraph V κ α) (out : List Nat) (s : Schedule V κ α)
    (closures : List (List Nat)) (s' : Schedule V κ α) : Prop where
  orderly : Orderly g (fun _ => False) (out ++ closures.flatten) s'
  closes : Closes s s'
  shape : ∀ ids ∈ closures, ids ≠ [] ∧ ids.Pairwise (· < ·)
  nodup : closures.flatten.Nodup
  fresh : ∀ v ∈ closures.flatten, v ∉ out ∧ s.isClosed v = false
  supplied : ∀ v ∈ closures.flatten, ∀ u, g.DependsOn v u → s'.isClosed u = true

omit [Vertex V κ] [EdgeAction α V] in
theorem Orderly.delivered_nil (h : Orderly g (fun _ => False) out s) : Delivered g out s [] s where
  orderly := by simpa using h
  closes := .refl s
  shape := by simp
  nodup := List.nodup_nil
  fresh := by simp
  supplied := by simp

omit [Vertex V κ] [EdgeAction α V] in
theorem delivered_one {result : Option (List Nat)}
    {t : Schedule V κ α} (horderly : Orderly g (fun _ => False) (out ++ result.toList.flatten) t)
    (hcloses : Closes s t) (hout : ∀ closure ∈ result, HandedOut g out closure t) :
    Delivered g out s result.toList t where
  orderly := horderly
  closes := hcloses
  shape := fun ids hids =>
    have h := hout ids (by simpa using hids)
    ⟨h.nonempty, h.ascending⟩
  nodup := by
    cases result with
    | none => simp
    | some closure =>
      have hnodup : closure.Nodup := (hout closure rfl).ascending.imp Nat.ne_of_lt
      simpa using hnodup
  fresh := by
    intro v hv
    obtain ⟨ids, hids, hmem⟩ := List.mem_flatten.1 hv
    have h := hout ids (by simpa using hids)
    exact ⟨h.fresh v hmem, hcloses.open_of_open (h.isClosed v hmem)⟩
  supplied := by
    intro v hv
    obtain ⟨ids, hids, hmem⟩ := List.mem_flatten.1 hv
    exact (hout ids (by simpa using hids)).supplied v hmem

omit [Vertex V κ] [EdgeAction α V] in
/-- Runs one after the other. -/
theorem Delivered.append {t : Schedule V κ α} {first rest : List (List Nat)}
    (h : Delivered g out s first t) (h' : Delivered g (out ++ first.flatten) t rest s') :
    Delivered g out s (first ++ rest) s' where
  orderly := by
    rw [List.flatten_append, ← List.append_assoc]
    exact h'.orderly
  closes := h.closes.trans h'.closes
  shape := fun ids hids => (List.mem_append.1 hids).elim (h.shape ids) (h'.shape ids)
  nodup := by
    rw [List.flatten_append]
    refine List.nodup_append.2 ⟨h.nodup, h'.nodup, fun v hv w hw hvw => ?_⟩
    exact (h'.fresh w hw).1 (List.mem_append_right _ (hvw ▸ hv))
  fresh := by
    rw [List.flatten_append]
    intro v hv
    rcases List.mem_append.1 hv with hv | hv
    · exact h.fresh v hv
    · obtain ⟨hout, hopen⟩ := h'.fresh v hv
      exact ⟨fun hmem => hout (List.mem_append_left _ hmem), h.closes.open_of_open hopen⟩
  supplied := by
    rw [List.flatten_append]
    intro v hv u hu
    rcases List.mem_append.1 hv with hv | hv
    · exact h'.closes u (h.supplied v hv u hu)
    · exact h'.supplied v hv u hu

/-- Any calls that do not fault. -/
theorem Orderly.performAll {calls : List Call} : ∀ {out : List Nat} {s : Schedule V κ α}
    {closures : List (List Nat)}, Orderly g (fun _ => False) out s →
    s.performAll calls = (s', .ok closures) → Delivered g out s closures s' := by
  induction calls with
  | nil =>
    intro out s closures h hrun
    obtain ⟨rfl, hnil⟩ := Prod.mk.inj hrun
    obtain rfl := Except.ok.inj hnil
    exact h.delivered_nil
  | cons call calls ih =>
    intro out s closures h hrun
    unfold Schedule.performAll at hrun
    split at hrun
    · cases hrun
    · next t result hcall =>
      split at hrun
      · cases hrun
      · next s'' rest hrest =>
        obtain ⟨rfl, hclosures⟩ := Prod.mk.inj hrun
        obtain rfl := Except.ok.inj hclosures
        obtain ⟨ht, hcloses, hout⟩ := h.perform hcall
        exact (delivered_one ht hcloses hout).append (ih ht hrest)

/-- **What the owner of a schedule can rely on**, whatever calls were made before,
as long as none of them faulted. -/
theorem performAll_keeps_books {options : OrderingOptions} {calls : List Call}
    {closures : List (List Nat)} (hrun : (start g options).performAll calls = (s, .ok closures)) :
    (s.unclosed = (List.range g.size).countP fun v => !s.isClosed v)
    ∧ (∀ v, s.status[v]? = some .eligible ↔ v ∈ s.yielded ∨ v ∈ s.pending)
    ∧ (s.yielded ++ s.pending).Nodup
    ∧ (∀ ids ∈ closures, ids ≠ [] ∧ ids.Pairwise (· < ·))
    ∧ closures.flatten.Nodup
    ∧ (∀ ids ∈ closures, ∀ v ∈ ids, ∀ u, g.DependsOn v u → s.isClosed u = true)
    -- and whatever calls are made from here on
    ∧ ∀ more s' closures', s.performAll more = (s', .ok closures') →
        (∀ v, s.isClosed v = true → s'.isClosed v = true)
        ∧ (∀ ids ∈ closures', ∀ v ∈ ids, s.isClosed v = false)
        ∧ ∀ ids ∈ closures, ∀ ids' ∈ closures', ids.Disjoint ids' := by
  have h := (orderly_start g options).performAll hrun
  have hbooks := h.orderly.toBooks
  refine ⟨hbooks.unclosed_eq_countP, fun v => ?_, h.orderly.nodup, h.shape, h.nodup, ?_, ?_⟩
  · rw [hbooks.eligible]
    simp
  · exact fun ids hids v hv => h.supplied v (List.mem_flatten.2 ⟨ids, hids, hv⟩)
  · intro more s' closures' hmore
    have h' := h.orderly.performAll hmore
    refine ⟨h'.closes, fun ids hids v hv => ?_, fun ids hids ids' hids' v hv hv' => ?_⟩
    · exact (h'.fresh v (List.mem_flatten.2 ⟨ids, hids, hv⟩)).2
    · refine (h'.fresh v (List.mem_flatten.2 ⟨ids', hids', hv'⟩)).1 ?_
      simpa using ⟨ids, hids, hv⟩

/-- `b` depends on `a`, `d` on `b` and on `c`. -/
def lateJoin : DependencyGraph Bare String Signal where
  slots := [⟨⟨"a"⟩, "a", [], [(1, 0)]⟩, ⟨⟨"b"⟩, "b", [(0, 0)], [(3, 1)]⟩,
    ⟨⟨"c"⟩, "c", [], [(3, 2)]⟩, ⟨⟨"d"⟩, "d", [(1, 1), (2, 2)], []⟩]
  edges := [some ⟨0, 1, none⟩, some ⟨1, 3, none⟩, some ⟨2, 3, none⟩]
  edgeCount := 3

/-- `c` is closed after it was announced and `d` before its turn, and both again. -/
theorem lateJoin_keeps_books :
    ∃ s, (start lateJoin {}).performAll
        [.hasNext, .close [2], .close [3, 2], .next, .hasNext, .close [3], .next]
          = (s, .ok [[0], [1]])
      ∧ s.unclosed = 1 ∧ (s.yielded ++ s.pending).Nodup
      ∧ (∀ v, s.status[v]? = some .eligible ↔ v ∈ s.yielded ∨ v ∈ s.pending)
      ∧ ∀ u, lateJoin.DependsOn 1 u → s.isClosed u = true := by
  have hrun : (start lateJoin {}).performAll
      [.hasNext, .close [2], .close [3, 2], .next, .hasNext, .close [3], .next]
        = (_, .ok [[0], [1]]) := rfl
  obtain ⟨-, heligible, hnodup, -, -, hsupplied, -⟩ := performAll_keeps_books hrun
  exact ⟨_, hrun, rfl, hnodup, heligible, hsupplied [1] (by decide) 1 (by decide)⟩

end Schedule

end Topiary
