/-
Topiary.Proofs.Dependency.Outline — a graph as a list of vertices and a set of
pairs.

An outline has none of the storage of a graph: the vertices in order of
insertion, the set of pairs of which the first depends on the second, and beside
each pair the number and the action of its edge.

* `Outline` — the abstract graph with its operations.
* `GraphCall`, `GraphReply` — the calls that change a graph, and their answers.
* `Outline.Retired` — a number of an edge that was taken out; it stays so, and no
  later call answers it (`Retired.performAll`).
* `lt_issued_of_depend` — a number that is answered was given out.
-/
import Mathlib.Data.Finset.Card
import Mathlib.Data.Finset.Sort
import Topiary.Dependency.Graph

namespace Topiary

/-! ## Outlines -/

/-- A dependency graph as a list of vertices and a set of pairs. -/
structure Outline (V α : Type) where
  /-- In order of insertion. -/
  vertices : List V
  /-- The first of a pair depends on the second. -/
  pairs : Finset (Nat × Nat)
  /-- The number of the edge of a pair that is there. -/
  number : Nat × Nat → Nat
  /-- The action of the edge of a pair that is there. -/
  action : Nat × Nat → Option α
  /-- How many numbers of edges were given out. -/
  issued : Nat

/-- A call that changes a graph. -/
inductive GraphCall (V α : Type) where
  | add (v : V)
  | addDependency (sink source : V) (action : Option α)
  | depend (sink source : Nat) (action : Option α)
  | remove (sink source : Nat)
deriving DecidableEq, Repr

/-- What such a call answers. -/
inductive GraphReply where
  | vertex (id : Nat)
  | edge (id : Option Nat)
  | removed (found : Bool)
deriving DecidableEq, Repr

namespace Outline

variable {V κ α : Type}

/-- Without vertices. -/
def empty : Outline V α := ⟨[], ∅, fun _ => 0, fun _ => none, 0⟩

/-- The place of the vertex with this key. -/
def idOf? [Vertex V κ] [DecidableEq κ] (m : Outline V α) (key : κ) : Option Nat :=
  m.vertices.findIdx? fun v => Vertex.key v = key

/-- What a vertex depends on, ascending. -/
def dependencies (m : Outline V α) (v : Nat) : List Nat :=
  ((m.pairs.filter (·.1 = v)).image Prod.snd).sort (· ≤ ·)

/-- What depends on a vertex, ascending. -/
def dependents (m : Outline V α) (u : Nat) : List Nat :=
  ((m.pairs.filter (·.2 = u)).image Prod.fst).sort (· ≤ ·)

/-- A repeated key keeps the first vertex and its place. -/
def add [Vertex V κ] [DecidableEq κ] (m : Outline V α) (v : V) : Outline V α × Nat :=
  match m.idOf? (Vertex.key v) with
  | some id => (m, id)
  | none => ({ m with vertices := m.vertices ++ [v] }, m.vertices.length)

/-- Give a pair an action in place of the one it has. -/
def withAction (m : Outline V α) (p : Nat × Nat) : Option α → Outline V α
  | none => m
  | some a => { m with action := Function.update m.action p (some a) }

/-- A new pair gets the next number. -/
def withPair (m : Outline V α) (p : Nat × Nat) (action : Option α) : Outline V α where
  vertices := m.vertices
  pairs := insert p m.pairs
  number := Function.update m.number p m.issued
  action := Function.update m.action p action
  issued := m.issued + 1

/-- A pair of a vertex with itself is rejected.  A pair that is there keeps its
number and changes at most its action. -/
def depend (m : Outline V α) (sink source : Nat) (action : Option α) :
    Outline V α × Option Nat :=
  if sink = source then (m, none)
  else if (sink, source) ∈ m.pairs then
    (m.withAction (sink, source) action, some (m.number (sink, source)))
  else (m.withPair (sink, source) action, some m.issued)

theorem length_le_add [Vertex V κ] [DecidableEq κ] (m : Outline V α) (v : V) :
    m.vertices.length ≤ (m.add v).1.vertices.length := by
  unfold add
  split
  · exact Nat.le_refl _
  · simp

/-- The place of a vertex that was added is in the list. -/
theorem lt_length_add [Vertex V κ] [DecidableEq κ] (m : Outline V α) (v : V) :
    (m.add v).2 < (m.add v).1.vertices.length := by
  unfold add
  split
  · next id hid => exact (List.findIdx?_eq_some_iff_getElem.1 hid).1
  · simp

/-- Take a pair out, and tell whether it was there. -/
def remove (m : Outline V α) (sink source : Nat) : Outline V α × Bool :=
  ({ m with pairs := m.pairs.erase (sink, source) }, (sink, source) ∈ m.pairs)

/-- What a call does to an outline. -/
def perform [Vertex V κ] [DecidableEq κ] (m : Outline V α) :
    GraphCall V α → Outline V α × GraphReply
  | .add v => ((m.add v).1, .vertex (m.add v).2)
  | .addDependency sink source action =>
    let m₁ := m.add sink
    let m₂ := m₁.1.add source
    let m₃ := m₂.1.depend m₁.2 m₂.2 action
    (m₃.1, .edge m₃.2)
  | .depend sink source action =>
    ((m.depend sink source action).1, .edge (m.depend sink source action).2)
  | .remove sink source => ((m.remove sink source).1, .removed (m.remove sink source).2)

/-- Calls one after the other, with their answers. -/
def performAll [Vertex V κ] [DecidableEq κ] :
    Outline V α → List (GraphCall V α) → Outline V α × List GraphReply
  | m, [] => (m, [])
  | m, call :: calls =>
    let r := performAll (m.perform call).1 calls
    (r.1, (m.perform call).2 :: r.2)

/-- The numbers of vertices in a call are taken from the graph. -/
def Admits (m : Outline V α) : GraphCall V α → Prop
  | .add _ | .addDependency .. => True
  | .depend sink source _ | .remove sink source =>
    sink < m.vertices.length ∧ source < m.vertices.length

/-- At each call the numbers are taken from the graph as it then is. -/
def AdmitsAll [Vertex V κ] [DecidableEq κ] : Outline V α → List (GraphCall V α) → Prop
  | _, [] => True
  | m, call :: calls => m.Admits call ∧ AdmitsAll (m.perform call).1 calls

/-! ## Numbers of edges that are gone -/

/-- The number was given out, and no pair that is there has it. -/
structure Retired (m : Outline V α) (id : Nat) : Prop where
  issued : id < m.issued
  gone : ∀ p ∈ m.pairs, m.number p ≠ id

theorem retired_add [Vertex V κ] [DecidableEq κ] {m : Outline V α} {id : Nat} (h : m.Retired id)
    (v : V) : (m.add v).1.Retired id := by
  unfold add
  split
  · exact h
  · exact ⟨h.issued, h.gone⟩

theorem Retired.withAction {m : Outline V α} {id : Nat} (h : m.Retired id) (p : Nat × Nat)
    (action : Option α) : (m.withAction p action).Retired id := by
  cases action with
  | none => exact h
  | some a => exact ⟨h.issued, h.gone⟩

theorem Retired.withPair {m : Outline V α} {id : Nat} (h : m.Retired id) (p : Nat × Nat)
    (action : Option α) : (m.withPair p action).Retired id where
  issued := Nat.lt_succ_of_lt h.issued
  gone := by
    intro q hq
    show Function.update m.number p m.issued q ≠ id
    by_cases hqp : q = p
    · rw [hqp, Function.update_self]
      exact Nat.ne_of_gt h.issued
    · rw [Function.update_of_ne hqp]
      exact h.gone q (Finset.mem_of_mem_insert_of_ne hq hqp)

theorem Retired.depend {m : Outline V α} {id : Nat} (h : m.Retired id) (sink source : Nat)
    (action : Option α) : (m.depend sink source action).1.Retired id
      ∧ (m.depend sink source action).2 ≠ some id := by
  unfold Outline.depend
  split
  · exact ⟨h, by simp⟩
  · split
    · next hmem => exact ⟨h.withAction _ action, by simpa using h.gone _ hmem⟩
    · exact ⟨h.withPair _ action, by simpa using Nat.ne_of_gt h.issued⟩

theorem Retired.remove {m : Outline V α} {id : Nat} (h : m.Retired id) (sink source : Nat) :
    (m.remove sink source).1.Retired id :=
  ⟨h.issued, fun p hp => h.gone p (Finset.mem_of_mem_erase hp)⟩

theorem Retired.perform [Vertex V κ] [DecidableEq κ] {m : Outline V α} {id : Nat}
    (h : m.Retired id) (call : GraphCall V α) : (m.perform call).1.Retired id
      ∧ (m.perform call).2 ≠ .edge (some id) := by
  cases call with
  | add v => exact ⟨retired_add h v, by simp [Outline.perform]⟩
  | addDependency sink source action =>
    obtain ⟨hretired, hne⟩ := (retired_add (retired_add h sink) source).depend
      (m.add sink).2 ((m.add sink).1.add source).2 action
    exact ⟨hretired, by simpa [Outline.perform] using hne⟩
  | depend sink source action =>
    obtain ⟨hretired, hne⟩ := h.depend sink source action
    exact ⟨hretired, by simpa [Outline.perform] using hne⟩
  | remove sink source => exact ⟨h.remove sink source, by simp [Outline.perform]⟩

/-- A number that is gone stays gone and is not given out again. -/
theorem Retired.performAll [Vertex V κ] [DecidableEq κ] {id : Nat} {calls : List (GraphCall V α)} :
    ∀ {m : Outline V α}, m.Retired id → (m.performAll calls).1.Retired id
      ∧ .edge (some id) ∉ (m.performAll calls).2 := by
  induction calls with
  | nil => exact fun h => ⟨h, List.not_mem_nil⟩
  | cons call calls ih =>
    intro m h
    obtain ⟨hretired, hne⟩ := h.perform call
    obtain ⟨hrest, hnot⟩ := ih hretired
    exact ⟨hrest, by simp [Outline.performAll, hnot, Ne.symm hne]⟩

/-! ## Numbers of edges that are there -/

theorem issued_add [Vertex V κ] [DecidableEq κ] (m : Outline V α) (v : V) :
    (m.add v).1.issued = m.issued := by
  unfold add
  split <;> rfl

theorem issued_withAction (m : Outline V α) (p : Nat × Nat) (action : Option α) :
    (m.withAction p action).issued = m.issued := by
  cases action <;> rfl

theorem issued_depend (m : Outline V α) (sink source : Nat) (action : Option α) :
    m.issued ≤ (m.depend sink source action).1.issued := by
  unfold depend
  split
  · exact Nat.le_refl _
  · split
    · exact Nat.le_of_eq (issued_withAction m _ action).symm
    · exact Nat.le_succ _

theorem issued_perform [Vertex V κ] [DecidableEq κ] (m : Outline V α) (call : GraphCall V α) :
    m.issued ≤ (m.perform call).1.issued := by
  cases call with
  | add v => exact Nat.le_of_eq (m.issued_add v).symm
  | addDependency sink source action =>
    have hadd : ((m.add sink).1.add source).1.issued = m.issued := by rw [issued_add, issued_add]
    exact hadd ▸ issued_depend _ _ _ action
  | depend sink source action => exact m.issued_depend sink source action
  | remove sink source => exact Nat.le_refl _

/-- The number of an edge that is there was given out before. -/
theorem lt_issued_of_depend {m : Outline V α} (h : ∀ p ∈ m.pairs, m.number p < m.issued)
    {sink source id : Nat} {action : Option α}
    (hid : (m.depend sink source action).2 = some id) :
    id < (m.depend sink source action).1.issued := by
  unfold depend at hid ⊢
  split at hid
  · cases hid
  · next hne =>
    rw [if_neg hne]
    split at hid
    · next hmem =>
      rw [if_pos hmem, ← Option.some.inj hid, issued_withAction]
      exact h _ hmem
    · next hnew =>
      rw [if_neg hnew, ← Option.some.inj hid]
      exact Nat.lt_succ_self _

end Outline

end Topiary
