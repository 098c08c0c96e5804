/-
Topiary.Dependency.Schedule — closing a dependency graph in batches.

A `Schedule` goes through a graph in closures: batches of vertices whose
dependencies are all closed.  A vertex is unclosed, then eligible (handed
out, or about to be), then closed.  Closing a vertex resolves it and fires
the actions of its outgoing edges.  Vertices that can close themselves are
never handed out: they are closed as soon as their dependencies are.

* `Schedule.close` — close vertices; closed ones are passed over.
* `Schedule.nextClosure` — close what closes itself until nothing does, and
  make all other vertices without unclosed dependencies eligible.
* `Schedule.hasNext`, `Schedule.next` — with `autoClose` the rest of the
  last closure is closed first.

A schedule whose vertices wait for each other faults.  Operations return
the schedule as it stands together with a result or a fault.
-/
import Topiary.Dependency.Graph

namespace Topiary

/-- How far a vertex has come. -/
inductive Status where
  | unclosed
  | eligible
  | closed
deriving DecidableEq, Repr

/-- Whether the rest of a closure is closed when the next one is asked for. -/
structure OrderingOptions where
  autoClose : Bool := true
deriving DecidableEq, Repr

/-- A pass through a dependency graph. -/
structure Schedule (V κ α : Type) where
  graph : DependencyGraph V κ α
  options : OrderingOptions
  status : List Status
  /-- The number of vertices that are not closed. -/
  unclosed : Nat
  /-- The vertices that were handed out and are not closed. -/
  yielded : List Nat
  /-- The closure that is computed and not handed out. -/
  pending : List Nat
deriving DecidableEq, Repr

namespace Schedule

variable {V κ α : Type}

/-- A step of a schedule: the schedule afterwards, and a result or a fault. -/
abbrev Step (V κ α β : Type) := Schedule V κ α × Except Fault β

/-- A pass through a graph from the beginning. -/
def start (g : DependencyGraph V κ α) (options : OrderingOptions) : Schedule V κ α :=
  ⟨g, options, List.replicate g.size .unclosed, g.size, [], []⟩

/-- The vertex is closed; vertices outside of the graph are not. -/
def isClosed (s : Schedule V κ α) (id : Nat) : Bool := s.status[id]? == some .closed

/-- The vertex is unclosed and all its dependencies are closed. -/
def isReady (s : Schedule V κ α) (id : Nat) : Bool :=
  s.status[id]? == some .unclosed &&
    match s.graph.slots[id]? with
    | none => false
    | some slot => slot.incoming.all fun link => s.isClosed link.1

/-- The vertex can close itself. -/
def canResolve [Vertex V κ] (s : Schedule V κ α) (id : Nat) : Bool :=
  match s.graph.slots[id]? with
  | none => false
  | some slot => Vertex.canResolve slot.vertex

/-! ## Closing -/

/-- Close one vertex.  A closed one is passed over. -/
def closeOne [Vertex V κ] [EdgeAction α V] (s : Schedule V κ α) (id : Nat) :
    Except Fault (Schedule V κ α) :=
  match s.status[id]? with
  | none => .error (.misuse (.foreignVertex id))
  | some .closed => .ok s
  | some _ => do
    let graph ← s.graph.resolve id
    return { s with
      graph
      status := s.status.set id .closed
      unclosed := s.unclosed - 1
      yielded := s.yielded.filter (· != id)
      pending := s.pending.filter (· != id) }

/-- Close vertices in order. -/
def close [Vertex V κ] [EdgeAction α V] : Schedule V κ α → List Nat → Step V κ α Unit
  | s, [] => (s, .ok ())
  | s, id :: ids =>
    match s.closeOne id with
    | .error f => (s, .error f)
    | .ok s => close s ids

/-! ## Closures -/

/-- Nothing is eligible although something is unclosed: what is left waits
for itself. -/
def checkCycle (s : Schedule V κ α) : Except Fault Unit :=
  if s.status.contains .eligible || s.unclosed == 0 then .ok ()
  else .error (.misuse (.dependencyCycle s.unclosed))

/-- Make vertices eligible. -/
def markEligible (s : Schedule V κ α) (ids : List Nat) : Schedule V κ α :=
  { s with status := ids.foldl (fun status id => status.set id .eligible) s.status }

/-- Close what closes itself, at most `passes` times, until nothing does.
Every pass closes a vertex, so as many passes as there are unclosed vertices
are enough. -/
def closureWithin [Vertex V κ] [EdgeAction α V] :
    (passes : Nat) → Schedule V κ α → Step V κ α (List Nat)
  | 0, s => (s, .ok [])
  | passes + 1, s =>
    let ready := (List.range s.graph.size).filter s.isReady
    let (resolvable, closure) := ready.partition s.canResolve
    if resolvable.isEmpty then
      if closure.isEmpty then
        match s.checkCycle with
        | .error f => (s, .error f)
        | .ok () => (s, .ok [])
      else (s.markEligible closure, .ok closure)
    else
      match s.close resolvable with
      | (s, .error f) => (s, .error f)
      | (s, .ok ()) => closureWithin passes s

/-- The vertices that become eligible now. -/
def nextClosure [Vertex V κ] [EdgeAction α V] (s : Schedule V κ α) :
    Step V κ α (List Nat) :=
  closureWithin s.unclosed s

/-- Close the rest of the last closure, if that is asked for. -/
def closeRest [Vertex V κ] [EdgeAction α V] (s : Schedule V κ α) : Step V κ α Unit :=
  if s.options.autoClose && !s.yielded.isEmpty then
    close { s with yielded := [] } s.yielded
  else (s, .ok ())

/-- Compute the next closure, unless it is there. -/
def prepare [Vertex V κ] [EdgeAction α V] (s : Schedule V κ α) : Step V κ α Unit :=
  if s.pending.isEmpty then
    match s.nextClosure with
    | (s, .error f) => (s, .error f)
    | (s, .ok closure) => ({ s with pending := closure }, .ok ())
  else (s, .ok ())

/-- Whether there is another closure. -/
def hasNext [Vertex V κ] [EdgeAction α V] (s : Schedule V κ α) : Step V κ α Bool :=
  match s.closeRest with
  | (s, .error f) => (s, .error f)
  | (s, .ok ()) =>
    match s.prepare with
    | (s, .error f) => (s, .error f)
    | (s, .ok ()) => (s, .ok (!s.pending.isEmpty))

/-- The next closure, in order of insertion. -/
def next [Vertex V κ] [EdgeAction α V] (s : Schedule V κ α) :
    Step V κ α (Option (List Nat)) :=
  match s.hasNext with
  | (s, .error f) => (s, .error f)
  | (s, .ok false) => (s, .ok none)
  | (s, .ok true) =>
    ({ s with yielded := s.yielded ++ s.pending, pending := [] }, .ok (some s.pending))

/-- At most `count` further closures. -/
def take [Vertex V κ] [EdgeAction α V] :
    (count : Nat) → Schedule V κ α → Step V κ α (List (List Nat))
  | 0, s => (s, .ok [])
  | count + 1, s =>
    match s.next with
    | (s, .error f) => (s, .error f)
    | (s, .ok none) => (s, .ok [])
    | (s, .ok (some closure)) =>
      match take count s with
      | (s, .error f) => (s, .error f)
      | (s, .ok closures) => (s, .ok (closure :: closures))

/-- All further closures.  Each holds a vertex that was in none before. -/
def drain [Vertex V κ] [EdgeAction α V] (s : Schedule V κ α) :
    Step V κ α (List (List Nat)) :=
  take (s.graph.size + 1) s

end Schedule

end Topiary
