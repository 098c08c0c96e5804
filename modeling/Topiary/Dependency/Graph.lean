/-
Topiary.Dependency.Graph — dependency graphs.

An edge from a source to a sink says that the sink depends on the source.
Vertices are numbered in order of insertion, and so are edges; the number
of an edge that was removed is never used again.

* `DependencyGraph.add` — a repeated key keeps the first vertex.
* `DependencyGraph.depend` — a repeated edge keeps its number, and a new
  action takes the place of the old one; no vertex depends on itself.
* `DependencyGraph.remove` — take an edge out.
* `DependencyGraph.resolve` — resolve a vertex and fire the actions of its
  outgoing edges in ascending order of the sinks.
-/
import Topiary.Dependency.Vertex
import Topiary.Fault

namespace Topiary

/-! ## Links in ascending order -/

/-- The neighbours of a vertex with the edges to them, in ascending order
of the neighbours. -/
abbrev Links := List (Nat × Nat)

namespace Links

/-- The edge to a neighbour. -/
def edge? (links : Links) (neighbour : Nat) : Option Nat := links.lookup neighbour

/-- Add a neighbour in its place. -/
def add (neighbour edge : Nat) : Links → Links
  | [] => [(neighbour, edge)]
  | (n, e) :: links =>
    if neighbour < n then (neighbour, edge) :: (n, e) :: links
    else if neighbour = n then (neighbour, edge) :: links
    else (n, e) :: add neighbour edge links

/-- Take a neighbour out. -/
def drop (neighbour : Nat) (links : Links) : Links :=
  links.filter fun (n, _) => n != neighbour

end Links

/-! ## Graphs -/

/-- A vertex in its graph. -/
structure Slot (V κ : Type) where
  vertex : V
  /-- The key under which the vertex was added. -/
  key : κ
  /-- The edges at which the vertex is the sink, by source. -/
  incoming : Links
  /-- The edges at which the vertex is the source, by sink. -/
  outgoing : Links
deriving DecidableEq, Repr

/-- An edge: `sink` depends on `source`. -/
structure Edge (α : Type) where
  source : Nat
  sink : Nat
  action : Option α
deriving DecidableEq, Repr

/-- A dependency graph. -/
structure DependencyGraph (V κ α : Type) where
  slots : List (Slot V κ)
  /-- All edges ever added, by number; removed ones are gone. -/
  edges : List (Option (Edge α))
  /-- The number of edges that are there. -/
  edgeCount : Nat
deriving DecidableEq, Repr

namespace DependencyGraph

variable {V κ α : Type}

/-- A graph without vertices. -/
def empty : DependencyGraph V κ α := ⟨[], [], 0⟩

instance : Inhabited (DependencyGraph V κ α) := ⟨empty⟩

/-! ### Vertices -/

/-- The number of vertices. -/
def size (g : DependencyGraph V κ α) : Nat := g.slots.length

/-- The number of the vertex with this key. -/
def idOf? [DecidableEq κ] (g : DependencyGraph V κ α) (key : κ) : Option Nat :=
  g.slots.findIdx? fun slot => slot.key = key

/-- The slot with this number. -/
def slot (g : DependencyGraph V κ α) (id : Nat) : Except Fault (Slot V κ) :=
  match g.slots[id]? with
  | none => .error (.misuse (.foreignVertex id))
  | some slot => .ok slot

/-- The vertex with this number. -/
def vertex (g : DependencyGraph V κ α) (id : Nat) : Except Fault V := do
  return (← g.slot id).vertex

/-- The vertex with this key. -/
def get? [DecidableEq κ] (g : DependencyGraph V κ α) (key : κ) : Option V := do
  let id ← g.idOf? key
  let slot ← g.slots[id]?
  return slot.vertex

/-- All vertices in order of insertion. -/
def vertices (g : DependencyGraph V κ α) : List V := g.slots.map Slot.vertex

/-- Change a slot. -/
def modifySlot (g : DependencyGraph V κ α) (id : Nat) (f : Slot V κ → Slot V κ) :
    DependencyGraph V κ α :=
  { g with slots := g.slots.modify id f }

/-- Change a vertex; its key must stay the same. -/
def modifyVertex (g : DependencyGraph V κ α) (id : Nat) (f : V → V) :
    DependencyGraph V κ α :=
  g.modifySlot id fun slot => { slot with vertex := f slot.vertex }

/-- Add a vertex and return its number, or return the number of the vertex
that has its key already. -/
def add [Vertex V κ] [DecidableEq κ] (g : DependencyGraph V κ α) (v : V) :
    DependencyGraph V κ α × Nat :=
  match g.idOf? (Vertex.key v) with
  | some id => (g, id)
  | none => ({ g with slots := g.slots ++ [⟨v, Vertex.key v, [], []⟩] }, g.size)

/-! ### Edges -/

/-- The edge with this number. -/
def edge? (g : DependencyGraph V κ α) (id : Nat) : Option (Edge α) :=
  g.edges[id]?.join

/-- The edge by which `sink` depends on `source`. -/
def edgeBetween? (g : DependencyGraph V κ α) (sink source : Nat) : Option Nat := do
  let slot ← g.slots[sink]?
  slot.incoming.edge? source

/-- Give an edge an action in place of the one it has. -/
def setAction (g : DependencyGraph V κ α) (id : Nat) (action : Option α) :
    DependencyGraph V κ α :=
  match action with
  | none => g
  | some a =>
    { g with edges := g.edges.modify id (Option.map fun e => { e with action := some a }) }

/-- Add the edge by which `sink` depends on `source`. -/
def addEdge (g : DependencyGraph V κ α) (sink source : Nat) (action : Option α) :
    DependencyGraph V κ α :=
  let id := g.edges.length
  let g := g.modifySlot sink fun slot =>
    { slot with incoming := slot.incoming.add source id }
  let g := g.modifySlot source fun slot =>
    { slot with outgoing := slot.outgoing.add sink id }
  { g with edges := g.edges ++ [some ⟨source, sink, action⟩], edgeCount := g.edgeCount + 1 }

/-- Let `sink` depend on `source` and return the number of the edge; no
vertex depends on itself. -/
def depend (g : DependencyGraph V κ α) (sink source : Nat) (action : Option α) :
    Except Fault (DependencyGraph V κ α × Option Nat) :=
  if sink < g.size ∧ source < g.size then
    if sink = source then .ok (g, none)
    else
      match g.edgeBetween? sink source with
      | some id => .ok (g.setAction id action, some id)
      | none => .ok (g.addEdge sink source action, some g.edges.length)
  else .error (.misuse .vertexNotInGraph)

/-- Let one vertex depend on another; each is added if it is new. -/
def addDependency [Vertex V κ] [DecidableEq κ] (g : DependencyGraph V κ α)
    (sink source : V) (action : Option α) :
    Except Fault (DependencyGraph V κ α × Option Nat) :=
  let (g, sink) := g.add sink
  let (g, source) := g.add source
  g.depend sink source action

/-- Take out the edge by which `sink` depends on `source`, and tell whether
there was one. -/
def remove (g : DependencyGraph V κ α) (sink source : Nat) :
    Except Fault (DependencyGraph V κ α × Bool) := do
  let slot ← g.slot sink
  match slot.incoming.edge? source with
  | none => return (g, false)
  | some id =>
    let g := g.modifySlot sink fun slot =>
      { slot with incoming := slot.incoming.drop source }
    let _ ← g.slot source
    let g := g.modifySlot source fun slot =>
      { slot with outgoing := slot.outgoing.drop sink }
    return ({ g with edges := g.edges.set id none, edgeCount := g.edgeCount - 1 }, true)

/-- The vertices that a vertex depends on, ascending. -/
def dependencies (g : DependencyGraph V κ α) (id : Nat) : Except Fault (List Nat) := do
  return (← g.slot id).incoming.map Prod.fst

/-- The vertices that depend on a vertex, ascending. -/
def dependents (g : DependencyGraph V κ α) (id : Nat) : Except Fault (List Nat) := do
  return (← g.slot id).outgoing.map Prod.fst

/-- The number of vertices that a vertex depends on. -/
def indegree (g : DependencyGraph V κ α) (id : Nat) : Except Fault Nat := do
  return (← g.slot id).incoming.length

/-- The number of vertices that depend on a vertex. -/
def outdegree (g : DependencyGraph V κ α) (id : Nat) : Except Fault Nat := do
  return (← g.slot id).outgoing.length

/-! ### Resolving -/

/-- Fire the action of an edge, if it has one. -/
def fire [EdgeAction α V] (g : DependencyGraph V κ α) (id : Nat) :
    DependencyGraph V κ α :=
  match g.edge? id with
  | some ⟨source, sink, some a⟩ =>
    match g.slots[source]?, g.slots[sink]? with
    | some tail, some head =>
      let (v, a) := EdgeAction.fire a tail.vertex head.vertex
      (g.modifyVertex sink fun _ => v).setAction id (some a)
    | _, _ => g
  | _ => g

/-- Resolve a vertex, then fire the actions of its outgoing edges. -/
def resolve [Vertex V κ] [EdgeAction α V] (g : DependencyGraph V κ α) (id : Nat) :
    Except Fault (DependencyGraph V κ α) := do
  let slot ← g.slot id
  let g := g.modifyVertex id Vertex.resolve
  return slot.outgoing.foldl (fun g link => g.fire link.2) g

end DependencyGraph

end Topiary
