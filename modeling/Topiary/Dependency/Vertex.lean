/-
Topiary.Dependency.Vertex — what can stand in a dependency graph.

A vertex has a key, may be able to close itself, and is resolved once when
it is closed.  An edge may carry an action that is fired when its source is
closed; it reads the source and writes to the sink.

* `SimpleVertex` — a value that is its own key and counts resolutions.
* `Target` — a key with a log of what has reached it.
* `Bare` — a key and nothing else.
* `Signal` — the actions between such vertices.
-/

namespace Topiary

/-- Types of vertices with keys in `κ`. -/
class Vertex (V : Type) (κ : outParam Type) where
  /-- Vertices of equal key are the same vertex. -/
  key : V → κ
  /-- The vertex can be closed as soon as its dependencies are. -/
  canResolve : V → Bool
  /-- What closing does to the vertex. -/
  resolve : V → V

/-- Types of edge actions between vertices.  Firing an action writes to the
sink and may change the action itself. -/
class EdgeAction (α V : Type) where
  fire : α → (source sink : V) → V × α

/-! ## Kinds of vertices -/

/-- A value that is its own key. -/
structure SimpleVertex (T : Type) where
  value : T
  /-- The vertex closes itself. -/
  autoResolve : Bool
  /-- How often the vertex was resolved. -/
  resolved : Nat
deriving DecidableEq, Repr

namespace SimpleVertex

variable {T : Type}

/-- A vertex that waits to be closed. -/
def ofValue (value : T) : SimpleVertex T := ⟨value, false, 0⟩

/-- The vertex was resolved at least once. -/
def isResolved (v : SimpleVertex T) : Bool := v.resolved > 0

instance : Vertex (SimpleVertex T) T where
  key := value
  canResolve := autoResolve
  resolve := fun v => { v with resolved := v.resolved + 1 }

end SimpleVertex

/-- A key with a log. -/
structure Target where
  name : String
  /-- The vertex closes itself in any case. -/
  auto : Bool
  /-- If positive, the vertex closes itself once its log is this long. -/
  need : Nat
  log : List String
  /-- How often the vertex was resolved. -/
  resolved : Nat
deriving DecidableEq, Repr

namespace Target

/-- Add a line to the log. -/
def write (t : Target) (line : String) : Target := { t with log := t.log ++ [line] }

/-- The vertex can close itself. -/
def isReady (t : Target) : Bool :=
  t.auto || (t.need > 0 && t.need ≤ t.log.length)

instance : Vertex Target String where
  key := name
  canResolve := isReady
  resolve := fun t =>
    { t.write ("resolve#" ++ toString (t.resolved + 1)) with resolved := t.resolved + 1 }

end Target

/-- A key and nothing else; it never closes itself. -/
structure Bare where
  name : String
deriving DecidableEq, Repr

instance : Vertex Bare String where
  key := Bare.name
  canResolve := fun _ => false
  resolve := id

/-! ## Actions -/

/-- What a signal does to its sink. -/
inductive SignalKind where
  /-- Let the sink close itself from now on, or no longer. -/
  | setAuto (auto : Bool)
  /-- Write the source's name and how often the signal was sent. -/
  | count
  /-- Write a text and the source's name. -/
  | text (text : String)
deriving DecidableEq, Repr

/-- An action that counts how often it was fired. -/
structure Signal where
  kind : SignalKind
  sent : Nat
deriving DecidableEq, Repr

namespace Signal

/-- A signal that was not sent yet. -/
def ofKind (kind : SignalKind) : Signal := ⟨kind, 0⟩

/-- The line that a signal writes when it is sent for the `n`-th time. -/
def line? (source : String) (n : Nat) : SignalKind → Option String
  | .setAuto _ => none
  | .count => some (source ++ "#" ++ toString n)
  | .text text => some (text ++ ":" ++ source)

/-- Send a signal to a sink on which its flag can be set and to which a
line can be written. -/
def send {V : Type} (s : Signal) (source : String) (setAuto : Bool → V → V)
    (write : String → V → V) (sink : V) : V × Signal :=
  let sent := s.sent + 1
  let sink :=
    match s.kind with
    | .setAuto auto => setAuto auto sink
    | kind =>
      match line? source sent kind with
      | none => sink
      | some line => write line sink
  (sink, { s with sent })

instance : EdgeAction Signal (SimpleVertex String) where
  fire := fun s source sink =>
    s.send source.value (fun auto v => { v with autoResolve := auto }) (fun _ v => v) sink

instance : EdgeAction Signal Target where
  fire := fun s source sink =>
    s.send source.name (fun auto t => { t with auto }) (fun line t => t.write line) sink

instance : EdgeAction Signal Bare where
  fire := fun s source sink =>
    s.send source.name (fun _ b => b) (fun _ b => b) sink

end Signal

end Topiary
