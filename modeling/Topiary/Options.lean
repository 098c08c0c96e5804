/-
Topiary.Options — the settings of walks and schedules, as data.

Settings are structures with defaults that can be read from and written as
`Datum`.  Reading what was written gives the same settings back.

* `TraversalOptions` — the order of a sequential walk.
* `ParallelOptions` — the size of a dedicated worker pool; none means the
  pool that all walks share.  The size has no influence on results.
* `OrderingOptions` — how a schedule closes.
* `SimpleVertex` — a vertex without its count of resolutions.
-/
import Topiary.Dependency.Schedule
import Topiary.Record
import Topiary.Walk.Worklist

namespace Topiary

/-! ## Sequential walks -/

namespace TraversalOrder

/-- The name of an order in data. -/
def name : TraversalOrder → String
  | depthFirst => "depth_first"
  | breadthFirst => "breadth_first"

/-- An order by its name. -/
def ofName? (name : String) : Option TraversalOrder :=
  if name = "depth_first" then some depthFirst
  else if name = "breadth_first" then some breadthFirst
  else none

end TraversalOrder

/-- The settings of a sequential walk. -/
structure TraversalOptions where
  order : TraversalOrder := .depthFirst
deriving DecidableEq, Repr

namespace TraversalOptions

/-- Settings from data. -/
def ofDatum? (d : Datum) : Option TraversalOptions := do
  let fields ← d.fields? ["order"]
  let order ← Datum.fieldOr? "order" .depthFirst
    (fun d => d.plainChoice?.bind TraversalOrder.ofName?) fields
  return ⟨order⟩

/-- Settings as data. -/
def toDatum (o : TraversalOptions) : Datum := .record [("order", .text o.order.name)]

end TraversalOptions

/-! ## Fork-join walks -/

/-- The settings of a fork-join walk. -/
structure ParallelOptions where
  threads : Option Nat := none
deriving DecidableEq, Repr

namespace ParallelOptions

/-- Settings from data. -/
def ofDatum? (d : Datum) : Option ParallelOptions := do
  let fields ← d.fields? ["threads"]
  let threads ← Datum.fieldOr? "threads" none (Datum.optional? Datum.count?) fields
  return ⟨threads⟩

/-- Settings as data. -/
def toDatum (o : ParallelOptions) : Datum :=
  .record [("threads", match o.threads with
    | none => .nothing
    | some n => .int n)]

end ParallelOptions

/-! ## Schedules -/

namespace OrderingOptions

/-- Settings from data. -/
def ofDatum? (d : Datum) : Option OrderingOptions := do
  let fields ← d.fields? ["auto_close"]
  let autoClose ← Datum.fieldOr? "auto_close" true Datum.bool? fields
  return ⟨autoClose⟩

/-- Settings as data. -/
def toDatum (o : OrderingOptions) : Datum :=
  .record [("auto_close", .bool o.autoClose)]

end OrderingOptions

/-! ## Vertices -/

namespace SimpleVertex

/-- A vertex from data; the count of resolutions starts anew. -/
def ofDatum? (d : Datum) : Option (SimpleVertex String) := do
  let fields ← d.fields? ["value", "auto_resolve"]
  let value ← Datum.field? "value" Datum.text? fields
  let autoResolve ← Datum.fieldOr? "auto_resolve" false Datum.bool? fields
  return ⟨value, autoResolve, 0⟩

/-- A vertex as data, without the count of resolutions. -/
def toDatum (v : SimpleVertex String) : Datum :=
  .record [("value", .text v.value), ("auto_resolve", .bool v.autoResolve)]

end SimpleVertex

end Topiary
