/-
Topiary.Inspect — short descriptions of values, for inspection.

A description names a type and shows some of its fields, in the form
`Name { field: value, ... }`.
-/
import Topiary.Options
import Topiary.Text.Quoted
import Topiary.Vars

namespace Topiary

/-- A description of a structure by its fields. -/
def describe (name : String) (fields : List (String × String)) : String :=
  name ++ " \x7b " ++ ", ".intercalate (fields.map fun (f, v) => f ++ ": " ++ v) ++ " \x7d"

/-- A truth value in a description. -/
def describeBool : Bool → String
  | true => "true"
  | false => "false"

/-! ## Vertices and edges -/

/-- A vertex by its number. -/
def describeVertex (id : Nat) : String := "VertexId(" ++ toString id ++ ")"

/-- Vertices by their numbers. -/
def describeVertices (ids : List Nat) : String :=
  "[" ++ ", ".intercalate (ids.map describeVertex) ++ "]"

/-- A description of an edge. -/
def Edge.describe {α : Type} (e : Edge α) : String :=
  Topiary.describe "Edge"
    [("source", describeVertex e.source), ("sink", describeVertex e.sink),
      ("has_action", describeBool e.action.isSome)]

/-- A description of a graph. -/
def DependencyGraph.describe {V κ α : Type} (g : DependencyGraph V κ α) : String :=
  Topiary.describe "DependencyGraph"
    [("size", toString g.size), ("edge_count", toString g.edgeCount)]

/-- A description of ordering settings. -/
def OrderingOptions.describe (o : OrderingOptions) : String :=
  Topiary.describe "OrderingOptions" [("auto_close", describeBool o.autoClose)]

/-- A description of a schedule. -/
def Schedule.describe {V κ α : Type} (s : Schedule V κ α) : String :=
  Topiary.describe "TopologicalIter"
    [("options", s.options.describe), ("unclosed", toString s.unclosed),
      ("yielded", describeVertices s.yielded), ("pending", describeVertices s.pending)]

/-! ## Variables and walks -/

/-- A description of stored variables under a name. -/
def Vars.describe (vars : Vars) (name : String) : String :=
  Topiary.describe name [("len", toString vars.size)]

/-- A description of traversal settings. -/
def TraversalOptions.describe (o : TraversalOptions) : String :=
  Topiary.describe "TraverserOptions"
    [("order", match o.order with
      | .depthFirst => "DepthFirst"
      | .breadthFirst => "BreadthFirst")]

/-- A description of an accumulated text; without one it is a unit. -/
def describeAccumulator : Option String → String
  | none => "()"
  | some text => Text.quote text

/-- A description of a sequential walk. -/
def describeTraversal (o : TraversalOptions) (rootVars shared : Vars)
    (accumulator : Option String) : String :=
  describe "Traverser"
    [("options", o.describe), ("root_vars", rootVars.describe "Vars"),
      ("shared", shared.describe "Vars"),
      ("accumulate", describeAccumulator accumulator)]

/-- A description of a visitor by the callbacks that it has. -/
def describeVisitor (name : String) (enter leave backRef : Bool) : String :=
  describe name
    [("enter", describeBool enter), ("leave", describeBool leave),
      ("back_ref", describeBool backRef)]

end Topiary
