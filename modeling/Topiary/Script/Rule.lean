/-
Topiary.Script.Rule — the rules of a script.

A rule belongs to one callback, has a condition on what the callback sees,
and says what to do and what to answer.  In each callback the first rule
whose condition holds is followed.
-/
import Topiary.Script.NodeExpr
import Topiary.Vars
import Topiary.Walk.Context

namespace Topiary.Script

/-- A condition: all parts that are given must hold. -/
structure Condition where
  label : Option String := none
  /-- The label of the node as it was first reached. -/
  reachedLabel : Option String := none
  /-- The label starts with this text. -/
  labelStart : Option String := none
  depth : Option Nat := none
  minDepth : Option Nat := none
  maxDepth : Option Nat := none
  /-- The index in the parent's group; false at a root. -/
  index : Option Nat := none
  /-- The group in the parent; false at a root. -/
  group : Option GroupName := none
  parentLabel : Option String := none
  /-- The locations from the root down, shown and separated by `/`. -/
  path : Option String := none
  leaf : Option Bool := none
  root : Option Bool := none
  deleted : Option Bool := none
  /-- The number of events before this one. -/
  nth : Option Nat := none
deriving Repr

/-- What is done with the node of a callback. -/
inductive NodeAction where
  | change (node : NodeExpr)
  | delete
  | insertBefore (node : NodeExpr)
  | insertAfter (node : NodeExpr)
deriving Repr

/-- One action of a rule. -/
inductive Action where
  /-- What contexts do of their own: an edit in a fork-join walk, a change
  of the context alone in a sequential one. -/
  | own (what : NodeAction)
  /-- An edit through the transform of a sequential walk. -/
  | throughTransform (what : NodeAction)
  /-- Store a value and tell the former one. -/
  | setVar (value : VarValue)
  /-- Tell a value. -/
  | getVar (kind : VarKind)
  /-- Tell the nearest value above. -/
  | findAbove (kind : VarKind)
  /-- Add to the stored integer and tell the sum. -/
  | increase (amount : Int)
  /-- Tell a value of the whole walk. -/
  | getShared (kind : VarKind)
  /-- Add to the integer of the whole walk and tell the sum. -/
  | increaseShared (amount : Int)
  /-- Add a text to the accumulator. -/
  | append (text : String)
  /-- Add the current label to the accumulator. -/
  | appendLabel
  /-- Replace the accumulator and tell the former one. -/
  | replaceText (text : String)
  /-- Empty the accumulator and tell the former one. -/
  | takeText
deriving Repr

/-- A rule. -/
structure Rule where
  phase : Phase
  condition : Condition
  actions : List Action
  control : Control
deriving Repr

namespace Condition

/-- A part that is not given holds. -/
def given {α : Type} [DecidableEq α] (part : Option α) (value : α) : Bool :=
  match part with
  | none => true
  | some expected => expected = value

/-- A part about a value that may be missing. -/
def givenSome {α : Type} [DecidableEq α] (part value : Option α) : Bool :=
  match part with
  | none => true
  | some expected => some expected = value

/-- A part that asks for a text to be looked up. -/
def givenText (part : Option String) (text : Except Fault (Option String))
    (test : String → String → Bool) : Except Fault Bool :=
  match part with
  | none => .ok true
  | some expected => do
    match ← text with
    | none => return false
    | some value => return test expected value

/-- The parts about labels and the place of the node itself. -/
def holdsOfNode {N : Type} (c : Condition) (scene : Scene N) (s : Sight N Vars) :
    Except Fault Bool := do
  let frame := s.frame
  let equal : String → String → Bool := fun a b => a == b
  if !(← givenText c.label (some <$> scene.label frame.node) equal) then return false
  if !(← givenText c.reachedLabel (some <$> scene.label frame.reached) equal) then
    return false
  if !(← givenText c.labelStart (some <$> scene.label frame.node)
      fun start label => label.startsWith start) then return false
  return given c.depth frame.depth
    && (c.minDepth.getD 0 ≤ frame.depth)
    && (match c.maxDepth with
      | none => true
      | some most => frame.depth ≤ most)
    && givenSome c.index (frame.location.map Location.index)
    && givenSome c.group (frame.location.map Location.group)

/-- The parts about the node above. -/
def holdsOfParent {N : Type} (c : Condition) (scene : Scene N) (s : Sight N Vars) :
    Except Fault Bool :=
  givenText c.parentLabel (s.nodesAbove.head?.mapM scene.label) fun a b => a == b

/-- The parts about the way to the node and the state of its context, after
`events` events; walks without an order of events have no count. -/
def holdsOfContext {N : Type} (c : Condition) (scene : Scene N) (s : Sight N Vars)
    (events : Option Nat) : Except Fault Bool := do
  if let some expected := c.path then
    if expected != "/".intercalate (s.path.reverse.map Location.display) then
      return false
  if let some expected := c.leaf then
    if expected != (← scene.isLeaf s.frame.node) then return false
  return given c.root s.isRoot && given c.deleted s.frame.deleted
    && givenSome c.nth events

/-- The condition holds for what a callback sees, after `events` events.
The first part that fails decides, so what is behind it is not read. -/
def holds {N : Type} (c : Condition) (scene : Scene N) (s : Sight N Vars)
    (events : Option Nat) : Except Fault Bool := do
  if !(← c.holdsOfNode scene s) then return false
  if !(← c.holdsOfParent scene s) then return false
  c.holdsOfContext scene s events

end Condition

/-- The first rule that is followed. -/
def Rule.first? {N : Type} (scene : Scene N) (s : Sight N Vars) (events : Option Nat) :
    List Rule → Except Fault (Option Rule)
  | [] => .ok none
  | r :: rs => do
    if r.phase = s.frame.phase then
      if ← r.condition.holds scene s events then return some r
    first? scene s events rs

end Topiary.Script
