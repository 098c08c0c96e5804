/-
Topiary.Script.Visitor — scripts as visitors.

A `Script` follows the first rule that applies in each callback that it
has.  A `Turn` is one callback on its way through the actions of the rule.

* `Script.visitor` — the visitor of plain walks, `Script.editVisitor` that of
  transforms.  Their state, the `Story`, holds the values of the whole walk
  and the events so far.
* `Script.taskVisitor` — the visitor of fork-join walks, which has no
  state; `Script.taskEvents` are the events of its callbacks.
* `guarding` — visitors that refuse to go below nodes whose children cannot
  be read.
-/
import Topiary.Parallel.Walk
import Topiary.Script.Event
import Topiary.Transform

namespace Topiary

/-- A visitor given by rules. -/
structure Script where
  rules : List Script.Rule
  /-- The callbacks that the visitor has. -/
  callbacks : Phase → Bool
  shown : Script.Shown

namespace Script

variable {N : Type}

/-! ## Turns -/

/-- How actions turn into acts, and at which site nodes are made. -/
structure Stage (N : Type) where
  scene : Scene N
  /-- What contexts do of their own. -/
  own : Edit N → Option (Act N)
  /-- Edits through the transform. -/
  through : Edit N → Option (Act N)
  /-- The check of an act on a node with its mark of deletion, made at once. -/
  accept : N → Bool → Act N → Except Fault Unit
  site : Site

/-- One callback on its way through the actions of a rule. -/
structure Turn (N : Type) where
  node : N
  deleted : Bool
  vars : Vars
  shared : Vars
  accumulator : Option String
  out : List (Option VarValue)
  acts : List (Act N)
  /-- The number of nodes made. -/
  made : Nat

namespace Turn

/-- The nodes around a callback. -/
def role (t : Turn N) (s : Sight N Vars) : Role → N
  | .this => t.node
  | .reached => s.frame.reached
  | .parent => s.nodesAbove.head?.getD t.node
  | .root => s.nodesAbove.getLast?.getD t.node

/-- Make the node of an expression. -/
def make (stage : Stage N) (s : Sight N Vars) (t : Turn N) (e : NodeExpr) :
    N × Turn N :=
  let site := { stage.site with count := t.made }
  let (node, made) := stage.scene.make site (t.role s) e
  (node, { t with made := t.made + made })

/-- The edit that an action describes. -/
def toEdit (stage : Stage N) (s : Sight N Vars) (t : Turn N) :
    NodeAction → Edit N × Turn N
  | .change e => let (node, t) := t.make stage s e; (.change node, t)
  | .delete => (.delete, t)
  | .insertBefore e => let (node, t) := t.make stage s e; (.insertBefore node, t)
  | .insertAfter e => let (node, t) := t.make stage s e; (.insertAfter node, t)

/-- Do an act, if there is one and it is not refused. -/
def doAct (stage : Stage N) (t : Turn N) : Option (Act N) → Except Fault (Turn N)
  | none => .ok t
  | some a => do
    stage.accept t.node t.deleted a
    let (node, deleted) := a.outcome t.node t.deleted
    return { t with node, deleted, acts := t.acts ++ [a] }

/-- Tell a value. -/
def tell (t : Turn N) (value : Option VarValue) : Turn N :=
  { t with out := t.out ++ [value] }

/-- Tell the accumulator and put another text in its place. -/
def swapText (t : Turn N) (text : String) : Turn N :=
  match t.accumulator with
  | none => t
  | some former => { t with accumulator := some text }.tell (some (.str former))

/-- Carry out one action. -/
def perform (stage : Stage N) (s : Sight N Vars) (t : Turn N) :
    Action → Except Fault (Turn N)
  | .own what =>
    let (e, t) := t.toEdit stage s what
    t.doAct stage (stage.own e)
  | .throughTransform what =>
    let (e, t) := t.toEdit stage s what
    t.doAct stage (stage.through e)
  | .setVar value =>
    .ok ({ t with vars := t.vars.insert value }.tell (t.vars.find? value.kind))
  | .getVar kind => .ok (t.tell (t.vars.find? kind))
  | .findAbove kind => .ok (t.tell (s.findAbove? (·.find? kind)))
  | .increase amount =>
    let vars := t.vars.increase amount
    .ok ({ t with vars }.tell (vars.find? .int))
  | .getShared kind => .ok (t.tell (t.shared.find? kind))
  | .increaseShared amount =>
    let shared := t.shared.increase amount
    .ok ({ t with shared }.tell (shared.find? .int))
  | .append text => .ok { t with accumulator := t.accumulator.map (· ++ text) }
  | .appendLabel => do
    let label ← stage.scene.label t.node
    return { t with accumulator := t.accumulator.map (· ++ label) }
  | .replaceText text => .ok (t.swapText text)
  | .takeText => .ok (t.swapText "")

/-- Carry out actions in order. -/
def performAll (stage : Stage N) (s : Sight N Vars) :
    Turn N → List Action → Except Fault (Turn N)
  | t, [] => .ok t
  | t, a :: as => do performAll stage s (← t.perform stage s a) as

/-- Before the first action. -/
def start (s : Sight N Vars) (shared : Vars) (accumulator : Option String) : Turn N :=
  ⟨s.frame.node, s.frame.deleted, s.frame.data, shared, accumulator, [], [], 0⟩

end Turn

/-- What a rule says, carried out: the turn and the answer.  Without a rule
nothing happens and the walk goes on. -/
def follow (stage : Stage N) (s : Sight N Vars) (t : Turn N) :
    Option Rule → Except Fault (Turn N × Control)
  | none => .ok (t, .proceed)
  | some r => do return (← t.performAll stage s r.actions, r.control)

/-- An event completed by what happened in the turn. -/
def Event.complete (e : Event) (scene : Scene N) (shown : Shown) (t : Turn N)
    (control : Option Control) (pendingEdits : Option Nat) : Except Fault Event := do
  return { e with
    control
    out := t.out
    accumulator := t.accumulator
    pendingEdits
    after := ← onDemand shown.after fun _ => do
      return (← scene.render t.node, t.deleted) }

/-- The number of a phase, to tell apart the nodes made in each. -/
def phaseNumber : Phase → Nat
  | .enter => 1
  | .leave => 2
  | .backRef => 3

/-! ## Sequential walks -/

/-- The state of a script in a sequential walk. -/
structure Story where
  shared : Vars
  accumulator : Option String
  events : Array Event

/-- The stage of a callback in a sequential walk: of their own, contexts
only change themselves. -/
def sequentialStage (scene : Scene N) (c : Context N Vars)
    (accept : N → Bool → Act N → Except Fault Unit) : Stage N where
  scene := scene
  own := fun
    | .change node => some (.setNode node)
    | .delete => some .markDeleted
    | _ => none
  through := fun e => some (.edit e)
  accept := accept
  site := ⟨3 * c.id + phaseNumber c.sight.frame.phase, c.sight.path, 0⟩

/-- One callback of a sequential walk, on a stage. -/
def call (script : Script) (stage : Stage N) (c : Context N Vars) (s : Story) :
    Except Fault (EditAnswer N Vars Story) :=
  if !script.callbacks c.sight.frame.phase then
    .ok ⟨.proceed, [], c.sight.frame.data, s⟩
  else do
    let scene := stage.scene
    let event ← Event.observe scene script.shown c.sight (some c.id) c.idsAbove
    let rule ← Rule.first? scene c.sight (some s.events.size) script.rules
    let (t, control) ← follow stage c.sight (.start c.sight s.shared s.accumulator) rule
    let event ← event.complete scene script.shown t (rule.map fun _ => control) none
    return ⟨control, t.acts, t.vars, ⟨t.shared, t.accumulator, s.events.push event⟩⟩

/-- A script as the visitor of transforms. -/
def editVisitor (script : Script) (scene : Scene N) : EditVisitor N Vars Story :=
  fun c => script.call (sequentialStage scene c fun _ _ _ => .ok ()) c

/-- A script as the visitor of plain walks.  An edit is refused as soon as
it is made, whatever the callback would do after it. -/
def visitor (script : Script) (scene : Scene N) : Visitor N Vars Story :=
  EditVisitor.refusing fun c =>
    let accept := fun node deleted act => do
      let _ ← (Bench.plain c.sight.isRoot node deleted).act act
    script.call (sequentialStage scene c accept) c

/-- The visitor that also refuses to go below nodes that fail a check. -/
def guarding {D S : Type} (check : N → Except Fault Unit) (v : Visitor N D S) :
    Visitor N D S := fun c s => do
  let a ← v c s
  let frame := c.sight.frame
  if frame.phase = .enter ∧ a.control = .proceed ∧ ¬(frame.deleted || a.deleted) then
    check a.node
  return a

/-! ## Fork-join walks -/

/-- The stage of a callback in a fork-join walk: of their own, contexts
edit. -/
def taskStage (scene : Scene N) (c : TaskContext N Vars) : Stage N where
  scene := scene
  own := fun e => some (.edit e)
  through := fun _ => none
  accept := fun _ _ _ => .ok ()
  site := ⟨phaseNumber c.task.frame.phase, c.sight.path, 0⟩

/-- The edits among acts. -/
def editsOf (acts : List (Act N)) : List (Edit N) :=
  acts.filterMap fun
    | .edit e => some e
    | _ => none

/-- One callback of a fork-join walk: its event, if the script has the
callback, and its answer. -/
def taskCall (script : Script) (scene : Scene N) (c : TaskContext N Vars) :
    Except Fault (Option Event × TaskAnswer N Vars) :=
  if !script.callbacks c.task.frame.phase then
    .ok (none, ⟨.proceed, [], c.task.frame.data⟩)
  else do
    let event ← Event.observe scene script.shown c.sight none []
    let rule ← Rule.first? scene c.sight none script.rules
    let (t, control) ← follow (taskStage scene c) c.sight (.start c.sight .empty none) rule
    let edits := editsOf t.acts
    let done ← c.task.editAll c.above.isEmpty edits
    let event ← event.complete scene script.shown t (rule.map fun _ => control)
      (some done.edits.length)
    return (some event, ⟨control, edits, t.vars⟩)

/-- A script as the visitor of fork-join walks.  It refuses to go below
nodes whose children cannot be read. -/
def taskVisitor (script : Script) (scene : Scene N) : TaskVisitor N Vars :=
  fun c => do
    let (_, a) ← script.taskCall scene c
    let done ← c.task.editAll c.above.isEmpty a.edits
    if c.task.frame.phase = .enter ∧ a.control = .proceed ∧ ¬done.frame.deleted then
      scene.check done.frame.node
    return a

/-- The events of a fork-join walk in the order of reports. -/
def taskEvents (script : Script) (scene : Scene N)
    (calls : List (TaskContext N Vars)) : Except Fault (List Event) := do
  let events ← calls.mapM fun c => Prod.fst <$> script.taskCall scene c
  return (events.filterMap id).mergeSort Event.precedes

end Script

end Topiary
