/-
Topiary.Proofs.Walk.Recursive — the depth-first walk as a recursion.

A work list makes contexts ahead of time and visits them later.  The
recursion here has no list: it visits a node, then each of its children
with everything below it, then leaves the node, and a callback that quits
ends all of it.

* `Traversal.visit` — one context with everything below it.
* `Traversal.recurse` — a walk from several roots.
* `Outcome` — what can be told apart from outside: the callbacks with the
  contexts they were given, the state, the count of entered nodes, the mark
  of having quit.
* `Traversal.observe` — the outcome of the work list, whose callbacks are
  written down by `Traversal.logged`.
* `Traversal.Extends` — a walk that keeps more in its state.
* `Run.Settles` — some limit is enough, and this is what comes out;
  `Run.Eventually` — it comes out with every larger limit, too.
-/
import Topiary.Walk.Worklist

namespace Topiary

/-! ## Enough steps -/

namespace Run

variable {α : Type}

/-- A computation that takes a limit comes to an end, with this outcome. -/
def Settles (f : Nat → Run α) (out : Run α) : Prop :=
  out ≠ .unfinished ∧ ∃ limit, f limit = out

/-- Once a limit is enough, one more step makes no difference. -/
def Steady (f : Nat → Run α) : Prop :=
  ∀ limit, f limit ≠ .unfinished → f (limit + 1) = f limit

/-- Once a limit is enough, no larger one makes a difference. -/
theorem Steady.add {f : Nat → Run α} (hf : Steady f) {limit : Nat}
    (h : f limit ≠ .unfinished) (more : Nat) : f (limit + more) = f limit := by
  induction more with
  | zero => rfl
  | succ more ih =>
    have hmore : f (limit + more) ≠ .unfinished := by rw [ih]; exact h
    rw [← Nat.add_assoc, hf _ hmore, ih]

/-- Two limits that are enough lead to the same outcome. -/
theorem Steady.eq {f : Nat → Run α} (hf : Steady f) {m n : Nat}
    (hm : f m ≠ .unfinished) (hn : f n ≠ .unfinished) : f m = f n := by
  rcases Nat.le_total m n with h | h
  · obtain ⟨k, rfl⟩ := Nat.exists_eq_add_of_le h
    exact (hf.add hm k).symm
  · obtain ⟨k, rfl⟩ := Nat.exists_eq_add_of_le h
    exact hf.add hn k

@[simp] theorem map_done {β : Type} (g : α → β) (a : α) : g <$> done a = done (g a) := rfl

@[simp] theorem map_failed {β : Type} (g : α → β) (e : Fault) :
    g <$> (failed e : Run α) = failed e := rfl

@[simp] theorem map_unfinished {β : Type} (g : α → β) :
    g <$> (unfinished : Run α) = unfinished := rfl

theorem map_eq_done_iff {β : Type} (g : α → β) (r : Run α) (b : β) :
    g <$> r = done b ↔ ∃ a, r = done a ∧ g a = b := by
  cases r <;> simp

theorem bind_eq_done_iff {β : Type} (r : Run α) (g : α → Run β) (b : β) :
    r >>= g = done b ↔ ∃ a, r = done a ∧ g a = done b := by
  cases r <;> simp

theorem ofExcept_eq_done_iff (x : Except Fault α) (a : α) : ofExcept x = done a ↔ x = .ok a := by
  cases x <;> simp [ofExcept]

theorem map_eq_failed_iff {β : Type} (g : α → β) (r : Run α) (e : Fault) :
    g <$> r = failed e ↔ r = failed e := by
  cases r <;> simp

/-- A mapped computation is finished exactly if the computation is. -/
theorem map_ne_unfinished {β : Type} (g : α → β) (r : Run α) :
    g <$> r ≠ .unfinished ↔ r ≠ .unfinished := by
  cases r <;> simp

/-- Two computations that settle alike do so with what is made of their
values. -/
theorem settles_bind_congr {β : Type} {f f' : Nat → Run α}
    (h : ∀ out, Settles f out ↔ Settles f' out) (g : α → Run β) (out : Run β) :
    Settles (fun limit => f limit >>= g) out ↔ Settles (fun limit => f' limit >>= g) out := by
  have hone : ∀ {f f' : Nat → Run α}, (∀ out, Settles f out → Settles f' out) →
      Settles (fun limit => f limit >>= g) out → Settles (fun limit => f' limit >>= g) out := by
    intro f f' hff hout
    obtain ⟨hne, limit, rfl⟩ := hout
    have hf : f limit ≠ .unfinished := by
      intro hunf
      simp [hunf] at hne
    obtain ⟨-, limit', heq⟩ := hff _ ⟨hf, limit, rfl⟩
    exact ⟨hne, limit', by simp only [heq]⟩
  exact ⟨hone fun out => (h out).1, hone fun out => (h out).2⟩

/-- With every limit that is large enough this is the outcome. -/
def Eventually (f : Nat → Run α) (out : Run α) : Prop :=
  ∃ enough, ∀ limit, enough ≤ limit → f limit = out

namespace Eventually

variable {β : Type} {f : Nat → Run α} {out : Run α}

theorem const (out : Run α) : Eventually (fun _ => out) out := ⟨0, fun _ _ => rfl⟩

/-- A limit that is one step larger. -/
theorem of_succ (h : Eventually (fun limit => f (limit + 1)) out) : Eventually f out := by
  obtain ⟨enough, h⟩ := h
  refine ⟨enough + 1, fun limit hlimit => ?_⟩
  obtain ⟨k, rfl⟩ := Nat.exists_eq_add_of_le hlimit
  rw [Nat.add_right_comm]
  exact h _ (Nat.le_add_right _ _)

/-- Computations one after the other, under a common limit. -/
theorem bind {a : α} {g : Nat → α → Run β} {out : Run β} (hf : Eventually f (.done a))
    (hg : Eventually (fun limit => g limit a) out) :
    Eventually (fun limit => f limit >>= g limit) out := by
  obtain ⟨m, hm⟩ := hf
  obtain ⟨n, hn⟩ := hg
  refine ⟨max m n, fun limit hlimit => ?_⟩
  show f limit >>= g limit = out
  rw [hm limit (Nat.le_trans (Nat.le_max_left m n) hlimit), done_bind]
  exact hn limit (Nat.le_trans (Nat.le_max_right m n) hlimit)

theorem map {a : α} (hf : Eventually f (.done a)) (g : α → β) :
    Eventually (fun limit => g <$> f limit) (.done (g a)) := by
  obtain ⟨m, hm⟩ := hf
  exact ⟨m, fun limit hlimit => congrArg (g <$> ·) (hm limit hlimit)⟩

theorem settles {a : α} (hf : Eventually f (.done a)) : Settles f (.done a) := by
  obtain ⟨m, hm⟩ := hf
  exact ⟨by simp, m, hm m (Nat.le_refl m)⟩

end Eventually

end Run

/-! ## Outcomes -/

/-- What a walk shows to the outside. -/
structure Outcome (N D S : Type) where
  /-- The callbacks in order, each with the context it was given. -/
  calls : List (Context N D)
  state : S
  /-- How many nodes were entered. -/
  entered : Nat
  /-- A callback has asked to quit. -/
  quit : Bool
deriving DecidableEq, Repr

/-- How far a recursive walk has come. -/
structure Course (N D S : Type) extends Outcome N D S where
  /-- How many contexts were made. -/
  made : Nat
deriving DecidableEq, Repr

namespace Context

variable {N D : Type}

/-- The context with another frame. -/
def withFrame (c : Context N D) (frame : Frame N D) : Context N D :=
  { c with sight := { c.sight with frame } }

/-- The contexts of frames below a context, numbered from `made` on. -/
def below (c : Context N D) (made : Nat) (frames : List (Frame N D)) :
    List (Context N D) :=
  (frames.zipIdx made).map fun (frame, id) =>
    ⟨id, ⟨frame, c.sight.frame :: c.sight.above, c.sight.rootData⟩, c.id :: c.idsAbove⟩

end Context

/-! ## The recursion -/

/-- Walk from each context in turn, and no further once one has quit. -/
def Course.throughEach {N D S : Type}
    (visit : Context N D → Course N D S → Run (Course N D S)) :
    List (Context N D) → Course N D S → Run (Course N D S)
  | [], x => .done x
  | c :: cs, x => do
    let x ← visit c x
    if x.quit then return x else throughEach visit cs x

namespace Traversal

variable {N D S : Type}

/-- Call the visitor on a context: its answer, the context afterwards and
how far the walk has come. -/
def consult (t : Traversal N D S) (c : Context N D) (x : Course N D S) :
    Except Fault (Control × Context N D × Course N D S) := do
  let a ← t.visitor c x.state
  return (a.control, c.withFrame (c.sight.frame.update a),
    { x with
      calls := x.calls ++ [c]
      state := a.state
      quit := a.control == .quit })

/-- The frames of the children of a node as it stands; none if it is marked
as deleted. -/
def kidFrames (t : Traversal N D S) (frame : Frame N D) : List (Frame N D) :=
  frame.kids (if frame.deleted then .empty else t.children frame.node) t.fresh

/-- Hand a context that repeats one above it to the visitor. -/
def callBackRef (t : Traversal N D S) (c : Context N D) (x : Course N D S) :
    Except Fault (Course N D S) :=
  (t.consult (c.withFrame { c.sight.frame with visited := true, phase := .backRef }) x).map
    fun r => r.2.2

/-- Hand a context whose children are done to the visitor, unless the walk
has quit. -/
def callLeave (t : Traversal N D S) (c : Context N D) (x : Course N D S) :
    Except Fault (Course N D S) :=
  if x.quit then .ok x
  else (t.consult (c.withFrame { c.sight.frame with phase := .leave }) x).map fun r => r.2.2

/-- Visit the children of a context that was entered, then leave it. -/
def descend (t : Traversal N D S) (visit : Context N D → Course N D S → Run (Course N D S))
    (c : Context N D) (x : Course N D S) : Run (Course N D S) :=
  let kids := c.below x.made (t.kidFrames c.sight.frame)
  Course.throughEach visit kids { x with made := x.made + kids.length } >>= fun y =>
    Run.ofExcept (t.callLeave c y)

/-- Visit a context and everything below it, at most `levels` deep. -/
def visit [Identified N] (t : Traversal N D S) :
    (levels : Nat) → Context N D → Course N D S → Run (Course N D S)
  | 0, _, _ => .unfinished
  | levels + 1, c, x =>
    if c.sight.repeatsAbove then Run.ofExcept (t.callBackRef c x)
    else
      match t.consult c { x with entered := x.entered + 1 } with
      | .error f => .failed f
      | .ok (control, c, x) =>
        if control = .proceed then t.descend (visit t levels) c x else .done x

/-- The contexts of the roots. -/
def rootContexts (t : Traversal N D S) (roots : List N) : List (Context N D) :=
  roots.zipIdx.map fun (node, id) => ⟨id, ⟨.root node t.fresh, [], t.rootData⟩, []⟩

/-- Visit each root in order. -/
def recurse [Identified N] (t : Traversal N D S) (levels : Nat) (roots : List N)
    (state : S) : Run (Outcome N D S) :=
  Course.toOutcome <$> Course.throughEach (t.visit levels) (t.rootContexts roots)
    ⟨⟨[], state, 0, false⟩, roots.length⟩

/-- A node that is entered: its `enter`, and then the rest. -/
theorem visit_of_not_repeatsAbove [Identified N] (t : Traversal N D S) {c : Context N D}
    (h : ¬ c.sight.repeatsAbove = true) (levels : Nat) (x : Course N D S) :
    t.visit (levels + 1) c x
      = Run.ofExcept (t.consult c { x with entered := x.entered + 1 }) >>= fun r =>
          if r.1 = .proceed then t.descend (t.visit levels) r.2.1 r.2.2 else .done r.2.2 := by
  rw [visit, if_neg h]
  cases t.consult c { x with entered := x.entered + 1 } <;> rfl

/-- A walk from one root is a visit. -/
theorem recurse_singleton [Identified N] (t : Traversal N D S) (levels : Nat) (root : N)
    (state : S) :
    t.recurse levels [root] state
      = Course.toOutcome <$> t.visit levels ⟨0, ⟨.root root t.fresh, [], t.rootData⟩, []⟩
          ⟨⟨[], state, 0, false⟩, 1⟩ := by
  show Course.toOutcome <$> (t.visit levels _ _ >>= fun y => if y.quit then .done y else .done y)
    = _
  simp only [ite_self]
  exact congrArg (Course.toOutcome <$> ·) (bind_pure _)

/-! ## The work list from outside -/

/-- The same walk, with its callbacks written down. -/
def logged (t : Traversal N D S) : Traversal N D (List (Context N D) × S) where
  children := t.children
  order := t.order
  visitor := fun c s => do
    let a ← t.visitor c s.2
    return ⟨a.control, a.node, a.deleted, a.data, (s.1 ++ [c], a.state)⟩
  fresh := t.fresh
  rootData := t.rootData

/-- What a logged work list shows. -/
def outcome (w : Worklist N D (List (Context N D) × S)) : Outcome N D S :=
  ⟨w.state.1, w.state.2, w.entered, w.quit⟩

/-- The outcome of a walk with a work list. -/
def observe [Identified N] (t : Traversal N D S) (limit : Nat) (roots : List N)
    (state : S) : Run (Outcome N D S) :=
  outcome <$> t.logged.walk limit roots ([], state)

end Traversal

/-! ## What a walk keeps beside its state -/

/-- An answer of which less of the state is seen. -/
def Answer.mapState {N D R S : Type} (g : R → S) (a : Answer N D R) : Answer N D S :=
  ⟨a.control, a.node, a.deleted, a.data, g a.state⟩

/-- A work list of which less of the state is seen. -/
def Worklist.mapState {N D R S : Type} (g : R → S) (w : Worklist N D R) : Worklist N D S :=
  ⟨w.cells, w.pending, g w.state, w.entered, w.quit⟩

namespace Traversal

variable {N D R S : Type}

/-- The walk `u` does what `t` does and may keep more in its state. -/
structure Extends (u : Traversal N D R) (t : Traversal N D S) (g : R → S) : Prop where
  children : u.children = t.children
  order : u.order = t.order
  fresh : u.fresh = t.fresh
  rootData : u.rootData = t.rootData
  visitor : ∀ c s, t.visitor c (g s) = (u.visitor c s).map (Answer.mapState g)

namespace Extends

variable {u : Traversal N D R} {t : Traversal N D S} {g : R → S}

/-- What is kept beside the state changes nothing in a callback. -/
theorem call (h : u.Extends t g) (w : Worklist N D R) (id : Nat) (frame : Frame N D) :
    t.call (w.mapState g) id frame
      = (u.call w id frame).map fun r => (r.1, r.2.mapState g) := by
  simp only [Traversal.call, Worklist.mapState, ← h.rootData, h.visitor]
  cases u.visitor (w.cells.context u.rootData id frame) w.state <;> rfl

theorem expand (h : u.Extends t g) (w : Worklist N D R) (id : Nat) :
    t.expand (w.mapState g) id = (u.expand w id).mapState g := by
  simp only [Traversal.expand, Worklist.mapState, ← h.children, ← h.fresh, ← h.order]
  cases w.cells[id]? <;> rfl

variable [Identified N]

/-- Nor in a single piece of work. -/
theorem work (h : u.Extends t g) (w : Worklist N D R) (item : Work) :
    t.work (w.mapState g) item = (u.work w item).map (Worklist.mapState g) := by
  cases item with
  | leave id =>
    simp only [Traversal.work, show (w.mapState g).cells = w.cells from rfl]
    cases w.cells[id]? with
    | none => rfl
    | some cell =>
      simp only [h.call]
      cases u.call w id { cell.frame with phase := .leave } <;> rfl
  | visit id =>
    simp only [Traversal.work, show (w.mapState g).cells = w.cells from rfl]
    cases w.cells[id]? with
    | none => rfl
    | some cell =>
      simp only [← h.rootData]
      by_cases hr : (w.cells.context u.rootData id cell.frame).sight.repeatsAbove = true
      · simp only [hr, if_true, h.call]
        cases u.call w id { cell.frame with visited := true, phase := .backRef } <;> rfl
      · rw [if_neg hr, if_neg hr]
        have hcall := h.call { w with entered := w.entered + 1 } id cell.frame
        simp only [Worklist.mapState] at hcall ⊢
        simp only [hcall]
        cases u.call { w with entered := w.entered + 1 } id cell.frame with
        | error f => rfl
        | ok r =>
          by_cases hp : r.1 = .proceed
          · have he := h.expand r.2 id
            simp only [Worklist.mapState] at he
            simp [hp, bind, Except.bind, Except.map, pure, Except.pure, he, Worklist.mapState]
          · simp [hp, bind, Except.bind, Except.map, pure, Except.pure, Worklist.mapState]

/-- Nor in a run. -/
theorem run (h : u.Extends t g) (limit : Nat) (w : Worklist N D R) :
    t.run limit (w.mapState g) = Worklist.mapState g <$> u.run limit w := by
  induction limit generalizing w with
  | zero =>
    simp only [Traversal.run, show (w.mapState g).quit = w.quit from rfl,
      show (w.mapState g).pending = w.pending from rfl]
    cases w.quit || w.pending.isEmpty <;> rfl
  | succ limit ih =>
    simp only [Traversal.run, show (w.mapState g).quit = w.quit from rfl,
      show (w.mapState g).pending = w.pending from rfl]
    by_cases hq : w.quit = true
    · simp [hq]
    · rw [if_neg hq, if_neg hq]
      cases w.pending with
      | nil => rfl
      | cons item pending =>
        have hwork := h.work { w with pending } item
        simp only [Worklist.mapState] at hwork ⊢
        simp only [hwork]
        cases u.work { w with pending } item with
        | error f => rfl
        | ok v => exact ih v

theorem walk (h : u.Extends t g) (limit : Nat) (roots : List N) (state : R) :
    t.walk limit roots (g state) = Worklist.mapState g <$> u.walk limit roots state := by
  have hstart : t.start roots (g state) = (u.start roots state).mapState g := by
    simp only [start, Worklist.mapState, h.fresh]
  rw [Traversal.walk, Traversal.walk, hstart]
  exact h.run limit _

end Extends

end Traversal

/-- A logged work list without its log. -/
def Worklist.unlogged {N D S : Type} (w : Worklist N D (List (Context N D) × S)) :
    Worklist N D S :=
  ⟨w.cells, w.pending, w.state.2, w.entered, w.quit⟩

namespace Traversal

variable {N D S : Type} [Identified N]

omit [Identified N] in
/-- Writing a callback down changes nothing else. -/
theorem logged_extends (t : Traversal N D S) : t.logged.Extends t Prod.snd where
  children := rfl
  order := rfl
  fresh := rfl
  rootData := rfl
  visitor := fun c s => by
    simp only [logged]
    cases t.visitor c s.2 <;> rfl

/-- A walk is its logged walk without the log. -/
theorem walk_unlogged (t : Traversal N D S) (limit : Nat) (roots : List N) (state : S) :
    t.walk limit roots state = Worklist.unlogged <$> t.logged.walk limit roots ([], state) :=
  t.logged_extends.walk limit roots ([], state)

/-- Where a logged walk comes to an end, so does the walk. -/
theorem settles_unlogged (t : Traversal N D S) {roots : List N} {state : S}
    {w : Worklist N D (List (Context N D) × S)}
    (h : Run.Settles (fun limit => t.logged.walk limit roots ([], state)) (.done w)) :
    Run.Settles (fun limit => t.walk limit roots state) (.done w.unlogged) := by
  obtain ⟨-, limit, hlimit⟩ := h
  exact ⟨by simp, limit, (t.walk_unlogged limit roots state).trans
    (congrArg (Worklist.unlogged <$> ·) hlimit)⟩

end Traversal

end Topiary
