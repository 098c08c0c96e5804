/-
Topiary.Proofs.Transform.Editor — a transform as a recursion over the tree.

An editor is a visitor that makes edits and does nothing else to its contexts.
It may keep a state, look at everything that a context shows, and quit.

`Editor.visit` is what its transform comes to, without a work list and without
a list of recorded edits: every node is a task that keeps its own edits.  When
the children of a node are done, what they hand over is merged into a copy of
the node, also if one of them has quit.

* `Editor`, `Editor.transform` — editors and their transforms.
* `Task.merge` — the edits of all children carried out at once.
* `Editor.ask` — one callback and its edits.
* `Editor.visit` — a node with everything below it.
* `Task.rootNode` — the root that comes out.
-/
import Topiary.Proofs.MultiZipper.Trail
import Topiary.Proofs.Transform.Mirror

namespace Topiary

variable {N D S : Type}

/-! ## Editors -/

/-- What a callback answers that makes edits only. -/
structure EditReply (N D S : Type) where
  control : Control
  edits : List (Edit N)
  data : D
  state : S
deriving DecidableEq, Repr

/-- Callbacks that make edits only. -/
structure Editor (N D S : Type) where
  /-- The answer to a context, or a misuse that stops the walk. -/
  call : Context N D → S → Except Misuse (EditReply N D S)
  /-- Edits are made in `enter` and `leave` only. -/
  backRef_edits : ∀ c s r, c.sight.frame.phase = .backRef → call c s = .ok r → r.edits = []

/-- The editor as a visitor of transforms. -/
def Editor.visitor (v : Editor N D S) : EditVisitor N D S := fun c s =>
  ((v.call c s).mapError .misuse).map fun r => ⟨r.control, r.edits.map .edit, r.data, r.state⟩

/-- The transform with an editor. -/
def Editor.transform (v : Editor N D S) (A : Adapter N) (run : Nat) (fresh rootData : D) :
    Transform N D S :=
  ⟨A, v.visitor, run, fresh, rootData⟩

/-! ## Merging -/

namespace Trail

/-- The new replacement is the only one. -/
theorem nodesOf_putReplacement {node : N} {edits : List (EditKind × N)}
    (h : (nodesOf edits .replace).length ≤ 1) (kind : EditKind) :
    nodesOf (Task.putReplacement node edits) kind
      = if kind = .replace then [node] else nodesOf edits kind := by
  induction edits with
  | nil => cases kind <;> rfl
  | cons e edits ih =>
    obtain ⟨k, other⟩ := e
    rw [nodesOf_cons] at h
    by_cases hk : k = .replace
    · subst hk
      have hnone : nodesOf edits .replace = [] := by simpa using h
      rw [Task.putReplacement, if_pos rfl, nodesOf_cons, nodesOf_cons]
      cases kind <;> simp [hnone]
    · rw [if_neg hk] at h
      rw [Task.putReplacement, if_neg hk, nodesOf_cons, nodesOf_cons, ih h]
      by_cases hkind : kind = .replace
      · simp [hkind, hk]
      · simp [hkind]

theorem nodesOf_filter_ne (edits : List (EditKind × N)) (kind : EditKind) :
    nodesOf (edits.filter fun e => e.1 ≠ .replace) kind
      = if kind = .replace then [] else nodesOf edits kind := by
  induction edits with
  | nil => cases kind <;> rfl
  | cons e edits ih =>
    obtain ⟨k, node⟩ := e
    by_cases hk : k = .replace
    · subst hk
      rw [List.filter_cons_of_neg (by simp), ih, nodesOf_cons]
      cases kind <;> rfl
    · rw [List.filter_cons_of_pos (by simpa using hk), nodesOf_cons, nodesOf_cons, ih]
      by_cases hkind : kind = .replace
      · simp [hkind, hk]
      · simp [hkind]

end Trail

namespace Task

/-- What the children hand over is merged into a copy of the node: every child
gives way to what stands in its place.  Without edits the node stays. -/
def merge (A : Adapter N) (site : Site) (t : Task N D) (edits : List (ChildEdit N)) : Task N D :=
  if edits.isEmpty then t
  else t.replace (A.rebuild site t.frame.node
    ((A.children t.frame.node).spread (ChildEdit.slot edits)))

/-- The copy that a merge makes: one if there is anything to merge. -/
def copies (site : Site) (t : Task N D) (edits : List (ChildEdit N)) : List (Rebuild N) :=
  if edits.isEmpty then [] else [⟨site, t.frame.node⟩]

/-- The root with the edits of its task carried out. -/
def rootNode (root : N) (t : Task N D) : N :=
  (Trail.nodesOf t.edits .replace).getLast?.getD root

@[simp] theorem merge_nil (A : Adapter N) (site : Site) (t : Task N D) :
    t.merge A site [] = t := rfl

theorem copies_of_ne_nil (site : Site) (t : Task N D) {edits : List (ChildEdit N)}
    (h : edits ≠ []) : t.copies site edits = [⟨site, t.frame.node⟩] :=
  if_neg (by simpa using h)

theorem merge_of_ne_nil (A : Adapter N) (site : Site) (t : Task N D) {edits : List (ChildEdit N)}
    (h : edits ≠ []) :
    t.merge A site edits = t.replace (A.rebuild site t.frame.node
      ((A.children t.frame.node).spread (ChildEdit.slot edits))) :=
  if_neg (by simpa using h)

/-- A merge is at the same place. -/
theorem place_merge (A : Adapter N) (site : Site) (t : Task N D) (edits : List (ChildEdit N)) :
    (t.merge A site edits).frame.location = t.frame.location
      ∧ (t.merge A site edits).frame.reached = t.frame.reached := by
  unfold Task.merge
  split <;> exact ⟨rfl, rfl⟩

theorem deleted_merge (A : Adapter N) (site : Site) (t : Task N D) (edits : List (ChildEdit N)) :
    (t.merge A site edits).frame.deleted = t.frame.deleted := by
  unfold Task.merge
  split <;> rfl

/-- Of the edits of a node at most one is a replacement. -/
theorem Tally.replacements {node reached : N} {slot : Option Nat} {edits : List (EditKind × N)}
    (h : Tally node reached slot edits) : (Trail.nodesOf edits .replace).length ≤ 1 := by
  have hnone : ∀ es : List (EditKind × N), (∀ e ∈ es, e.1.isInsertion = true) →
      Trail.nodesOf es .replace = [] := by
    intro es hes
    refine (Trail.nodesOf_eq_nil_iff es _).2 fun e he hr => ?_
    have hins := hes e he
    rw [hr] at hins
    exact Bool.noConfusion hins
  cases h with
  | kept hins _ => simp [hnone _ hins]
  | replaced hbefore hafter =>
    simp [Trail.nodesOf_append, Trail.nodesOf_cons, hnone _ hbefore, hnone _ hafter]

/-- A replacement is put where the old one was, if there was one. -/
theorem Tally.alike_putReplacement {node reached : N} {slot : Option Nat}
    {edits : List (EditKind × N)} (h : Tally node reached slot edits) (copy : N) :
    Trail.Alike (putReplacement copy edits)
      (edits.filter (fun e => e.1 ≠ .replace) ++ [(.replace, copy)]) := by
  intro kind
  rw [Trail.nodesOf_putReplacement h.replacements, Trail.nodesOf_append, Trail.nodesOf_filter_ne,
    Trail.nodesOf_cons]
  by_cases hkind : kind = .replace
  · simp [hkind, Trail.nodesOf]
  · simp [hkind, Ne.symm hkind, Trail.nodesOf]

/-- Merging is what leaving a node does to its edits. -/
theorem Tally.alike_merge {t : Task N D} {slot : Option Nat}
    (h : Tally t.frame.node t.frame.reached slot t.edits) (A : Adapter N) (site : Site)
    (edits : List (ChildEdit N)) :
    Trail.Alike (t.merge A site edits).edits (Trail.merge A site t.frame.node t.edits edits) := by
  unfold Task.merge Trail.merge
  split
  · exact fun _ => rfl
  · exact h.alike_putReplacement _

end Task

/-! ## The recursion -/

/-- How far a recursion has come: the editor's state, how many contexts were
made, and whether a callback has asked to quit. -/
structure Pace (S : Type) where
  state : S
  made : Nat
  quit : Bool
deriving DecidableEq, Repr

/-- Visit each context in turn, and no further once one has quit. -/
def Pace.throughEach (visit : Context N D → Pace S → Run (Task N D × Pace S)) :
    List (Context N D) → Pace S → Run (List (Task N D) × Pace S)
  | [], x => .done ([], x)
  | c :: cs, x => do
    let r ← visit c x
    if r.2.quit then return ([r.1], r.2)
    else
      let rs ← throughEach visit cs r.2
      return (r.1 :: rs.1, rs.2)

namespace Editor

/-- Call the editor on a task in the place of a context, and carry out its
edits. -/
def ask (v : Editor N D S) (c : Context N D) (t : Task N D) (x : Pace S) :
    Except Fault (Control × Task N D × Pace S) := do
  let r ← (v.call (c.withFrame t.frame) x.state).mapError .misuse
  let t ← t.editAll c.sight.isRoot r.edits
  return (r.control, { t with frame := { t.frame with data := r.data } },
    { x with state := r.state, quit := r.control == .quit })

theorem ask_of_call {v : Editor N D S} {c : Context N D} {t : Task N D} {x : Pace S}
    {r : EditReply N D S} (h : v.call (c.withFrame t.frame) x.state = .ok r) :
    v.ask c t x = (t.editAll c.sight.isRoot r.edits).map fun t' =>
      (r.control, { t' with frame := { t'.frame with data := r.data } },
        { x with state := r.state, quit := r.control == .quit }) := by
  simp only [ask, h, Except.mapError, bind, Except.bind]
  cases t.editAll c.sight.isRoot r.edits <;> rfl

/-- An answer, and edits that were all carried out. -/
theorem exists_of_ask {v : Editor N D S} {c : Context N D} {t : Task N D} {x : Pace S}
    {out : Control × Task N D × Pace S} (h : v.ask c t x = .ok out) :
    ∃ r t', v.call (c.withFrame t.frame) x.state = .ok r
      ∧ t.editAll c.sight.isRoot r.edits = .ok t'
      ∧ out = (r.control, { t' with frame := { t'.frame with data := r.data } },
        { x with state := r.state, quit := r.control == .quit }) := by
  cases hcall : v.call (c.withFrame t.frame) x.state with
  | error m => simp [ask, hcall, Except.mapError, bind, Except.bind] at h
  | ok r =>
    rw [ask_of_call hcall] at h
    cases hedit : t.editAll c.sight.isRoot r.edits with
    | error f => simp [hedit, Except.map] at h
    | ok t' =>
      rw [hedit] at h
      exact ⟨r, t', rfl, hedit, (Except.ok.inj h).symm⟩

/-- The frames of the children of a task; none if it is deleted. -/
def kidFrames (A : Adapter N) (fresh : D) (t : Task N D) : List (Frame N D) :=
  t.frame.kids (if t.frame.deleted then .empty else A.children t.frame.node) fresh

variable (v : Editor N D S) (A : Adapter N) (run : Nat) (fresh : D)

/-- The children of a task that was entered, the merge of what they hand over,
and `leave`, unless the walk has quit. -/
def descend (visit : Context N D → Pace S → Run (Task N D × Pace S)) (c : Context N D)
    (t : Task N D) (x : Pace S) : Run (Task N D × Pace S) := do
  let kids := (c.withFrame t.frame).below x.made (kidFrames A fresh t)
  let r ← Pace.throughEach visit kids { x with made := x.made + kids.length }
  let t := t.merge A ((Site.ofRun run).below c.sight.path) (r.1.flatMap Task.toChildEdits)
  if r.2.quit then return (t, r.2)
  else
    let r ← Run.ofExcept (v.ask c (ForkJoin.inPhase .leave t) r.2)
    return r.2

/-- A context with everything below it, at most `levels` deep. -/
def visit [Identified N] : (levels : Nat) → Context N D → Pace S → Run (Task N D × Pace S)
  | 0, _, _ => .unfinished
  | levels + 1, c, x =>
    if c.sight.repeatsAbove then do
      let t := Task.ofFrame { c.sight.frame with visited := true, phase := .backRef }
      let r ← Run.ofExcept (v.ask c t x)
      return r.2
    else do
      let r ← Run.ofExcept (v.ask c (.ofFrame c.sight.frame) x)
      if r.1 = .proceed then v.descend A run fresh (visit levels) c r.2.1 r.2.2
      else return r.2

/-- A whole tree. -/
def visitRoot [Identified N] (rootData : D) (levels : Nat) (root : N) (state : S) :
    Run (Task N D × Pace S) :=
  v.visit A run fresh levels ⟨0, ⟨.root root fresh, [], rootData⟩, []⟩ ⟨state, 1, false⟩

end Editor

end Topiary
