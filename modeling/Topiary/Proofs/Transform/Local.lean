/-
Topiary.Proofs.Transform.Local — one visitor for both kinds of transform.

A visitor that can be used in a sequential and in a fork-join transform
decides by what its own context shows.  It has no state, knows no numbers of
contexts and no tasks, and it does not quit.

* `LocalVisitor` — such a visitor; `inSequence` and `inParallel` hand it to
  the two kinds of walks.
* `Run.Agrees` — two computations end alike: with related values, with the
  same misuse, or not at all.  One lemma for each way to put computations
  together.
-/
import Topiary.Parallel.Walk
import Topiary.Proofs.Parallel.Task
import Topiary.Proofs.Walk.Recursive
import Topiary.Transform

namespace Topiary

/-! ## Visitors that look at their own context only -/

/-- Callbacks that are functions of what their own context shows. -/
structure LocalVisitor (N D : Type) where
  /-- The answer to a context, or a misuse that stops the walk. -/
  call : Sight N D → Except Misuse (TaskAnswer N D)
  never_quits : ∀ s a, call s = .ok a → a.control ≠ .quit
  /-- Edits are made in `enter` and `leave` only. -/
  backRef_edits : ∀ s a, s.frame.phase = .backRef → call s = .ok a → a.edits = []

namespace LocalVisitor

variable {N D : Type}

/-- The answer to a context in a walk. -/
def answer (v : LocalVisitor N D) (s : Sight N D) : Except Fault (TaskAnswer N D) :=
  (v.call s).mapError .misuse

/-- The visitor for a sequential transform. -/
def inSequence (v : LocalVisitor N D) : EditVisitor N D Unit := fun c _ => do
  let a ← v.answer c.sight
  return ⟨a.control, a.edits.map .edit, a.data, ()⟩

/-- The visitor for a fork-join transform. -/
def inParallel (v : LocalVisitor N D) : TaskVisitor N D := fun c => v.answer c.sight

/-- The sequential transform with the visitor. -/
def transform (v : LocalVisitor N D) (A : Adapter N) (run : Nat) (fresh rootData : D) :
    Transform N D Unit :=
  ⟨A, v.inSequence, run, fresh, rootData⟩

/-- The fork-join transform with the visitor. -/
def forkJoin (v : LocalVisitor N D) (A : Adapter N) (run : Nat) (fresh rootData : D) :
    ForkJoin N D :=
  .transforming A v.inParallel run fresh rootData

end LocalVisitor

/-! ## Computations that end alike -/

namespace Run

variable {α β γ δ : Type}

/-- Both are done with related values, fail with one and the same misuse, or
are unfinished. -/
def Agrees (R : α → β → Prop) : Run α → Run β → Prop
  | done a, done b => R a b
  | failed e, failed f => ∃ m, e = .misuse m ∧ f = .misuse m
  | unfinished, unfinished => True
  | _, _ => False

namespace Agrees

variable {R : α → β → Prop} {Q : γ → δ → Prop} {x : Run α} {y : Run β}

theorem misuse (m : Misuse) : Agrees R (failed (.misuse m)) (failed (.misuse m)) :=
  ⟨m, rfl, rfl⟩

/-- A computation that can only fail with misuses. -/
theorem of_mapError (x : Except Misuse α) :
    Agrees Eq (ofExcept (x.mapError .misuse)) (ofExcept (x.mapError .misuse)) := by
  cases x with
  | error m => exact misuse m
  | ok a => exact rfl

theorem mono (h : Agrees R x y) {R' : α → β → Prop} (hR : ∀ a b, R a b → R' a b) :
    Agrees R' x y := by
  cases x <;> cases y <;> simp only [Agrees] at h ⊢
  · exact hR _ _ h
  · exact h

theorem trans {ε : Type} {Q : β → ε → Prop} {z : Run ε} (h : Agrees R x y) (h' : Agrees Q y z) :
    Agrees (fun a c => ∃ b, R a b ∧ Q b c) x z := by
  cases x <;> cases y <;> cases z <;> simp only [Agrees] at h h' ⊢
  · exact ⟨_, h, h'⟩
  · obtain ⟨m, rfl, rfl⟩ := h
    exact h'

/-- Computations that agree are continued by computations that agree. -/
theorem bind (h : Agrees R x y) {f : α → Run γ} {g : β → Run δ}
    (hfg : ∀ a b, R a b → Agrees Q (f a) (g b)) : Agrees Q (x >>= f) (y >>= g) := by
  cases x <;> cases y <;> simp only [Agrees] at h
  · exact hfg _ _ h
  · obtain ⟨m, rfl, rfl⟩ := h
    exact misuse m
  · trivial

/-- What is made of a value is what is seen of a related one. -/
theorem bind_eq_map (h : Agrees R x y) {f : α → Run γ} {g : β → γ}
    (hfg : ∀ a b, R a b → f a = done (g b)) : x >>= f = g <$> y := by
  cases x <;> cases y <;> simp only [Agrees] at h
  · rw [done_bind, map_done, hfg _ _ h]
  · obtain ⟨m, rfl, rfl⟩ := h
    rfl
  · rfl

theorem except_map {x : Except Fault α} {y : Except Fault β}
    (h : Agrees R (ofExcept x) (ofExcept y)) {f : α → γ} {g : β → δ}
    (hfg : ∀ a b, R a b → Q (f a) (g b)) :
    Agrees Q (ofExcept (x.map f)) (ofExcept (y.map g)) := by
  cases x <;> cases y <;> simp only [ofExcept, Agrees] at h
  · exact h
  · exact hfg _ _ h

theorem map_left {x : Except Fault α} {y : Run β} (h : Agrees R (ofExcept x) y) {f : α → γ}
    {Q : γ → β → Prop} (hf : ∀ a b, R a b → Q (f a) b) : Agrees Q (ofExcept (x.map f)) y := by
  cases x <;> cases y <;> simp only [ofExcept, Agrees] at h
  · exact h
  · exact hf _ _ h

theorem map_right (h : Agrees R x y) {g : β → δ} {Q : α → δ → Prop}
    (hg : ∀ a b, R a b → Q a (g b)) : Agrees Q x (y >>= fun b => pure (g b)) := by
  cases x <;> cases y <;> simp only [Agrees] at h
  · exact hg _ _ h
  · exact h
  · trivial

/-- Where the one is done, so is the other. -/
theorem exists_done {a : α} (h : Agrees R (done a) y) : ∃ b, y = done b ∧ R a b := by
  cases y with
  | done b => exact ⟨b, rfl, h⟩
  | failed e => exact h.elim
  | unfinished => exact h.elim

/-- What fails is a misuse. -/
theorem exists_misuse (h : Agrees R x y) {e : Fault} (he : y = failed e) :
    ∃ m, e = .misuse m := by
  subst he
  cases x <;> simp only [Agrees] at h
  obtain ⟨m, -, rfl⟩ := h
  exact ⟨m, rfl⟩

end Agrees

@[simp] theorem ofExcept_ok (a : α) : ofExcept (.ok a) = done a := rfl

theorem except_map_map (x : Except Fault α) (f : α → β) (g : β → γ) :
    (x.map f).map g = x.map fun a => g (f a) := by
  cases x <;> rfl

theorem ofExcept_bind (x : Except Fault α) (f : α → Except Fault β) :
    ofExcept (x >>= f) = ofExcept x >>= fun a => ofExcept (f a) := by
  cases x <;> rfl

end Run

end Topiary
