/-
Topiary.Walk.Run — the outcome of a computation with a step limit.

A visitor can make a walk endless, by changing each node it enters to one
with children, so walks take a limit.  A `Run` is done with a value,
failed with a fault, or unfinished because the limit was reached.
-/
import Topiary.Fault

namespace Topiary

/-- A value, a fault, or neither within the limit. -/
inductive Run (α : Type) where
  | done (value : α)
  | failed (fault : Fault)
  | unfinished
deriving DecidableEq, Repr

namespace Run

variable {α β : Type}

/-- Go on with the value, if there is one. -/
def bind : Run α → (α → Run β) → Run β
  | done a, f => f a
  | failed e, _ => failed e
  | unfinished, _ => unfinished

instance : Monad Run where
  pure := done
  bind := bind

/-- A computation without a limit. -/
def ofExcept : Except Fault α → Run α
  | .ok a => done a
  | .error e => failed e

@[simp] theorem pure_eq (a : α) : (pure a : Run α) = done a := rfl

@[simp] theorem done_bind (a : α) (f : α → Run β) : (done a >>= f) = f a := rfl

@[simp] theorem failed_bind (e : Fault) (f : α → Run β) :
    ((failed e : Run α) >>= f) = failed e := rfl

@[simp] theorem unfinished_bind (f : α → Run β) :
    ((unfinished : Run α) >>= f) = unfinished := rfl

instance : LawfulMonad Run :=
  LawfulMonad.mk' Run (by intro α x; cases x <;> rfl) (by intros; rfl)
    (by intro α β γ x f g; cases x <;> rfl)

end Run

end Topiary
