/-
Topiary.Proofs.Walk.Agenda — lists of errands that bring up further ones.

A walk with a work list takes one item after the other, and each puts new ones on
the list.  If what an item brings up is a matter of the item alone, then so is all
that comes of it in the end, and the order of the list only says when.

* `TraversalOrder.put` — new items go to the front or to the end.
* `agenda` — the items in the order in which the list takes them.
* `unroll` — an item with all that comes of it, depth first.
* `Ends` — nothing more comes of an item after so many levels.
* `agenda_of_ends` — a list of items that end is worked off: it takes what the
  items unroll to.
* `ends_of_agenda` — if a list is worked off, its items end.
-/
import Mathlib.Data.List.Perm.Basic
import Topiary.Proofs.Walk.Recursive

namespace Topiary

variable {α : Type}

/-- Put new items on a list. -/
def TraversalOrder.put (order : TraversalOrder) (fresh pending : List α) : List α :=
  match order with
  | .depthFirst => fresh ++ pending
  | .breadthFirst => pending ++ fresh

theorem TraversalOrder.put_perm (order : TraversalOrder) (fresh pending : List α) :
    (order.put fresh pending).Perm (fresh ++ pending) := by
  cases order with
  | depthFirst => exact .refl _
  | breadthFirst => exact List.perm_append_comm

/-- The items that a list takes, at most `limit` of them, if it is worked off then. -/
def agenda (next : α → List α) (order : TraversalOrder) : (limit : Nat) → List α → Run (List α)
  | 0, pending => if pending.isEmpty then .done [] else .unfinished
  | _ + 1, [] => .done []
  | limit + 1, item :: pending =>
    (item :: ·) <$> agenda next order limit (order.put (next item) pending)

/-- An item with all that comes of it, at most `levels` deep. -/
def unroll (next : α → List α) : (levels : Nat) → α → List α
  | 0, _ => []
  | levels + 1, item => item :: (next item).flatMap (unroll next levels)

/-- All that comes of an item lies within so many levels. -/
def Ends (next : α → List α) : (levels : Nat) → α → Prop
  | 0, _ => False
  | levels + 1, item => ∀ new ∈ next item, Ends next levels new

section

variable {next : α → List α} {order : TraversalOrder} {levels : Nat} {item : α}

/-! ## Levels -/

theorem Ends.succ : ∀ {levels : Nat} {item : α}, Ends next levels item →
    Ends next (levels + 1) item
  | 0, _, h => h.elim
  | _ + 1, _, h => fun new hnew => Ends.succ (h new hnew)

theorem Ends.mono (h : Ends next levels item) {levels' : Nat} (hle : levels ≤ levels') :
    Ends next levels' item := by
  induction hle with
  | refl => exact h
  | step _ ih => exact ih.succ

/-- What an item brings up ends within the same levels. -/
theorem Ends.below {new : α} (h : Ends next levels item) (hnew : new ∈ next item) :
    Ends next levels new := by
  cases levels with
  | zero => exact h.elim
  | succ levels => exact (h new hnew).succ

/-- Once an item has ended, more levels make no difference. -/
theorem Ends.unroll_succ : ∀ {levels : Nat} {item : α}, Ends next levels item →
    unroll next (levels + 1) item = unroll next levels item
  | 0, _, h => h.elim
  | _ + 1, item, h =>
    congrArg (item :: ·) (List.flatMap_congr fun new hnew => Ends.unroll_succ (h new hnew))

/-- An item that ends comes first, then what it brings up, within the same levels. -/
theorem Ends.unroll_eq (h : Ends next levels item) :
    unroll next levels item = item :: (next item).flatMap (unroll next levels) := by
  rw [← h.unroll_succ]
  rfl

/-- Items that each end, end together. -/
theorem exists_ends {items : List α} (h : ∀ item ∈ items, ∃ levels, Ends next levels item) :
    ∃ levels, ∀ item ∈ items, Ends next levels item := by
  induction items with
  | nil => exact ⟨0, List.forall_mem_nil _⟩
  | cons item items ih =>
    obtain ⟨⟨m, hm⟩, hothers⟩ := List.forall_mem_cons.1 h
    obtain ⟨n, hn⟩ := ih hothers
    refine ⟨max m n, List.forall_mem_cons.2 ⟨hm.mono (Nat.le_max_left m n), fun other hother => ?_⟩⟩
    exact (hn other hother).mono (Nat.le_max_right m n)

/-! ## Working the list off -/

theorem agenda_cons (next : α → List α) (order : TraversalOrder) (limit : Nat) (item : α)
    (pending : List α) : agenda next order (limit + 1) (item :: pending)
      = (item :: ·) <$> agenda next order limit (order.put (next item) pending) := rfl

/-- A list of items that end is worked off with one turn for each item that comes of
them, in either order. -/
theorem agenda_of_ends (order : TraversalOrder) {limit : Nat} {pending : List α}
    (h : ∀ item ∈ pending, Ends next levels item)
    (hlimit : (pending.flatMap (unroll next levels)).length ≤ limit) :
    ∃ taken, agenda next order limit pending = .done taken
      ∧ taken.Perm (pending.flatMap (unroll next levels)) := by
  induction limit generalizing pending with
  | zero =>
    cases pending with
    | nil => exact ⟨[], rfl, .refl _⟩
    | cons item pending =>
      rw [List.flatMap_cons, (h item (List.mem_cons_self ..)).unroll_eq, List.cons_append,
        List.length_cons] at hlimit
      exact absurd hlimit (Nat.not_succ_le_zero _)
  | succ limit ih =>
    cases pending with
    | nil => exact ⟨[], rfl, .refl _⟩
    | cons item pending =>
      have hitem := h item (List.mem_cons_self ..)
      have hperm := order.put_perm (next item) pending
      have hends : ∀ new ∈ order.put (next item) pending, Ends next levels new := by
        intro new hnew
        rcases List.mem_append.1 (hperm.mem_iff.1 hnew) with hnew | hnew
        · exact hitem.below hnew
        · exact h new (List.mem_cons_of_mem _ hnew)
      have hsplit : unroll next levels item ++ pending.flatMap (unroll next levels)
          = item :: (next item ++ pending).flatMap (unroll next levels) := by
        rw [hitem.unroll_eq, List.cons_append, List.flatMap_append]
      have hrest := hperm.flatMap_right (unroll next levels)
      rw [List.flatMap_cons, hsplit] at hlimit ⊢
      obtain ⟨taken, htaken, hperm'⟩ := ih hends (by
        rw [hrest.length_eq]
        exact Nat.le_of_succ_le_succ hlimit)
      exact ⟨item :: taken, by rw [agenda_cons, htaken]; rfl, (hperm'.trans hrest).cons item⟩

/-- If a list is worked off within some limit, all its items end. -/
theorem ends_of_agenda {limit : Nat} {pending : List α}
    (h : agenda next order limit pending ≠ .unfinished) :
    ∀ item ∈ pending, ∃ levels, Ends next levels item := by
  induction limit generalizing pending with
  | zero =>
    cases pending with
    | nil => exact List.forall_mem_nil _
    | cons item pending => exact absurd rfl h
  | succ limit ih =>
    cases pending with
    | nil => exact List.forall_mem_nil _
    | cons item pending =>
      rw [agenda_cons, Run.map_ne_unfinished] at h
      have hrest : ∀ new ∈ next item ++ pending, ∃ levels, Ends next levels new := fun new hnew =>
        ih h new ((order.put_perm _ _).mem_iff.2 hnew)
      rw [List.forall_mem_append] at hrest
      obtain ⟨levels, hlevels⟩ := exists_ends hrest.1
      exact List.forall_mem_cons.2 ⟨⟨levels + 1, hlevels⟩, hrest.2⟩

end

end Topiary
