/-
Topiary.Proofs.Walk.Cells — the contexts of a work list, by number.

* `Cells.Links` — the way from a context up to its root; the contexts above
  are older, so nothing new can come between.
* `Cells.Shows` — the cells hold a context as its callbacks see it.
* `Cells.Kept` — all cells but some are as they were: what a visit leaves
  alone, so that contexts that still wait look as they did when they were
  made.
-/
import Topiary.Proofs.Walk.Recursive

namespace Topiary

namespace Cells

variable {N D : Type}

@[simp] theorem size_setFrame (cells : Cells N D) (id : Nat) (frame : Frame N D) :
    (cells.setFrame id frame).size = cells.size := by
  simp [setFrame]

theorem getElem?_setFrame (cells : Cells N D) (id j : Nat) (frame : Frame N D) :
    (cells.setFrame id frame)[j]?
      = if id = j then cells[j]?.map fun cell => { cell with frame } else cells[j]? := by
  simp [setFrame, Array.getElem?_modify]

/-- New contexts go to the end. -/
theorem addAll_eq_append (cells : Cells N D) (parent : Option Nat)
    (frames : List (Frame N D)) :
    cells.addAll parent frames = cells ++ (frames.map fun f => Cell.mk f parent).toArray := by
  induction frames generalizing cells with
  | nil => simp [addAll]
  | cons f fs ih =>
    have h := ih (cells.push ⟨f, parent⟩)
    simp only [addAll, List.foldl_cons] at h ⊢
    rw [h]
    apply Array.ext'
    simp

@[simp] theorem size_addAll (cells : Cells N D) (parent : Option Nat)
    (frames : List (Frame N D)) :
    (cells.addAll parent frames).size = cells.size + frames.length := by
  simp [addAll_eq_append]

theorem getElem?_addAll_of_lt (cells : Cells N D) (parent : Option Nat)
    (frames : List (Frame N D)) {j : Nat} (h : j < cells.size) :
    (cells.addAll parent frames)[j]? = cells[j]? := by
  rw [addAll_eq_append, Array.getElem?_append_left h]

theorem getElem?_addAll_add (cells : Cells N D) (parent : Option Nat)
    (frames : List (Frame N D)) (i : Nat) :
    (cells.addAll parent frames)[cells.size + i]?
      = frames[i]?.map fun f => Cell.mk f parent := by
  rw [addAll_eq_append, Array.getElem?_append_right (Nat.le_add_right _ _)]
  simp

/-! ### The way up -/

/-- The cells from the parent of a context up to its root, nearest first;
each is older than the one below it. -/
inductive Links (cells : Cells N D) :
    (id : Nat) → (parent : Option Nat) → List (Nat × Frame N D) → Prop
  | root (id : Nat) : Links cells id none []
  | up {id p : Nat} {frame : Frame N D} {parent : Option Nat}
      {above : List (Nat × Frame N D)} (older : p < id)
      (found : cells[p]? = some ⟨frame, parent⟩) (rest : Links cells p parent above) :
      Links cells id (some p) ((p, frame) :: above)

/-- What callbacks see above a context is what the links lead to. -/
theorem Links.above_eq {cells : Cells N D} {id : Nat} {frame : Frame N D}
    {parent : Option Nat} {above : List (Nat × Frame N D)}
    (h : Links cells id parent above) (hc : cells[id]? = some ⟨frame, parent⟩) :
    cells.above id = above := by
  induction h generalizing frame with
  | root id => rw [Cells.above]; simp [hc]
  | up older found rest ih =>
    rw [Cells.above]
    simp [hc, older, found, ih found]

theorem Links.lt_of_mem {cells : Cells N D} {id j : Nat} {parent : Option Nat}
    {above : List (Nat × Frame N D)} (h : Links cells id parent above)
    (hj : j ∈ above.map Prod.fst) : j < id := by
  induction h with
  | root id => simp at hj
  | up older _ _ ih =>
    rcases List.mem_cons.1 hj with rfl | hj
    · exact older
    · exact Nat.lt_trans (ih hj) older

/-- Links stay as long as the cells on the way up do. -/
theorem Links.congr {cells cells' : Cells N D} {id : Nat} {parent : Option Nat}
    {above : List (Nat × Frame N D)} (h : Links cells id parent above)
    (hup : ∀ j ∈ above.map Prod.fst, cells'[j]? = cells[j]?) :
    Links cells' id parent above := by
  induction h with
  | root id => exact .root id
  | @up id p frame parent above older found rest ih =>
    refine .up older ?_ (ih fun j hj => hup j (List.mem_cons_of_mem _ hj))
    rw [hup p (by simp), found]

/-! ### What the cells show and what they keep -/

/-- The cells hold this context: its own cell, and the cells above it. -/
structure Shows (cells : Cells N D) (c : Context N D) (parent : Option Nat)
    (above : List (Nat × Frame N D)) : Prop where
  found : cells[c.id]? = some ⟨c.sight.frame, parent⟩
  links : Links cells c.id parent above
  frames : c.sight.above = above.map Prod.snd
  ids : c.idsAbove = above.map Prod.fst

/-- Callbacks are given the context that the cells hold. -/
theorem Shows.context_eq {cells : Cells N D} {c : Context N D} {parent : Option Nat}
    {above : List (Nat × Frame N D)} (h : cells.Shows c parent above) (frame : Frame N D) :
    cells.context c.sight.rootData c.id frame = c.withFrame frame := by
  simp only [context, h.links.above_eq h.found, ← h.frames, ← h.ids]
  rfl

theorem Shows.id_lt {cells : Cells N D} {c : Context N D} {parent : Option Nat}
    {above : List (Nat × Frame N D)} (h : cells.Shows c parent above) :
    c.id < cells.size :=
  (Array.getElem?_eq_some_iff.1 h.found).1

/-- The cells that are not among `ids` stay, and none is lost. -/
structure Kept (ids : List Nat) (cells cells' : Cells N D) : Prop where
  size_le : cells.size ≤ cells'.size
  same : ∀ j < cells.size, j ∉ ids → cells'[j]? = cells[j]?

theorem Kept.refl (ids : List Nat) (cells : Cells N D) : Kept ids cells cells :=
  ⟨Nat.le_refl _, fun _ _ _ => rfl⟩

/-- Cells that are new in the meantime may change again. -/
theorem Kept.trans {ids ids' : List Nat} {cells cells' cells'' : Cells N D}
    (h : Kept ids cells cells') (h' : Kept ids' cells' cells'')
    (hids : ∀ j < cells.size, j ∉ ids → j ∉ ids') : Kept ids cells cells'' where
  size_le := Nat.le_trans h.size_le h'.size_le
  same := fun j hj hni => by
    rw [h'.same j (Nat.lt_of_lt_of_le hj h.size_le) (hids j hj hni), h.same j hj hni]

theorem Kept.setFrame (cells : Cells N D) (id : Nat) (frame : Frame N D) :
    Kept [id] cells (cells.setFrame id frame) where
  size_le := by simp
  same := fun j _ hj => by
    rw [getElem?_setFrame, if_neg]
    exact fun h => hj (by simp [h])

theorem Kept.addAll (ids : List Nat) (cells : Cells N D) (parent : Option Nat)
    (frames : List (Frame N D)) : Kept ids cells (cells.addAll parent frames) where
  size_le := by simp
  same := fun _ hj _ => getElem?_addAll_of_lt cells parent frames hj

/-- A context that is kept together with everything above it is shown as
before. -/
theorem Shows.kept {ids : List Nat} {cells cells' : Cells N D} {c : Context N D}
    {parent : Option Nat} {above : List (Nat × Frame N D)}
    (h : cells.Shows c parent above) (hk : Kept ids cells cells') (hid : c.id ∉ ids)
    (hup : ∀ j ∈ above.map Prod.fst, j ∉ ids) : cells'.Shows c parent above where
  found := by rw [hk.same _ h.id_lt hid, h.found]
  links := h.links.congr fun j hj =>
    hk.same j (Nat.lt_trans (h.links.lt_of_mem hj) h.id_lt) (hup j hj)
  frames := h.frames
  ids := h.ids

/-- After a callback the cells hold the context with its new frame. -/
theorem Shows.setFrame {cells : Cells N D} {c : Context N D} {parent : Option Nat}
    {above : List (Nat × Frame N D)} (h : cells.Shows c parent above) (frame : Frame N D) :
    (cells.setFrame c.id frame).Shows (c.withFrame frame) parent above where
  found := by
    simp [Context.withFrame, getElem?_setFrame, h.found]
  links := h.links.congr fun j hj => by
    rw [getElem?_setFrame, if_neg (Nat.ne_of_gt (h.links.lt_of_mem hj))]
  frames := h.frames
  ids := h.ids

/-- Contexts that were just made below a context are held by the cells. -/
theorem Shows.below {cells : Cells N D} {c : Context N D} {parent : Option Nat}
    {above : List (Nat × Frame N D)} (h : cells.Shows c parent above)
    (frames : List (Frame N D)) {kid : Context N D}
    (hk : kid ∈ c.below cells.size frames) :
    (cells.addAll (some c.id) frames).Shows kid (some c.id) ((c.id, c.sight.frame) :: above) := by
  obtain ⟨⟨frame, id⟩, hmem, rfl⟩ := List.mem_map.1 hk
  rw [List.mk_mem_zipIdx_iff_le_and_getElem?_sub] at hmem
  obtain ⟨hle, hframe⟩ := hmem
  obtain ⟨i, rfl⟩ := Nat.exists_eq_add_of_le hle
  rw [Nat.add_sub_cancel_left] at hframe
  refine ⟨?_, .up (Nat.lt_of_lt_of_le h.id_lt hle) ?_ (h.links.congr fun j hj => ?_), ?_, ?_⟩
  · simp [getElem?_addAll_add, hframe]
  · rw [getElem?_addAll_of_lt _ _ _ h.id_lt, h.found]
  · exact getElem?_addAll_of_lt _ _ _ (Nat.lt_trans (h.links.lt_of_mem hj) h.id_lt)
  · simp [h.frames]
  · simp [h.ids]

end Cells

namespace Context

variable {N D : Type}

@[simp] theorem withFrame_self (c : Context N D) : c.withFrame c.sight.frame = c := rfl

/-- New contexts are numbered in order, from the number made so far. -/
theorem map_id_below (c : Context N D) (made : Nat) (frames : List (Frame N D)) :
    (c.below made frames).map Context.id = List.range' made frames.length := by
  rw [below, List.map_map]
  exact List.zipIdx_map_snd made frames

@[simp] theorem length_below (c : Context N D) (made : Nat) (frames : List (Frame N D)) :
    (c.below made frames).length = frames.length := by
  simp [below]

end Context

end Topiary
