/-
Topiary.Proofs.Walk.Lineage — the way from a context up to its root.

Parent, location and depth of a context are given to it when it is made, and so is the
node as it was reached.  No callback changes any of this, so whatever else happens to the
contexts, the way up stays what it was.

* `Cells.place?` — what a context is given when it is made; `place?_setFrame`,
  `place?_addAll_of_lt`, `place?_addAll_add` — it stays, and what new contexts get.
* `Cells.Lineage` — the numbers and the locations on the way up.
* `Lineage.congr`, `Lineage.kid` — it is a matter of the places alone; new contexts.
* `Lineage.links` — following the parents leads to the root.
* `Lineage.context` — what callbacks see of it.
* `Traversal.getElem?_start` — the contexts in the beginning.
-/
import Topiary.Proofs.Walk.Cells

namespace Topiary

variable {N D : Type}

/-- What no callback can change of a context. -/
structure Place (N : Type) where
  parent : Option Nat
  location : Option Location
  depth : Nat
  reached : N

/-- The place of a frame below a parent. -/
def Frame.place (parent : Option Nat) (frame : Frame N D) : Place N :=
  ⟨parent, frame.location, frame.depth, frame.reached⟩

namespace Cells

/-- The place of a context. -/
def place? (cells : Cells N D) (id : Nat) : Option (Place N) :=
  (cells[id]?).map fun cell => cell.frame.place cell.parent

variable {cells cells' : Cells N D} {id j : Nat}

theorem lt_size_of_place {place : Place N} (h : cells.place? id = some place) :
    id < cells.size := by
  obtain ⟨cell, hcell, -⟩ := Option.map_eq_some_iff.1 h
  exact (Array.getElem?_eq_some_iff.1 hcell).1

theorem place?_eq_of_cell {cell : Cell N D} (hcell : cells[id]? = some cell) :
    cells.place? id = some (cell.frame.place cell.parent) := by
  rw [place?, hcell]
  rfl

/-- A callback leaves all places alone. -/
theorem place?_setFrame {cell : Cell N D} (hcell : cells[id]? = some cell) {frame : Frame N D}
    (hplace : ∀ parent, frame.place parent = cell.frame.place parent) (j : Nat) :
    (cells.setFrame id frame).place? j = cells.place? j := by
  rw [place?, place?, getElem?_setFrame]
  split
  · rename_i hj
    subst hj
    simp only [hcell, Option.map_some, hplace]
  · rfl

theorem place?_addAll_of_lt (cells : Cells N D) (parent : Option Nat) (frames : List (Frame N D))
    (hj : j < cells.size) : (cells.addAll parent frames).place? j = cells.place? j := by
  rw [place?, place?, getElem?_addAll_of_lt _ _ _ hj]

theorem place?_addAll_add (cells : Cells N D) (parent : Option Nat) (frames : List (Frame N D))
    (i : Nat) : (cells.addAll parent frames).place? (cells.size + i)
      = frames[i]?.map (Frame.place parent) := by
  rw [place?, getElem?_addAll_add, Option.map_map]
  rfl

/-! ### The way up -/

/-- The numbers of the contexts above a context, and the locations on the way from it up
to its root, nearest first. -/
inductive Lineage (cells : Cells N D) :
    (id : Nat) → (ids : List Nat) → (path : List Location) → Prop
  | root {id : Nat} {node : N} (found : cells.place? id = some ⟨none, none, 0, node⟩) :
    Lineage cells id [] []
  | child {id p : Nat} {l : Location} {node : N} {ids : List Nat} {path : List Location}
    (found : cells.place? id = some ⟨some p, some l, ids.length + 1, node⟩) (older : p < id)
    (rest : Lineage cells p ids path) : Lineage cells id (p :: ids) (l :: path)

theorem above_of_root (hparent : (cells[id]?).bind Cell.parent = none) : cells.above id = [] := by
  rw [above]
  cases hcell : cells[id]? with
  | none => rfl
  | some cell =>
    rw [hcell] at hparent
    simp only [show cell.parent = none from hparent]

theorem above_of_parent {p : Nat} {parent : Cell N D}
    (hup : (cells[id]?).bind Cell.parent = some p) (hlt : p < id)
    (hparent : cells[p]? = some parent) :
    cells.above id = (p, parent.frame) :: cells.above p := by
  obtain ⟨cell, hcell, hp⟩ := Option.bind_eq_some_iff.1 hup
  rw [above]
  simp [hcell, hp, hlt, hparent]

theorem parent_of_place {place : Place N} (h : cells.place? id = some place) :
    (cells[id]?).bind Cell.parent = place.parent := by
  obtain ⟨cell, hcell, rfl⟩ := Option.map_eq_some_iff.1 h
  rw [hcell]
  rfl

namespace Lineage

variable {ids : List Nat} {path : List Location}

/-- What the context itself tells of its lineage. -/
theorem exists_place (h : cells.Lineage id ids path) :
    ∃ node, cells.place? id = some ⟨ids.head?, path.head?, ids.length, node⟩ := by
  cases h with
  | root found => exact ⟨_, found⟩
  | child found _ _ => exact ⟨_, found⟩

theorem place_eq (h : cells.Lineage id ids path) {cell : Cell N D}
    (hcell : cells[id]? = some cell) : cell.parent = ids.head? ∧ cell.frame.location = path.head?
      ∧ cell.frame.depth = ids.length := by
  obtain ⟨node, hplace⟩ := h.exists_place
  have heq := Option.some.inj ((place?_eq_of_cell hcell).symm.trans hplace)
  exact ⟨congrArg Place.parent heq, congrArg Place.location heq, congrArg Place.depth heq⟩

theorem lt_size (h : cells.Lineage id ids path) : id < cells.size := by
  obtain ⟨node, hplace⟩ := h.exists_place
  exact lt_size_of_place hplace

theorem lt_of_mem (h : cells.Lineage id ids path) (hj : j ∈ ids) : j < id := by
  induction h with
  | root => cases hj
  | child _ older _ ih =>
    rcases List.mem_cons.1 hj with rfl | hj
    · exact older
    · exact Nat.lt_trans (ih hj) older

/-- There is one way up. -/
theorem unique (h : cells.Lineage id ids path) {ids' : List Nat} {path' : List Location}
    (h' : cells.Lineage id ids' path') : ids' = ids ∧ path' = path := by
  induction h generalizing ids' path' with
  | root found =>
    cases h' with
    | root _ => exact ⟨rfl, rfl⟩
    | child found' _ _ => cases found.symm.trans found'
  | child found _ _ ih =>
    cases h' with
    | root found' => cases found.symm.trans found'
    | child found' _ rest' =>
      have heq := Option.some.inj (found.symm.trans found')
      obtain rfl := Option.some.inj (congrArg Place.parent heq)
      obtain rfl := Option.some.inj (congrArg Place.location heq)
      obtain ⟨rfl, rfl⟩ := ih rest'
      exact ⟨rfl, rfl⟩

/-- The way up stays as long as the places do. -/
theorem congr (h : cells.Lineage id ids path)
    (hplaces : ∀ j < cells.size, cells'.place? j = cells.place? j) :
    cells'.Lineage id ids path := by
  induction h with
  | root found => exact .root ((hplaces _ (lt_size_of_place found)).trans found)
  | child found older _ ih =>
    exact .child ((hplaces _ (lt_size_of_place found)).trans found) older ih

theorem addAll (h : cells.Lineage j ids path) (parent : Option Nat) (frames : List (Frame N D)) :
    (cells.addAll parent frames).Lineage j ids path :=
  h.congr fun _ hlt => place?_addAll_of_lt cells parent frames hlt

/-- The lineage of a context that was just made. -/
theorem kid (h : cells.Lineage id ids path) {frames : List (Frame N D)} {i : Nat}
    {frame : Frame N D} (hframe : frames[i]? = some frame) {l : Location}
    (hlocation : frame.location = some l) (hdepth : frame.depth = ids.length + 1) :
    (cells.addAll (some id) frames).Lineage (cells.size + i) (id :: ids) (l :: path) := by
  have hplace : (cells.addAll (some id) frames).place? (cells.size + i)
      = some ⟨some id, some l, ids.length + 1, frame.reached⟩ := by
    rw [place?_addAll_add, hframe, Option.map_some, Frame.place, hlocation, hdepth]
  exact .child hplace (Nat.lt_add_right i h.lt_size) (h.addAll _ _)

/-! ### What is seen of it -/

/-- Following the parents leads to the root, over the contexts that callbacks see above. -/
theorem links (h : cells.Lineage id ids path) {cell : Cell N D} (hcell : cells[id]? = some cell) :
    cells.Links id cell.parent (cells.above id) := by
  induction h generalizing cell with
  | root found =>
    have hparent := parent_of_place found
    rw [above_of_root hparent, show cell.parent = none by rw [hcell] at hparent; exact hparent]
    exact .root _
  | child found older rest ih =>
    have hparent := parent_of_place found
    obtain ⟨up, hup⟩ : ∃ up, cells[_]? = some up := ⟨_, Array.getElem?_eq_getElem rest.lt_size⟩
    rw [above_of_parent hparent older hup,
      show cell.parent = some _ by rw [hcell] at hparent; exact hparent]
    exact .up older hup (ih hup)

/-- Callbacks see the numbers and the locations on the way up. -/
theorem context (h : cells.Lineage id ids path) (rootData : D) {frame : Frame N D}
    (hlocation : frame.location = path.head?) :
    (cells.context rootData id frame).idsAbove = ids
      ∧ (cells.context rootData id frame).sight.path = path := by
  induction h generalizing frame with
  | root found =>
    simp [Cells.context, Sight.path, Sight.crumbs, Sight.crumbsBelow,
      above_of_root (parent_of_place found)]
  | @child id p l node ids path found older rest ih =>
    obtain ⟨up, hup⟩ : ∃ up, cells[p]? = some up := ⟨_, Array.getElem?_eq_getElem rest.lt_size⟩
    obtain ⟨hids, hpath⟩ := ih (rest.place_eq hup).2.1
    have habove := above_of_parent (parent_of_place found) older hup
    have hl : frame.location = some l := hlocation
    simp only [Cells.context, Sight.path, Sight.crumbs] at hids hpath ⊢
    simp only [habove, List.map_cons, Sight.crumbsBelow, hl, hids, hpath, and_self]

end Lineage

end Cells

/-- In the beginning there is one context for each root. -/
theorem Traversal.getElem?_start {S : Type} (t : Traversal N D S) (roots : List N) (state : S)
    (i : Nat) : (t.start roots state).cells[i]?
      = roots[i]?.map fun node => ⟨.root node t.fresh, none⟩ := by
  have hget := Cells.getElem?_addAll_add (#[] : Cells N D) none
    (roots.map fun node => Frame.root node t.fresh) i
  rw [List.getElem?_map, Option.map_map, Array.size_empty, Nat.zero_add] at hget
  exact hget

end Topiary
