/-
Topiary.Proofs.Walk.Nesting — depth first, end marks are nested.

A node that was entered waits for its end mark while its descendants are visited.
Depth first, the end marks on the list are those of the nodes above the next item,
nearest first, and the same holds for each item with what comes after it.

* `Cells.idsAbove`, `Cells.crumbs` — the numbers above a context, and its
  breadcrumbs; `Lineage.above_congr`, `Lineage.crumbs_congr` — they stay as long as the
  contexts above do.
* `Context.ancestors` — the contexts above, as a callback sees them, and
  `Lineage.ancestors` — which ones they are.
* `Cells.Nests` — the end marks after each item; `Nests.turn`, `Nests.of_reaches` —
  one turn of the loop, and all of them.
-/
import Topiary.Proofs.Walk.Breadcrumbs
import Topiary.Proofs.Walk.Queue

namespace Topiary

variable {N D S : Type}

/-- The contexts above a context with their numbers, nearest first. -/
def Context.ancestors (c : Context N D) : List (Nat × Sight N D) :=
  c.idsAbove.zip c.sight.sightsAbove

/-- The sights above are told by the frames above and the root data. -/
theorem Sight.sightsAbove_cons (frame parent : Frame N D) (above : List (Frame N D))
    (rootData : D) : (Sight.mk frame (parent :: above) rootData).sightsAbove
      = ⟨parent, above, rootData⟩ :: (Sight.mk parent above rootData).sightsAbove := by
  have hgo : ∀ fs : List (Frame N D), sightsAbove.go ⟨frame, parent :: above, rootData⟩ fs
      = sightsAbove.go ⟨parent, above, rootData⟩ fs := by
    intro fs
    induction fs with
    | nil => rfl
    | cons f fs ih => simp only [sightsAbove.go, ih]
  exact congrArg (_ :: ·) (hgo above)

namespace Cells

/-- The numbers of the contexts above a context, nearest first. -/
def idsAbove (cells : Cells N D) (id : Nat) : List Nat := (cells.above id).map Prod.fst

/-- The breadcrumbs of a context. -/
def crumbs (cells : Cells N D) (id : Nat) : List (Breadcrumb N) :=
  match cells[id]? with
  | none => []
  | some cell => Sight.crumbsBelow cell.frame ((cells.above id).map Prod.snd)

variable {cells cells' : Cells N D} {id j : Nat} {ids : List Nat} {path : List Location}

/-! ## What is above a context -/

theorem crumbs_of_cell {cell : Cell N D} (hcell : cells[id]? = some cell) {frame : Frame N D}
    (hlocation : frame.location = cell.frame.location) (rootData : D) :
    (cells.context rootData id frame).sight.crumbs = cells.crumbs id := by
  rw [crumbs, hcell]
  exact Sight.crumbsBelow_congr hlocation _

namespace Lineage

theorem exists_cell (h : cells.Lineage id ids path) : ∃ cell, cells[id]? = some cell :=
  ⟨_, Array.getElem?_eq_getElem h.lt_size⟩

theorem idsAbove_eq (h : cells.Lineage id ids path) : cells.idsAbove id = ids := by
  induction h with
  | root found => rw [idsAbove, above_of_root (parent_of_place found), List.map_nil]
  | child found older rest ih =>
    obtain ⟨up, hup⟩ := rest.exists_cell
    rw [idsAbove, above_of_parent (parent_of_place found) older hup, List.map_cons]
    exact congrArg (_ :: ·) ih

/-- The numbers above those above are above. -/
theorem of_mem (h : cells.Lineage id ids path) (hj : j ∈ ids) :
    ∃ near ids' path', ids = near ++ j :: ids' ∧ cells.Lineage j ids' path' := by
  induction h with
  | root => cases hj
  | child _ _ rest ih =>
    rcases List.mem_cons.1 hj with rfl | hj
    · exact ⟨[], _, _, rfl, rest⟩
    · obtain ⟨near, ids', path', rfl, hrest⟩ := ih hj
      exact ⟨_ :: near, ids', path', rfl, hrest⟩

/-- What is above a context stays as long as places, and the contexts above, do. -/
theorem above_congr (h : cells.Lineage id ids path)
    (hplaces : ∀ k < cells.size, cells'.place? k = cells.place? k)
    (hsame : ∀ k ∈ ids, cells'[k]? = cells[k]?) : cells'.above id = cells.above id := by
  induction h with
  | root found =>
    have found' := (hplaces _ (lt_size_of_place found)).trans found
    rw [above_of_root (parent_of_place found), above_of_root (parent_of_place found')]
  | child found older rest ih =>
    obtain ⟨up, hup⟩ := rest.exists_cell
    have found' := (hplaces _ (lt_size_of_place found)).trans found
    rw [List.forall_mem_cons] at hsame
    rw [above_of_parent (parent_of_place found) older hup,
      above_of_parent (parent_of_place found') older (hsame.1.trans hup), ih hsame.2]

/-- So do its breadcrumbs. -/
theorem crumbs_congr (h : cells.Lineage id ids path)
    (hplaces : ∀ k < cells.size, cells'.place? k = cells.place? k)
    (hsame : ∀ k ∈ ids, cells'[k]? = cells[k]?) : cells'.crumbs id = cells.crumbs id := by
  obtain ⟨cell, hcell⟩ := h.exists_cell
  have hplace := hplaces id h.lt_size
  obtain ⟨cell', hcell'⟩ := (h.congr hplaces).exists_cell
  rw [place?_eq_of_cell hcell, place?_eq_of_cell hcell'] at hplace
  have hlocation : cell'.frame.location = cell.frame.location :=
    congrArg Place.location (Option.some.inj hplace)
  rw [crumbs, crumbs, hcell, hcell', h.above_congr hplaces hsame]
  exact Sight.crumbsBelow_congr hlocation _

/-- The first breadcrumb holds the node above as it stands. -/
theorem crumbs_cons {p : Nat} {l : Location} {parent : Cell N D}
    (h : cells.Lineage id (p :: ids) (l :: path)) (hparent : cells[p]? = some parent) :
    cells.crumbs id = ⟨parent.frame.node, l⟩ :: cells.crumbs p := by
  obtain ⟨cell, hcell⟩ := h.exists_cell
  have hlocation : cell.frame.location = some l := (h.place_eq hcell).2.1
  cases h with
  | child found older rest =>
    rw [crumbs, crumbs, hcell, hparent, above_of_parent (parent_of_place found) older hparent]
    simp only [List.map_cons, Sight.crumbsBelow, hlocation]

/-- The ancestors that callbacks see are the contexts above. -/
theorem ancestors (h : cells.Lineage id ids path) (rootData : D) (frame : Frame N D) :
    (cells.context rootData id frame).ancestors.map Prod.fst = ids
      ∧ ∀ a ∈ (cells.context rootData id frame).ancestors, ∃ cell, cells[a.1]? = some cell
        ∧ a.2.frame = cell.frame ∧ a.2.crumbs = cells.crumbs a.1 := by
  induction h generalizing frame with
  | root found =>
    simp [Context.ancestors, Cells.context, above_of_root (parent_of_place found)]
  | @child id p l node ids path found older rest ih =>
    obtain ⟨up, hup⟩ := rest.exists_cell
    obtain ⟨hids, hall⟩ := ih up.frame
    have hsplit : (cells.context rootData id frame).ancestors
        = (p, ⟨up.frame, (cells.above p).map Prod.snd, rootData⟩)
          :: (cells.context rootData p up.frame).ancestors := by
      simp only [Context.ancestors, Cells.context, Sight.sightsAbove_cons, List.zip_cons_cons,
        above_of_parent (parent_of_place found) older hup, List.map_cons]
    rw [hsplit, List.map_cons, hids, List.forall_mem_cons]
    exact ⟨rfl, ⟨up, hup, rfl, crumbs_of_cell hup rfl rootData⟩, hall⟩

end Lineage

/-! ## Nested end marks -/

/-- The contexts above that of each item are those whose end marks come after it. -/
def Nests (cells : Cells N D) : List Work → Prop
  | [] => True
  | item :: pending =>
    (∃ path, cells.Lineage item.id (pending.filterMap Work.leave?) path) ∧ cells.Nests pending

namespace Nests

variable {pending : List Work}

theorem congr (h : cells.Nests pending)
    (hplaces : ∀ k < cells.size, cells'.place? k = cells.place? k) : cells'.Nests pending := by
  induction pending with
  | nil => trivial
  | cons item pending ih =>
    obtain ⟨⟨path, hpath⟩, hrest⟩ := h
    exact ⟨⟨path, hpath.congr hplaces⟩, ih hrest⟩

/-- The items that take the place of a visit. -/
theorem inside (h : cells.Nests pending)
    (hid : cells.Lineage id (pending.filterMap Work.leave?) path) {cell : Cell N D}
    (hcell : cells[id]? = some cell) {frames : List (Frame N D)}
    (hframes : ∀ frame ∈ frames, ∃ l node data, frame = cell.frame.child l node data) :
    (cells.addAll (some id) frames).Nests
      (Work.inside id cells.size frames.length ++ pending) := by
  have hplaces : ∀ k < cells.size,
      (cells.addAll (some id) frames).place? k = cells.place? k := fun k hk =>
    place?_addAll_of_lt cells (some id) frames hk
  have hkids : ∀ count made, made + count = frames.length →
      (cells.addAll (some id) frames).Nests
        ((List.range' (cells.size + made) count).map Work.visit ++ .leave id :: pending) := by
    intro count
    induction count with
    | zero => exact fun _ _ => ⟨⟨path, hid.congr hplaces⟩, h.congr hplaces⟩
    | succ count ih =>
      intro made hmade
      have hlt : made < frames.length := by omega
      obtain ⟨l, node, data, hframe⟩ := hframes _ (List.getElem_mem hlt)
      have hkid := hid.kid (List.getElem?_eq_getElem hlt) (l := l) (by rw [hframe]; rfl)
        (by rw [hframe]; exact congrArg (· + 1) (hid.place_eq hcell).2.2)
      rw [List.range'_succ, List.map_cons, List.cons_append]
      refine ⟨⟨l :: path, ?_⟩, ih (made + 1) (by omega)⟩
      have hleaves : ∀ ks : List Nat,
          (ks.map Work.visit ++ Work.leave id :: pending).filterMap Work.leave?
            = id :: pending.filterMap Work.leave? := by
        intro ks
        simp [List.filterMap_append, List.filterMap_map, Function.comp_def, Work.leave?]
      rw [hleaves]
      exact hkid
  have hall := hkids frames.length 0 (Nat.zero_add _)
  rwa [Work.inside, List.append_assoc, List.singleton_append]

end Nests

end Cells

/-! ## The loop -/

namespace Traversal

variable {t : Traversal N D S} {w x : Worklist N D S} {item : Work} {c : Context N D}
  {a : Answer N D S} {pending : List Work}

/-- In the beginning there are the roots alone. -/
theorem nests_start (t : Traversal N D S) (roots : List N) (state : S) :
    (t.start roots state).cells.Nests (t.start roots state).pending := by
  have hall : ∀ ids : List Nat, (∀ i ∈ ids, i < roots.length) →
      (t.start roots state).cells.Nests (ids.map Work.visit) := by
    intro ids
    induction ids with
    | nil => exact fun _ => trivial
    | cons i ids ih =>
      intro hids
      rw [List.forall_mem_cons] at hids
      have hget := t.getElem?_start roots state i
      rw [List.getElem?_eq_getElem hids.1] at hget
      refine ⟨⟨[], ?_⟩, ih hids.2⟩
      have hnone : (ids.map Work.visit).filterMap Work.leave? = [] := by
        simp [List.filterMap_map, Function.comp_def, Work.leave?]
      rw [hnone]
      exact .root (Cells.place?_eq_of_cell hget)
  exact hall _ fun i hi => List.mem_range.1 hi

variable [Identified N]

theorem id_of_handed (hhanded : t.handed? w.cells item = some c) : c.id = item.id := by
  obtain ⟨cell, -, rfl⟩ := exists_cell_of_handed hhanded
  rfl

/-- A callback leaves all places alone. -/
theorem place?_answered (hhanded : t.handed? w.cells item = some c) (k : Nat) :
    (w.answered c a).cells.place? k = w.cells.place? k := by
  obtain ⟨cell, hcell, rfl⟩ := exists_cell_of_handed hhanded
  obtain ⟨phase, visited, hframe⟩ := t.shownFrame_eq w.cells cell.frame item
  exact Cells.place?_setFrame hcell (fun _ => by rw [hframe]; rfl) k

omit [Identified N] in
/-- Nor does it change any other context. -/
theorem getElem?_answered_of_ne (w : Worklist N D S) (c : Context N D) (a : Answer N D S) {k : Nat}
    (hk : k ≠ c.id) : (w.answered c a).cells[k]? = w.cells[k]? :=
  (Cells.getElem?_setFrame ..).trans (if_neg hk.symm)

end Traversal

namespace Cells.Nests

variable [Identified N] {t : Traversal N D S} {w x : Worklist N D S} {item : Work}
  {c : Context N D} {a : Answer N D S} {pending : List Work}

/-- One turn of the loop. -/
theorem turn (h : w.cells.Nests (item :: pending)) (ht : t.order = .depthFirst)
    (hhanded : t.handed? w.cells item = some c) (hturn : t.Turn { w with pending } item c a x) :
    x.cells.Nests x.pending := by
  obtain ⟨⟨path, hpath⟩, hrest⟩ := h
  have hplaces : ∀ k < w.cells.size, (w.answered c a).cells.place? k = w.cells.place? k :=
    fun k _ => Traversal.place?_answered hhanded k
  cases hturn with
  | leave _ => exact hrest.congr hplaces
  | backRef _ => exact hrest.congr hplaces
  | halt _ _ => exact hrest.congr hplaces
  | @descend id _ _ _ _ =>
    have hid := Traversal.id_of_handed hhanded
    have hself := hpath.congr hplaces
    rw [← hid] at hself
    obtain ⟨cell, hcell⟩ := hself.exists_cell
    let y : Worklist N D S :=
      { Worklist.answered { w with pending } c a with entered := w.entered + 1 }
    rw [t.expand_eq_kids (w := y) hcell, ht]
    exact (hrest.congr hplaces).inside hself hcell fun frame hframe => by
      obtain ⟨located, -, rfl⟩ := List.mem_map.1 hframe
      exact ⟨_, _, _, rfl⟩

theorem next (h : w.cells.Nests w.pending) (ht : t.order = .depthFirst)
    (hnext : t.next? w = some x) : x.cells.Nests x.pending := by
  obtain ⟨item, pending, hpending, -, hcases⟩ := Traversal.next_cases hnext
  rw [hpending] at h
  rcases hcases with ⟨-, rfl⟩ | ⟨c, a, hhanded, -, hturn⟩
  · exact h.2
  · exact h.turn ht hhanded hturn

/-- All turns of the loop. -/
theorem of_reaches (h : w.cells.Nests w.pending) (ht : t.order = .depthFirst)
    (hreaches : t.Reaches w x) : x.cells.Nests x.pending := by
  induction hreaches with
  | refl => exact h
  | tail _ hnext ih => exact ih.next ht hnext

end Cells.Nests

end Topiary
