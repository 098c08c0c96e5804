/-
Topiary.Proofs.Walk.DepthFirst — the depth-first work list is the recursion.

* `Traversal.WorksOff` — the list works some items off and comes to where
  the recursion comes, whatever waits behind them; composed item by item by
  `WorksOff.step` and part by part by `WorksOff.bind`.
* `Traversal.worksOff_visit` — one context with everything below it.
* `Traversal.visit_finishes` — no step limit is met by the list alone.
* `Traversal.settles_observe_iff` — both walks settle on the same outcomes.
-/
import Topiary.Proofs.Walk.Cells

namespace Topiary

/-! ## Single items -/

namespace Traversal

variable {N D S : Type}

/-- The logged work list where a course stands. -/
def worklist (cells : Cells N D) (pending : List Work) (x : Course N D S) :
    Worklist N D (List (Context N D) × S) :=
  ⟨cells, pending, (x.calls, x.state), x.entered, x.quit⟩

/-- A callback of the work list is one of the recursion. -/
theorem call_worklist (t : Traversal N D S) {cells : Cells N D} {c : Context N D}
    {frame : Frame N D} (hc : cells.context t.rootData c.id frame = c.withFrame frame)
    (pending : List Work) (x : Course N D S) :
    t.logged.call (worklist cells pending x) c.id frame
      = (t.consult (c.withFrame frame) x).map fun r =>
          (r.1, worklist (cells.setFrame c.id r.2.1.sight.frame) pending r.2.2) := by
  simp only [call, logged, consult, worklist, hc]
  cases t.visitor (c.withFrame frame) x.state <;> rfl

/-- The new items of a node that was entered are its children and then its
end mark. -/
theorem expand_worklist (t : Traversal N D S) (ht : t.order = .depthFirst)
    {cells : Cells N D} {c : Context N D} {parent : Option Nat}
    {above : List (Nat × Frame N D)} (hc : cells.Shows c parent above)
    (pending : List Work) (x : Course N D S) :
    t.logged.expand (worklist cells pending x) c.id
      = worklist (cells.addAll (some c.id) (t.kidFrames c.sight.frame))
          ((c.below cells.size (t.kidFrames c.sight.frame)).map (fun k => .visit k.id)
            ++ .leave c.id :: pending) x := by
  have hids := Context.map_id_below c cells.size (t.kidFrames c.sight.frame)
  have hmap : (c.below cells.size (t.kidFrames c.sight.frame)).map (fun k => Work.visit k.id)
      = (List.range' cells.size (t.kidFrames c.sight.frame).length).map Work.visit := by
    rw [← hids, List.map_map]
    rfl
  simp only [expand, worklist, hc.found, hmap]
  simp only [logged, kidFrames, schedule, ht]

variable [Identified N]

theorem work_leave_worklist (t : Traversal N D S) {cells : Cells N D} {c : Context N D}
    {parent : Option Nat} {above : List (Nat × Frame N D)} (hc : cells.Shows c parent above)
    (hroot : c.sight.rootData = t.rootData) (pending : List Work) (x : Course N D S) :
    t.logged.work (worklist cells pending x) (.leave c.id)
      = (t.consult (c.withFrame { c.sight.frame with phase := .leave }) x).map fun r =>
          worklist (cells.setFrame c.id r.2.1.sight.frame) pending r.2.2 := by
  have hcall := t.call_worklist (hroot ▸ hc.context_eq { c.sight.frame with phase := .leave })
    pending x
  simp only [work, show (worklist cells pending x).cells = cells from rfl, hc.found, hcall]
  cases t.consult (c.withFrame { c.sight.frame with phase := .leave }) x <;> rfl

theorem work_visit_of_repeatsAbove (t : Traversal N D S) {cells : Cells N D}
    {c : Context N D} {parent : Option Nat} {above : List (Nat × Frame N D)}
    (hc : cells.Shows c parent above) (hroot : c.sight.rootData = t.rootData)
    (hrep : c.sight.repeatsAbove = true) (pending : List Work) (x : Course N D S) :
    t.logged.work (worklist cells pending x) (.visit c.id)
      = (t.consult (c.withFrame { c.sight.frame with visited := true, phase := .backRef })
          x).map fun r => worklist (cells.setFrame c.id r.2.1.sight.frame) pending r.2.2 := by
  have hcall := t.call_worklist
    (hroot ▸ hc.context_eq { c.sight.frame with visited := true, phase := .backRef }) pending x
  have hself : cells.context t.rootData c.id c.sight.frame = c :=
    hroot ▸ hc.context_eq c.sight.frame
  simp only [work, show (worklist cells pending x).cells = cells from rfl, hc.found,
    show t.logged.rootData = t.rootData from rfl, hself, hrep, if_true, hcall]
  cases t.consult (c.withFrame { c.sight.frame with visited := true, phase := .backRef }) x <;> rfl

theorem work_visit_of_not_repeatsAbove (t : Traversal N D S) {cells : Cells N D}
    {c : Context N D} {parent : Option Nat} {above : List (Nat × Frame N D)}
    (hc : cells.Shows c parent above) (hroot : c.sight.rootData = t.rootData)
    (hrep : ¬ c.sight.repeatsAbove = true) (pending : List Work) (x : Course N D S) :
    t.logged.work (worklist cells pending x) (.visit c.id)
      = (t.consult c { x with entered := x.entered + 1 }).map fun r =>
          let w := worklist (cells.setFrame c.id r.2.1.sight.frame) pending r.2.2
          if r.1 = .proceed then t.logged.expand w c.id else w := by
  have hself : cells.context t.rootData c.id c.sight.frame = c.withFrame c.sight.frame :=
    hroot ▸ hc.context_eq c.sight.frame
  have hcall := t.call_worklist hself pending { x with entered := x.entered + 1 }
  rw [Context.withFrame_self] at hself hcall
  simp only [worklist] at hcall
  simp only [work, worklist, hc.found, show t.logged.rootData = t.rootData from rfl, hself,
    if_neg hrep, hcall]
  cases t.consult c { x with entered := x.entered + 1 } <;> rfl

/-! ## Working items off -/

/-- The list works off `items` and comes to where the recursion comes, whatever
waits behind them; only a walk that has quit forgets what waits. -/
def WorksOff (t : Traversal N D S) (ids : List Nat) (cells : Cells N D) (items : List Work)
    (x : Course N D S) : Run (Course N D S) → Prop
  | .done y => ∃ n cells', Cells.Kept ids cells cells' ∧ cells'.size = y.made ∧
      ∀ limit rest, ∃ rest', (y.quit = false → rest' = rest) ∧
        t.logged.run (n + limit) (worklist cells (items ++ rest) x)
          = t.logged.run limit (worklist cells' rest' y)
  | .failed f => ∃ n, ∀ limit rest,
      t.logged.run (n + limit) (worklist cells (items ++ rest) x) = .failed f
  | .unfinished => True

variable {t : Traversal N D S} {ids ids' : List Nat} {cells cells' : Cells N D}
  {items items' : List Work} {x y : Course N D S} {r : Run (Course N D S)}

/-- Nothing to do. -/
theorem WorksOff.nil (hmade : cells.size = x.made) : WorksOff t ids cells [] x (.done x) :=
  ⟨0, cells, .refl ids cells, hmade, fun limit rest => ⟨rest, fun _ => rfl, by simp⟩⟩

/-- One turn of the loop. -/
theorem run_worklist_cons {item : Work} (hq : x.quit = false) (n : Nat) (rest : List Work) :
    t.logged.run (n + 1) (worklist cells (item :: rest) x)
      = match t.logged.work (worklist cells rest x) item with
        | .error f => .failed f
        | .ok w => t.logged.run n w := by
  rw [run, if_neg (show ¬ (worklist cells (item :: rest) x).quit = true by simp [worklist, hq])]
  simp only [worklist]
  cases t.logged.work ⟨cells, rest, (x.calls, x.state), x.entered, x.quit⟩ item <;> rfl

/-- A first item that leaves other items behind. -/
theorem WorksOff.step {item : Work} (hq : x.quit = false)
    (hwork : ∀ rest, t.logged.work (worklist cells rest x) item
      = .ok (worklist cells' (items' ++ rest) y))
    (hk : Cells.Kept ids cells cells') (h : WorksOff t ids' cells' items' y r)
    (hids : ∀ j < cells.size, j ∉ ids → j ∉ ids') : WorksOff t ids cells [item] x r := by
  have hrun : ∀ n rest, t.logged.run (n + 1) (worklist cells ([item] ++ rest) x)
      = t.logged.run n (worklist cells' (items' ++ rest) y) := by
    intro n rest
    rw [List.singleton_append, run_worklist_cons hq, hwork]
  cases r with
  | unfinished => trivial
  | failed f =>
    obtain ⟨n, hn⟩ := h
    refine ⟨n + 1, fun limit rest => ?_⟩
    rw [Nat.add_right_comm, hrun, hn]
  | done z =>
    obtain ⟨n, cells'', hk', hmade, hn⟩ := h
    refine ⟨n + 1, cells'', hk.trans hk' hids, hmade, fun limit rest => ?_⟩
    obtain ⟨rest', hrest', hlast⟩ := hn limit rest
    exact ⟨rest', hrest', by rw [Nat.add_right_comm, hrun, hlast]⟩

/-- A first item whose callback faults. -/
theorem WorksOff.fault {item : Work} {f : Fault} (hq : x.quit = false)
    (hwork : ∀ rest, t.logged.work (worklist cells rest x) item = .error f) :
    WorksOff t ids cells [item] x (.failed f) := by
  refine ⟨1, fun limit rest => ?_⟩
  rw [Nat.add_comm, List.singleton_append, run_worklist_cons hq, hwork]

/-- A walk that has quit does no more work. -/
theorem run_of_quit (t : Traversal N D S) (limit : Nat)
    {w : Worklist N D (List (Context N D) × S)} (hq : w.quit = true) :
    t.logged.run limit w = .done w := by
  cases limit <;> simp [run, hq]

/-- First some items, then more of them, unless the walk has quit. -/
theorem WorksOff.bind (h : WorksOff t ids cells items x r) (ids' : List Nat)
    {next : Course N D S → Run (Course N D S)} {ids'' : List Nat}
    (hstop : ∀ y, y.quit = true → next y = .done y)
    (hnext : ∀ cells' y, Cells.Kept ids cells cells' → cells'.size = y.made →
      y.quit = false → WorksOff t ids' cells' items' y (next y))
    (hids : ∀ j < cells.size, j ∉ ids'' → j ∉ ids)
    (hids' : ∀ j < cells.size, j ∉ ids'' → j ∉ ids') :
    WorksOff t ids'' cells (items ++ items') x (r >>= next) := by
  cases r with
  | unfinished => trivial
  | failed f =>
    obtain ⟨n, hn⟩ := h
    exact ⟨n, fun limit rest => by rw [List.append_assoc, hn]⟩
  | done y =>
    obtain ⟨n, cells', hk, hmade, hn⟩ := h
    have hk'' : Cells.Kept ids'' cells cells' :=
      ⟨hk.size_le, fun j hj hni => hk.same j hj (hids j hj hni)⟩
    rw [Run.done_bind]
    by_cases hq : y.quit = true
    · rw [hstop y hq]
      refine ⟨n, cells', hk'', hmade, fun limit rest => ?_⟩
      obtain ⟨rest', -, hlast⟩ := hn limit (items' ++ rest)
      exact ⟨rest', by simp [hq], by rw [List.append_assoc, hlast]⟩
    · have hq' : y.quit = false := by simpa using hq
      have hafter := hnext cells' y hk hmade hq'
      cases hz : next y with
      | unfinished => trivial
      | failed f =>
        rw [hz] at hafter
        obtain ⟨m, hm⟩ := hafter
        refine ⟨n + m, fun limit rest => ?_⟩
        obtain ⟨rest', hrest', hlast⟩ := hn (m + limit) (items' ++ rest)
        rw [List.append_assoc, Nat.add_assoc, hlast, hrest' hq', hm]
      | done z =>
        rw [hz] at hafter
        obtain ⟨m, cells'', hk', hmade', hm⟩ := hafter
        refine ⟨n + m, cells'', hk''.trans hk' hids', hmade', fun limit rest => ?_⟩
        obtain ⟨rest', hrest', hlast⟩ := hn (m + limit) (items' ++ rest)
        obtain ⟨rest'', hrest'', hlast'⟩ := hm limit rest
        refine ⟨rest'', hrest'', ?_⟩
        rw [List.append_assoc, Nat.add_assoc, hlast, hrest' hq', hlast']

/-! ## The recursion and the list -/

omit [Identified N] in
/-- A callback touches the context's own frame and makes no context. -/
theorem consult_ok {c c' : Context N D} {control : Control}
    (h : t.consult c x = .ok (control, c', y)) :
    (∃ frame, c' = c.withFrame frame) ∧ y.made = x.made ∧ y.quit = (control == .quit) := by
  unfold consult at h
  cases hv : t.visitor c x.state with
  | error f => simp [hv, bind, Except.bind] at h
  | ok a =>
    simp only [hv, bind, Except.bind, pure, Except.pure, Except.ok.injEq, Prod.mk.injEq] at h
    obtain ⟨rfl, rfl, rfl⟩ := h
    exact ⟨⟨_, rfl⟩, rfl, rfl⟩

/-- The contexts to be visited next: all are held by the cells, and none is
above another. -/
structure Waiting (t : Traversal N D S) (cells : Cells N D) (cs : List (Context N D)) :
    Prop where
  shown : ∀ c ∈ cs, c.sight.rootData = t.rootData ∧ ∃ parent above,
    cells.Shows c parent above ∧ ∀ j ∈ above.map Prod.fst, j ∉ cs.map Context.id
  distinct : (cs.map Context.id).Nodup

omit [Identified N] in
/-- While the first context is visited, the others wait unchanged. -/
theorem Waiting.tail {c : Context N D} {cs : List (Context N D)}
    (h : Waiting t cells (c :: cs)) (hk : Cells.Kept [c.id] cells cells') :
    Waiting t cells' cs where
  shown := fun d hd => by
    obtain ⟨hroot, parent, above, hshow, hup⟩ := h.shown d (List.mem_cons_of_mem _ hd)
    have hne : d.id ∉ [c.id] := by
      have hnd := h.distinct
      rw [List.map_cons, List.nodup_cons] at hnd
      intro hmem
      exact hnd.1 (List.mem_singleton.1 hmem ▸ List.mem_map_of_mem hd)
    refine ⟨hroot, parent, above, hshow.kept hk hne fun j hj hmem => ?_, fun j hj hmem => ?_⟩
    · exact hup j hj (List.mem_singleton.1 hmem ▸ List.mem_cons_self)
    · exact hup j hj (List.mem_cons_of_mem _ hmem)
  distinct := (List.nodup_cons.1 h.distinct).2

omit [Identified N] in
/-- The children of a node that was just entered wait. -/
theorem Waiting.below {c : Context N D} {parent : Option Nat}
    {above : List (Nat × Frame N D)} (hc : cells.Shows c parent above)
    (hroot : c.sight.rootData = t.rootData) (frames : List (Frame N D)) :
    Waiting t (cells.addAll (some c.id) frames) (c.below cells.size frames) where
  shown := fun k hk => by
    refine ⟨?_, some c.id, (c.id, c.sight.frame) :: above, hc.below frames hk, ?_⟩
    · obtain ⟨p, -, rfl⟩ := List.mem_map.1 hk
      exact hroot
    · intro j hj hmem
      rw [Context.map_id_below, List.mem_range'_1] at hmem
      rcases List.mem_cons.1 hj with rfl | hj
      · exact absurd hc.id_lt (Nat.not_lt.2 hmem.1)
      · exact absurd (Nat.lt_trans (hc.links.lt_of_mem hj) hc.id_lt) (Nat.not_lt.2 hmem.1)
  distinct := by
    rw [Context.map_id_below]
    exact List.nodup_range'

omit [Identified N] in
/-- The roots wait at the beginning. -/
theorem Waiting.roots (t : Traversal N D S) (roots : List N) :
    Waiting t (Cells.addAll #[] none (roots.map fun node => Frame.root node t.fresh))
      (t.rootContexts roots) where
  shown := fun c hc => by
    obtain ⟨⟨node, id⟩, hmem, rfl⟩ := List.mem_map.1 hc
    rw [List.mk_mem_zipIdx_iff_getElem?] at hmem
    refine ⟨rfl, none, [], ⟨?_, .root _, rfl, rfl⟩, by simp⟩
    have hget := Cells.getElem?_addAll_add (#[] : Cells N D) none
      (roots.map fun node => Frame.root node t.fresh) id
    simpa [hmem] using hget
  distinct := by
    have hids : (t.rootContexts roots).map Context.id = List.range' 0 roots.length := by
      rw [rootContexts, List.map_map]
      exact List.zipIdx_map_snd 0 roots
    rw [hids]
    exact List.nodup_range'

/-- Contexts that wait are visited in order, if each is visited right. -/
theorem worksOff_throughEach {visit : Context N D → Course N D S → Run (Course N D S)}
    (hvisit : ∀ (cells : Cells N D) (c : Context N D) (x : Course N D S) parent above,
      cells.Shows c parent above → c.sight.rootData = t.rootData → cells.size = x.made →
      x.quit = false → WorksOff t [c.id] cells [.visit c.id] x (visit c x))
    {cs : List (Context N D)} (hw : Waiting t cells cs) (hmade : cells.size = x.made)
    (hq : x.quit = false) :
    WorksOff t (cs.map Context.id) cells (cs.map fun c => .visit c.id) x
      (Course.throughEach visit cs x) := by
  induction cs generalizing cells x with
  | nil => exact .nil hmade
  | cons c cs ih =>
    obtain ⟨hroot, parent, above, hshow, -⟩ := hw.shown c List.mem_cons_self
    have hfirst := hvisit cells c x parent above hshow hroot hmade hq
    refine hfirst.bind (cs.map Context.id) (fun y hy => ?_) (fun cells' y hk hmade' hq' => ?_) ?_ ?_
    · simp [hy]
    · simpa [hq'] using ih (hw.tail hk) hmade' hq'
    · intro j _ hj hmem
      exact hj (List.mem_singleton.1 hmem ▸ List.mem_cons_self)
    · intro j _ hj hmem
      exact hj (List.mem_cons_of_mem _ hmem)

/-- A repeated context is one item. -/
theorem worksOff_callBackRef {c : Context N D} {parent : Option Nat}
    {above : List (Nat × Frame N D)} (hc : cells.Shows c parent above)
    (hroot : c.sight.rootData = t.rootData) (hrep : c.sight.repeatsAbove = true)
    (hmade : cells.size = x.made) (hq : x.quit = false) :
    WorksOff t [c.id] cells [.visit c.id] x (Run.ofExcept (t.callBackRef c x)) := by
  have hwork := t.work_visit_of_repeatsAbove hc hroot hrep
  rw [callBackRef]
  cases hcons : t.consult
      (c.withFrame { c.sight.frame with visited := true, phase := .backRef }) x with
  | error f => exact .fault hq fun rest => by rw [hwork, hcons]; rfl
  | ok a =>
    obtain ⟨control, c', y⟩ := a
    obtain ⟨-, hmade', -⟩ := consult_ok hcons
    refine .step hq (fun rest => ?_) (.setFrame cells c.id c'.sight.frame) (.nil ?_)
      (fun _ _ h => h)
    · rw [hwork, hcons]
      rfl
    · rw [Cells.size_setFrame, hmade, hmade']

/-- The end mark of a context is one item. -/
theorem worksOff_callLeave {c : Context N D} {parent : Option Nat}
    {above : List (Nat × Frame N D)} (hc : cells.Shows c parent above)
    (hroot : c.sight.rootData = t.rootData) (hmade : cells.size = x.made)
    (hq : x.quit = false) :
    WorksOff t [c.id] cells [.leave c.id] x (Run.ofExcept (t.callLeave c x)) := by
  have hwork := t.work_leave_worklist hc hroot
  rw [callLeave, if_neg (by simp [hq])]
  cases hcons : t.consult (c.withFrame { c.sight.frame with phase := .leave }) x with
  | error f => exact .fault hq fun rest => by rw [hwork, hcons]; rfl
  | ok a =>
    obtain ⟨control, c', y⟩ := a
    obtain ⟨-, hmade', -⟩ := consult_ok hcons
    refine .step hq (fun rest => ?_) (.setFrame cells c.id c'.sight.frame) (.nil ?_)
      (fun _ _ h => h)
    · rw [hwork, hcons]
      rfl
    · rw [Cells.size_setFrame, hmade, hmade']

/-- The children of a context that was just entered and its end mark are
worked off as the recursion goes down. -/
theorem worksOff_descend {visit : Context N D → Course N D S → Run (Course N D S)}
    (hvisit : ∀ (cells : Cells N D) (c : Context N D) (x : Course N D S) parent above,
      cells.Shows c parent above → c.sight.rootData = t.rootData → cells.size = x.made →
      x.quit = false → WorksOff t [c.id] cells [.visit c.id] x (visit c x))
    {c : Context N D} {parent : Option Nat} {above : List (Nat × Frame N D)}
    (hc : cells.Shows c parent above) (hroot : c.sight.rootData = t.rootData)
    (hmade : cells.size = x.made) (hq : x.quit = false) {frames : List (Frame N D)}
    (hframes : frames = t.kidFrames c.sight.frame) :
    WorksOff t (c.id :: List.range' x.made frames.length)
      (cells.addAll (some c.id) frames)
      ((c.below x.made frames).map (fun k => .visit k.id) ++ [.leave c.id])
      { x with made := x.made + frames.length } (t.descend visit c x) := by
  have hwait : Waiting t (cells.addAll (some c.id) frames) (c.below x.made frames) :=
    hmade ▸ Waiting.below hc hroot frames
  have hkids := worksOff_throughEach hvisit hwait
    (x := { x with made := x.made + frames.length }) (by simp [hmade]) hq
  rw [Context.map_id_below] at hkids
  rw [descend, ← hframes, Context.length_below]
  refine hkids.bind [c.id] (fun y hy => ?_) (fun cells' y hk hmade' hq' => ?_) ?_ ?_
  · simp [callLeave, hy, Run.ofExcept]
  · have hadd := Cells.Kept.addAll [] cells (some c.id) frames
    have hkept := (hc.kept hadd (by simp) (by simp)).kept hk
    refine worksOff_callLeave (hkept ?_ ?_) hroot hmade' hq'
    · rw [List.mem_range'_1, ← hmade]
      exact fun h => absurd hc.id_lt (Nat.not_lt.2 h.1)
    · intro j hj
      rw [List.mem_range'_1, ← hmade]
      exact fun h => absurd (Nat.lt_trans (hc.links.lt_of_mem hj) hc.id_lt) (Nat.not_lt.2 h.1)
  · exact fun j _ hj hmem => hj (List.mem_cons_of_mem _ hmem)
  · exact fun j _ hj hmem => hj (List.mem_singleton.1 hmem ▸ List.mem_cons_self)

/-- The item of a context is worked off as the recursion visits the context.
The induction is on the depth below the context. -/
theorem worksOff_visit (ht : t.order = .depthFirst) (levels : Nat) (cells : Cells N D)
    (c : Context N D) (x : Course N D S) (parent : Option Nat)
    (above : List (Nat × Frame N D)) (hc : cells.Shows c parent above)
    (hroot : c.sight.rootData = t.rootData) (hmade : cells.size = x.made)
    (hq : x.quit = false) :
    WorksOff t [c.id] cells [.visit c.id] x (t.visit levels c x) := by
  induction levels generalizing cells c x parent above with
  | zero => trivial
  | succ levels ih =>
    rw [visit]
    by_cases hrep : c.sight.repeatsAbove = true
    · rw [if_pos hrep]
      exact worksOff_callBackRef hc hroot hrep hmade hq
    · rw [if_neg hrep]
      have hwork := t.work_visit_of_not_repeatsAbove hc hroot hrep
      cases hcons : t.consult c { x with entered := x.entered + 1 } with
      | error f => exact .fault hq fun rest => by rw [hwork, hcons]; rfl
      | ok a =>
        obtain ⟨control, c', y⟩ := a
        obtain ⟨⟨frame, rfl⟩, hmade', hquit⟩ := consult_ok hcons
        have hshow := hc.setFrame frame
        have hsize : (cells.setFrame c.id frame).size = y.made := by
          rw [Cells.size_setFrame, hmade, hmade']
        by_cases hp : control = .proceed
        · have hdown := worksOff_descend ih hshow hroot hsize (by simp [hquit, hp]) rfl
          have hkept := (Cells.Kept.setFrame cells c.id frame).trans
            (.addAll [c.id] _ (some c.id) (t.kidFrames frame)) fun _ _ h => h
          simp only [if_pos hp]
          refine .step hq (fun rest => ?_) hkept hdown fun j hj hni hmem => ?_
          · rw [hwork, hcons]
            simp only [Except.map, if_pos hp]
            have hexp := expand_worklist t ht hshow rest y
            rw [hsize] at hexp
            simpa [Context.withFrame, worklist] using hexp
          · rcases List.mem_cons.1 hmem with rfl | hmem
            · exact hni List.mem_cons_self
            · rw [List.mem_range'_1, ← hsize, Cells.size_setFrame] at hmem
              exact absurd hj (Nat.not_lt.2 hmem.1)
        · simp only [if_neg hp]
          refine .step hq (fun rest => ?_) (.setFrame cells c.id frame) (.nil hsize)
            (fun _ _ h => h)
          rw [hwork, hcons]
          simp only [Except.map, if_neg hp]
          rfl

/-! ## Limits -/

/-- Working with a larger limit changes nothing once the list is worked off. -/
theorem steady_run (t : Traversal N D S) (w : Worklist N D S) :
    Run.Steady fun limit => t.run limit w := by
  intro limit h
  induction limit generalizing w with
  | zero =>
    simp only [run] at h ⊢
    by_cases hq : w.quit = true
    · simp [hq]
    · cases hp : w.pending with
      | nil => simp [hq]
      | cons item pending => simp [hq, hp] at h
  | succ limit ih =>
    simp only [run.eq_def t (limit + 1), run.eq_def t (limit + 1 + 1)] at h ⊢
    by_cases hq : w.quit = true
    · simp [hq]
    · simp only [if_neg hq] at h ⊢
      cases hp : w.pending with
      | nil => rfl
      | cons item pending =>
        simp only [hp] at h ⊢
        cases hw : t.work { w with pending } item with
        | error f => rfl
        | ok v =>
          simp only [hw] at h ⊢
          exact ih v h

omit [Identified N] in
theorem throughEach_congr {visit visit' : Context N D → Course N D S → Run (Course N D S)}
    (hv : ∀ c x, visit c x ≠ .unfinished → visit' c x = visit c x)
    (cs : List (Context N D)) (x : Course N D S)
    (h : Course.throughEach visit cs x ≠ .unfinished) :
    Course.throughEach visit' cs x = Course.throughEach visit cs x := by
  induction cs generalizing x with
  | nil => rfl
  | cons c cs ih =>
    simp only [Course.throughEach] at h ⊢
    have hc : visit c x ≠ .unfinished := fun he => h (by simp [he])
    rw [hv c x hc]
    cases hy : visit c x with
    | unfinished => rfl
    | failed f => rfl
    | done y =>
      simp only [hy, Run.done_bind] at h ⊢
      by_cases hq : y.quit = true
      · simp [hq]
      · simp only [if_neg hq] at h ⊢
        exact ih y h

/-- Visiting with more levels changes nothing once all levels are reached. -/
theorem steady_visit (t : Traversal N D S) (c : Context N D) (x : Course N D S) :
    Run.Steady fun levels => t.visit levels c x := by
  intro levels h
  induction levels generalizing c x with
  | zero => exact absurd rfl h
  | succ levels ih =>
    simp only [visit.eq_def t (levels + 1), visit.eq_def t (levels + 1 + 1)] at h ⊢
    by_cases hrep : c.sight.repeatsAbove = true
    · simp [hrep]
    · simp only [if_neg hrep] at h ⊢
      cases hcons : t.consult c { x with entered := x.entered + 1 } with
      | error f => rfl
      | ok a =>
        obtain ⟨control, c', y⟩ := a
        simp only [hcons] at h ⊢
        by_cases hp : control = .proceed
        · simp only [if_pos hp, descend] at h ⊢
          rw [throughEach_congr (fun c x => ih c x)]
          exact fun he => h (by rw [he]; rfl)
        · simp [hp]

theorem steady_throughEach (t : Traversal N D S) (cs : List (Context N D))
    (x : Course N D S) : Run.Steady fun levels => Course.throughEach (t.visit levels) cs x :=
  fun levels h => throughEach_congr (fun c x => t.steady_visit c x levels) cs x h

/-! ## What the list finishes, the recursion finishes -/

/-- If the list can be worked off and the recursion has got through its first
items, the rest of it can be worked off with no more steps. -/
theorem exists_run_rest {ids : List Nat} {limit : Nat} {rest : List Work}
    (h : WorksOff t ids cells items x (.done y)) (hq : y.quit = false)
    (hrun : t.logged.run limit (worklist cells (items ++ rest) x) ≠ .unfinished) :
    ∃ cells', Cells.Kept ids cells cells' ∧ cells'.size = y.made ∧
      ∃ less ≤ limit, t.logged.run less (worklist cells' rest y) ≠ .unfinished := by
  obtain ⟨n, cells', hk, hmade, hn⟩ := h
  refine ⟨cells', hk, hmade, ?_⟩
  have hsteady := t.logged.steady_run (worklist cells (items ++ rest) x)
  rcases Nat.le_total n limit with hle | hle
  · obtain ⟨less, rfl⟩ := Nat.exists_eq_add_of_le hle
    obtain ⟨rest', hrest', hlast⟩ := hn less rest
    refine ⟨less, Nat.le_add_left _ _, ?_⟩
    rwa [hlast, hrest' hq] at hrun
  · obtain ⟨more, rfl⟩ := Nat.exists_eq_add_of_le hle
    obtain ⟨rest', hrest', hlast⟩ := hn 0 rest
    refine ⟨0, Nat.zero_le _, ?_⟩
    rw [← hrest' hq, ← hlast, Nat.add_zero]
    simpa only [hsteady.add hrun more] using hrun

theorem throughEach_finishes (ht : t.order = .depthFirst) {limit : Nat}
    (hvisit : ∀ l ≤ limit, ∀ (cells : Cells N D) (c : Context N D) (x : Course N D S) parent
      above rest, cells.Shows c parent above → c.sight.rootData = t.rootData →
      cells.size = x.made → x.quit = false →
      t.logged.run l (worklist cells (.visit c.id :: rest) x) ≠ .unfinished →
      ∃ levels, t.visit levels c x ≠ .unfinished)
    {cs : List (Context N D)} (hw : Waiting t cells cs) (hmade : cells.size = x.made)
    (hq : x.quit = false) {l : Nat} (hl : l ≤ limit) {rest : List Work}
    (hrun : t.logged.run l (worklist cells ((cs.map fun c => .visit c.id) ++ rest) x)
      ≠ .unfinished) :
    ∃ levels, Course.throughEach (t.visit levels) cs x ≠ .unfinished := by
  induction cs generalizing cells x l with
  | nil => exact ⟨0, by simp [Course.throughEach]⟩
  | cons c cs ih =>
    obtain ⟨hroot, parent, above, hshow, -⟩ := hw.shown c List.mem_cons_self
    obtain ⟨levels, hfirst⟩ := hvisit l hl cells c x parent above _ hshow hroot hmade hq hrun
    cases hy : t.visit levels c x with
    | unfinished => exact absurd hy hfirst
    | failed f => exact ⟨levels, by simp [Course.throughEach, hy]⟩
    | done y =>
      by_cases hqy : y.quit = true
      · exact ⟨levels, by simp [Course.throughEach, hy, hqy]⟩
      · have hqy' : y.quit = false := by simpa using hqy
        have hoff := worksOff_visit ht levels cells c x parent above hshow hroot hmade hq
        rw [hy] at hoff
        obtain ⟨cells', hk, hmade', less, hless, hrest⟩ := exists_run_rest hoff hqy' hrun
        obtain ⟨levels', hothers⟩ := ih (hw.tail hk) hmade' hqy' (Nat.le_trans hless hl) hrest
        -- both depths together are enough for both parts
        refine ⟨levels + levels', ?_⟩
        have hdone : t.visit (levels + levels') c x = .done y := by
          rw [← hy]
          exact (t.steady_visit c x).add hfirst levels'
        have hmore : Course.throughEach (t.visit (levels + levels')) cs y
            = Course.throughEach (t.visit levels') cs y := by
          rw [Nat.add_comm]
          exact (t.steady_throughEach cs y).add hothers levels
        simpa [Course.throughEach, hdone, hqy', hmore] using hothers

/-- If a list with a context in front can be worked off, the recursion gets
through the context.  The induction is on the number of items. -/
theorem visit_finishes (ht : t.order = .depthFirst) (limit : Nat) (cells : Cells N D)
    (c : Context N D) (x : Course N D S) (parent : Option Nat)
    (above : List (Nat × Frame N D)) (rest : List Work) (hc : cells.Shows c parent above)
    (hroot : c.sight.rootData = t.rootData) (hmade : cells.size = x.made)
    (hq : x.quit = false)
    (hrun : t.logged.run limit (worklist cells (.visit c.id :: rest) x) ≠ .unfinished) :
    ∃ levels, t.visit levels c x ≠ .unfinished := by
  induction limit using Nat.strongRecOn generalizing cells c x parent above rest with
  | ind limit ih =>
    cases limit with
    | zero => simp [run, worklist, hq] at hrun
    | succ limit =>
      rw [run_worklist_cons hq] at hrun
      by_cases hrep : c.sight.repeatsAbove = true
      · refine ⟨1, ?_⟩
        rw [visit, if_pos hrep]
        cases t.callBackRef c x <;> simp [Run.ofExcept]
      · rw [t.work_visit_of_not_repeatsAbove hc hroot hrep] at hrun
        cases hcons : t.consult c { x with entered := x.entered + 1 } with
        | error f => exact ⟨1, by simp [visit, hrep, hcons]⟩
        | ok a =>
          obtain ⟨control, c', y⟩ := a
          obtain ⟨⟨frame, rfl⟩, hmade', hquit⟩ := consult_ok hcons
          by_cases hp : control = .proceed
          · have hshow := hc.setFrame frame
            have hsize : (cells.setFrame c.id frame).size = y.made := by
              rw [Cells.size_setFrame, hmade, hmade']
            have hwait := hsize ▸ Waiting.below hshow hroot (t.kidFrames frame)
            have hexp := expand_worklist t ht hshow rest y
            rw [hsize] at hexp
            simp only [hcons, Except.map, if_pos hp] at hrun
            change t.logged.run limit (t.logged.expand
              (worklist (cells.setFrame c.id frame) rest y) (c.withFrame frame).id) ≠ _ at hrun
            rw [hexp] at hrun
            obtain ⟨levels, hlevels⟩ := throughEach_finishes ht
              (fun l hl => ih l (Nat.lt_succ_of_le hl)) hwait
              (x := { y with made := y.made + (t.kidFrames frame).length })
              (by simp [hsize]) (by simp [hquit, hp]) (Nat.le_refl limit) hrun
            refine ⟨levels + 1, ?_⟩
            simp only [visit, if_neg hrep, hcons, if_pos hp, descend, Context.length_below]
            cases hall : Course.throughEach (t.visit levels) _ _ with
            | unfinished => exact absurd hall hlevels
            | failed f => simp
            | done z =>
              rw [Run.done_bind]
              cases t.callLeave (c.withFrame frame) z <;> simp [Run.ofExcept]
          · exact ⟨1, by simp [visit, hrep, hcons, hp]⟩

/-! ## Whole walks -/

omit [Identified N] in
/-- A walk begins with its roots waiting. -/
theorem start_eq_worklist (t : Traversal N D S) (roots : List N) (state : S) :
    t.logged.start roots ([], state)
      = worklist (Cells.addAll #[] none (roots.map fun node => Frame.root node t.fresh))
          ((t.rootContexts roots).map (fun c => .visit c.id) ++ [])
          ⟨⟨[], state, 0, false⟩, roots.length⟩ := by
  have hids : (t.rootContexts roots).map (fun c => Work.visit c.id)
      = (List.range roots.length).map Work.visit := by
    rw [rootContexts, List.map_map, List.range_eq_range', ← List.zipIdx_map_snd 0 roots,
      List.map_map]
    rfl
  rw [hids, List.append_nil]
  rfl

/-- What the recursion comes to, the work list comes to. -/
theorem observe_of_recurse (ht : t.order = .depthFirst) {levels : Nat} {roots : List N}
    {state : S} (h : t.recurse levels roots state ≠ .unfinished) :
    ∃ limit, t.observe limit roots state = t.recurse levels roots state := by
  have hoff := worksOff_throughEach (worksOff_visit ht levels) (Waiting.roots t roots)
    (x := ⟨⟨[], state, 0, false⟩, roots.length⟩) (by simp) rfl
  simp only [recurse, observe, walk, start_eq_worklist] at h ⊢
  cases hr : Course.throughEach (t.visit levels) (t.rootContexts roots)
      ⟨⟨[], state, 0, false⟩, roots.length⟩ with
  | unfinished => simp [hr] at h
  | failed f =>
    rw [hr] at hoff
    obtain ⟨n, hn⟩ := hoff
    exact ⟨n, by rw [← Nat.add_zero n, hn]; rfl⟩
  | done y =>
    rw [hr] at hoff
    obtain ⟨n, cells', -, -, hn⟩ := hoff
    obtain ⟨rest', hrest', hlast⟩ := hn 0 []
    refine ⟨n + 0, ?_⟩
    rw [hlast]
    by_cases hq : y.quit = true
    · rw [run_of_quit t 0 hq]
      rfl
    · rw [hrest' (by simpa using hq)]
      simp [run, worklist, outcome]

/-- If the work list is worked off, the recursion comes to an end. -/
theorem recurse_finishes (ht : t.order = .depthFirst) {limit : Nat} {roots : List N}
    {state : S} (h : t.observe limit roots state ≠ .unfinished) :
    ∃ levels, t.recurse levels roots state ≠ .unfinished := by
  rw [observe, Run.map_ne_unfinished, walk, start_eq_worklist] at h
  obtain ⟨levels, hlevels⟩ := throughEach_finishes ht (fun l _ => visit_finishes ht l)
    (Waiting.roots t roots) (x := ⟨⟨[], state, 0, false⟩, roots.length⟩) (by simp) rfl
    (Nat.le_refl limit) h
  exact ⟨levels, by rwa [recurse, Run.map_ne_unfinished]⟩

theorem steady_observe (t : Traversal N D S) (roots : List N) (state : S) :
    Run.Steady fun limit => t.observe limit roots state := by
  intro limit h
  simp only [observe, Run.map_ne_unfinished, walk] at h ⊢
  have hsteady := t.logged.steady_run (t.logged.start roots ([], state)) limit h
  simp only at hsteady
  rw [hsteady]

/-- The work list and the recursion settle on the same outcomes. -/
theorem settles_observe_iff (ht : t.order = .depthFirst) (roots : List N) (state : S)
    (out : Run (Outcome N D S)) :
    Run.Settles (fun limit => t.observe limit roots state) out
      ↔ Run.Settles (fun levels => t.recurse levels roots state) out := by
  constructor
  · rintro ⟨hout, limit, rfl⟩
    obtain ⟨levels, hlevels⟩ := recurse_finishes ht hout
    obtain ⟨limit', hlimit'⟩ := observe_of_recurse ht hlevels
    refine ⟨hout, levels, ?_⟩
    have hsame := (t.steady_observe roots state).eq (m := limit') (n := limit)
      (by simpa only [hlimit'] using hlevels) hout
    simpa only [hlimit'] using hsame
  · rintro ⟨hout, levels, rfl⟩
    exact ⟨hout, observe_of_recurse ht hout⟩

end Traversal

section Main

variable {N D S : Type} [Identified N]

/-- A depth-first walk with a work list makes the callbacks that the
recursion makes, in the same order and on the same contexts, and ends with
the same state, count of entered nodes and mark of having quit; one of the
two walks is finite exactly if the other one is.  Writing the callbacks down
has no influence on the walk. -/
theorem depthFirst_walk_is_recursion (t : Traversal N D S) (ht : t.order = .depthFirst)
    (roots : List N) (state : S) :
    (∀ limit, t.walk limit roots state
      = Worklist.unlogged <$> t.logged.walk limit roots ([], state)) ∧
    ∀ out, Run.Settles (fun limit => t.observe limit roots state) out
      ↔ Run.Settles (fun levels => t.recurse levels roots state) out :=
  ⟨fun limit => t.walk_unlogged limit roots state, Traversal.settles_observe_iff ht roots state⟩

/-- A walk in which node 0 has itself and node 1 below it.  The visitor
counts callbacks and quits at the fourth. -/
def Traversal.countingLoop : Traversal NodeIndex Unit Nat where
  children := fun i => .unnamed (if i.index = 0 then [⟨0⟩, ⟨1⟩] else [])
  order := .depthFirst
  visitor := fun c n =>
    .ok ⟨if n = 3 then .quit else .proceed, c.sight.frame.node, false, (), n + 1⟩
  fresh := ()
  rootData := ()

theorem countingLoop_walk_quits_on_leave :
    Traversal.countingLoop.order = .depthFirst ∧
    ∃ out, Run.Settles (fun limit => Traversal.countingLoop.observe limit [⟨0⟩] 0) (.done out)
      ∧ out.calls.map (fun c => (c.sight.frame.node, c.sight.frame.phase))
        = [(⟨0⟩, .enter), (⟨0⟩, .backRef), (⟨1⟩, .enter), (⟨1⟩, .leave)]
      ∧ out.state = 4 ∧ out.entered = 2 ∧ out.quit = true := by
  obtain ⟨out, hout, hcalls⟩ : ∃ out, Traversal.countingLoop.recurse 3 [⟨0⟩] 0 = .done out
      ∧ out.calls.map (fun c => (c.sight.frame.node, c.sight.frame.phase))
        = [(⟨0⟩, .enter), (⟨0⟩, .backRef), (⟨1⟩, .enter), (⟨1⟩, .leave)]
      ∧ out.state = 4 ∧ out.entered = 2 ∧ out.quit = true := ⟨_, rfl, by decide⟩
  refine ⟨rfl, out, ?_, hcalls⟩
  exact ((depthFirst_walk_is_recursion Traversal.countingLoop rfl [⟨0⟩] 0).2 (.done out)).2
    ⟨by simp, 3, hout⟩

end Main

end Topiary
