/-
Topiary.Proofs.Walk.Tour — walks that are planned node by node.

Whether a walk descends into a node, and which node stands in its place, may depend
on where the node is and on the nodes above it, and on nothing else: not on what was
called before.  The plan then tells which callbacks there are and what they see; the
order in which they come has no part in it.

* `Occurrence` — a node as it was reached, with the way to the root.
* `Tour` — the children of a node, and the advice for each occurrence of one.
* `Errand`, `Tour.next` — a visit or the leave of an occurrence; what a visit brings up.
* `Glimpse`, `Tour.glimpse` — what a callback sees of a node, but for the data.
* `Tour.nodup_keys` — no path is seen twice in one phase.
* `Sight.Shows` — a walk has got to an occurrence; `Sight.Shows.kid` — and to one below.
* `Traversal.Follows`, `ForkJoin.Follows` — visitors that go by the plan.
-/
import Topiary.Parallel.Walk
import Topiary.Proofs.Walk.Agenda
import Topiary.Proofs.Walk.SimplePath

namespace Topiary

/-! ## Plans -/

/-- What is to be done with a node that is entered. -/
structure Advice (N : Type) where
  /-- Visit the children of the node, and leave it later. -/
  descends : Bool
  /-- The node that takes its place. -/
  change : Option N
deriving DecidableEq, Repr

/-- The answer that says so. -/
def Advice.control {N : Type} (a : Advice N) : Control := if a.descends then .proceed else .abort

/-- A node as it was reached, with the way to the root over the nodes as they stand. -/
structure Occurrence (N : Type) where
  crumbs : List (Breadcrumb N)
  reached : N
deriving DecidableEq, Repr

/-- What a callback sees of a node and of the way to the root. -/
structure Glimpse (N : Type) where
  phase : Phase
  node : N
  reached : N
  depth : Nat
  location : Option Location
  crumbs : List (Breadcrumb N)
deriving DecidableEq, Repr

/-- What tells the callbacks of a walk apart: the path, and which callback it is. -/
def Glimpse.key {N : Type} (g : Glimpse N) : List Location × Phase :=
  (g.crumbs.map Breadcrumb.location, g.phase)

namespace Occurrence

variable {N : Type}

/-- The occurrence of a root. -/
def root (node : N) : Occurrence N := ⟨[], node⟩

def path (o : Occurrence N) : List Location := o.crumbs.map Breadcrumb.location

/-- The nodes above, nearest first. -/
def above (o : Occurrence N) : List N := o.crumbs.map Breadcrumb.node

/-- The node is the same as one above it. -/
def repeatsAbove [Identified N] (o : Occurrence N) : Bool :=
  o.above.any fun m => nodeId m == nodeId o.reached

/-- What a callback sees of the occurrence while this node stands there. -/
def glimpse (o : Occurrence N) (phase : Phase) (node : N) : Glimpse N :=
  ⟨phase, node, o.reached, o.crumbs.length, o.path.head?, o.crumbs⟩

end Occurrence

/-- A plan for walks: the children of a node, and what is to be done with each occurrence
that is entered. -/
structure Tour (N : Type) where
  children : N → NamedChildren N
  advice : Occurrence N → Advice N

/-- What is to be done with an occurrence: to visit it, or to leave it once all below it
is done. -/
inductive Errand (N : Type) where
  | visit (o : Occurrence N)
  | leave (o : Occurrence N)
deriving DecidableEq, Repr

def Errand.occurrence {N : Type} : Errand N → Occurrence N
  | visit o => o
  | leave o => o

namespace Tour

variable {N : Type} (tour : Tour N)

/-- The node that stands at an occurrence once it is entered. -/
def standing (o : Occurrence N) : N := (tour.advice o).change.getD o.reached

/-- The child at a location below an occurrence. -/
def kid (o : Occurrence N) (located : Location × N) : Occurrence N :=
  ⟨⟨tour.standing o, located.1⟩ :: o.crumbs, located.2⟩

def kids (o : Occurrence N) : List (Occurrence N) :=
  (tour.children (tour.standing o)).locations.map (tour.kid o)

/-- What takes the place of a visit that descends. -/
def inside (o : Occurrence N) : List (Errand N) := (tour.kids o).map .visit ++ [.leave o]

variable [Identified N]

/-- What a visit brings up; a back reference brings up nothing. -/
def next : Errand N → List (Errand N)
  | .visit o => if o.repeatsAbove || !(tour.advice o).descends then [] else tour.inside o
  | .leave _ => []

/-- What the callback of an errand sees. -/
def glimpse : Errand N → Glimpse N
  | .visit o => o.glimpse (if o.repeatsAbove then .backRef else .enter) o.reached
  | .leave o => o.glimpse .leave (tour.standing o)

/-! ## No callback twice -/

/-- What tells the callback of an errand from all others. -/
def key (errand : Errand N) : List Location × Phase := (tour.glimpse errand).key

variable {tour}

theorem key_fst (tour : Tour N) (errand : Errand N) : (tour.key errand).1 = errand.occurrence.path := by
  cases errand <;> rfl

theorem mem_next_iff {o : Occurrence N} {errand : Errand N} : errand ∈ tour.next (.visit o)
    ↔ o.repeatsAbove = false ∧ (tour.advice o).descends = true
      ∧ ((∃ located ∈ (tour.children (tour.standing o)).locations,
          errand = .visit (tour.kid o located)) ∨ errand = .leave o) := by
  cases hrep : o.repeatsAbove <;> cases hdown : (tour.advice o).descends <;>
    simp [next, inside, kids, hrep, hdown, eq_comm]

omit [Identified N] in
theorem path_kid (o : Occurrence N) (located : Location × N) :
    (tour.kid o located).path = located.1 :: o.path := rfl

/-- All that comes of an errand lies at its occurrence or below it. -/
theorem path_suffix_of_mem_unroll {levels : Nat} : ∀ {errand other : Errand N},
    other ∈ unroll tour.next levels errand →
      errand.occurrence.path <:+ other.occurrence.path := by
  induction levels with
  | zero => exact fun h => absurd h List.not_mem_nil
  | succ levels ih =>
    intro errand other h
    rw [unroll, List.mem_cons, List.mem_flatMap] at h
    rcases h with rfl | ⟨new, hnew, hother⟩
    · exact List.suffix_refl _
    · cases errand with
      | leave o => exact absurd hnew List.not_mem_nil
      | visit o =>
        obtain ⟨-, -, ⟨located, -, rfl⟩ | rfl⟩ := mem_next_iff.1 hnew
        · exact (List.suffix_cons located.1 o.path).trans (ih hother)
        · exact @ih (.leave o) other hother

/-- What comes of the visit of a child lies below its parent. -/
theorem longer_of_mem_unroll_kid {levels : Nat} {o : Occurrence N} {located : Location × N}
    {other : Errand N} (h : other ∈ unroll tour.next levels (.visit (tour.kid o located))) :
    other.occurrence.path ≠ o.path := by
  intro heq
  have hlength := (path_suffix_of_mem_unroll h).length_le
  rw [heq, Errand.occurrence, path_kid, List.length_cons] at hlength
  exact absurd hlength (Nat.not_succ_le_self _)

/-- Nothing comes of a leave but itself. -/
theorem unroll_leave_sublist (levels : Nat) (o : Occurrence N) :
    (unroll tour.next levels (.leave o)).Sublist [.leave o] := by
  cases levels with
  | zero => exact List.nil_sublist _
  | succ levels => exact List.Sublist.refl _

/-- What comes of different children lies at different paths. -/
theorem nodup_keys_kids {levels : Nat} (o : Occurrence N)
    (hkid : ∀ errand : Errand N, ((unroll tour.next levels errand).map tour.key).Nodup) :
    ((((tour.kids o).map Errand.visit).flatMap (unroll tour.next levels)).map tour.key).Nodup := by
  rw [List.flatMap_map, kids, List.flatMap_map, List.map_flatMap, List.nodup_flatMap]
  refine ⟨fun located _ => hkid _, ?_⟩
  have hdistinct := (tour.children (tour.standing o)).nodup_map_fst_locations
  rw [List.Nodup, List.pairwise_map] at hdistinct
  refine hdistinct.imp fun hne key hkey hkey' => hne ?_
  obtain ⟨errand, hmem, rfl⟩ := List.mem_map.1 hkey
  obtain ⟨errand', hmem', heq⟩ := List.mem_map.1 hkey'
  have hpath : errand'.occurrence.path = errand.occurrence.path := by
    rw [← tour.key_fst errand', heq, tour.key_fst]
  exact location_unique (path_suffix_of_mem_unroll hmem)
    (hpath ▸ path_suffix_of_mem_unroll hmem')

/-- No path comes twice in one phase. -/
theorem nodup_keys {levels : Nat} : ∀ {errand : Errand N},
    ((unroll tour.next levels errand).map tour.key).Nodup := by
  induction levels with
  | zero => exact List.nodup_nil
  | succ levels ih =>
    intro errand
    cases errand with
    | leave o => exact List.nodup_singleton _
    | visit o =>
      rw [unroll, next]
      split
      · exact List.nodup_singleton _
      · next hdown =>
        have hrep : o.repeatsAbove = false := by
          rw [Bool.not_eq_true, Bool.or_eq_false_iff] at hdown
          exact hdown.1
        have hbelow : ∀ key ∈ (((tour.kids o).map Errand.visit).flatMap
            (unroll tour.next levels)).map tour.key, key.1 ≠ o.path := by
          intro key hkey
          obtain ⟨other, hother, rfl⟩ := List.mem_map.1 hkey
          rw [List.flatMap_map, kids, List.flatMap_map, List.mem_flatMap] at hother
          obtain ⟨located, -, hother⟩ := hother
          rw [tour.key_fst]
          exact longer_of_mem_unroll_kid hother
        have hsub : ((inside tour o).flatMap (unroll tour.next levels)).Sublist
            (((tour.kids o).map Errand.visit).flatMap (unroll tour.next levels) ++ [.leave o]) := by
          rw [inside, List.flatMap_append, List.flatMap_singleton]
          exact (List.Sublist.refl _).append (unroll_leave_sublist levels o)
        refine ((hsub.cons_cons (.visit o)).map tour.key).nodup ?_
        have hvisit : tour.key (.visit o) = (o.path, .enter) := by
          simp [key, Glimpse.key, glimpse, Occurrence.glimpse, Occurrence.path, hrep]
        have hleave : tour.key (.leave o) = (o.path, .leave) := rfl
        rw [List.map_cons, List.map_append, List.map_singleton, List.nodup_cons, hvisit, hleave]
        refine ⟨?_, (nodup_keys_kids o fun _ => ih).append (List.nodup_singleton _) ?_⟩
        · rw [List.mem_append, List.mem_singleton, not_or]
          exact ⟨fun hmem => hbelow _ hmem rfl, by simp⟩
        · intro key hkey hlast
          exact hbelow key hkey (by rw [List.mem_singleton.1 hlast])

end Tour

/-! ## Where a walk has got to -/

/-- What a callback sees of a node and of the way to the root. -/
def Sight.glimpse {N D : Type} (s : Sight N D) : Glimpse N :=
  ⟨s.frame.phase, s.frame.node, s.frame.reached, s.frame.depth, s.frame.location, s.crumbs⟩

/-- The occurrence that a callback is shown. -/
def Sight.occurrence {N D : Type} (s : Sight N D) : Occurrence N := ⟨s.crumbs, s.frame.reached⟩

/-- The sight is that of the occurrence, where this node stands now. -/
structure Sight.Shows {N D : Type} (s : Sight N D) (o : Occurrence N) (node : N) : Prop where
  node : s.frame.node = node
  reached : s.frame.reached = o.reached
  depth : s.frame.depth = o.crumbs.length
  location : s.frame.location = o.path.head?
  crumbs : s.crumbs = o.crumbs
  above : s.nodesAbove = o.above

namespace Sight.Shows

variable {N D : Type} {s : Sight N D} {o : Occurrence N} {node : N}

theorem glimpse (h : s.Shows o node) : s.glimpse = o.glimpse s.frame.phase node := by
  simp only [Sight.glimpse, Occurrence.glimpse, h.node, h.reached, h.depth, h.location, h.crumbs]

theorem occurrence (h : s.Shows o node) : s.occurrence = o := by
  rw [Sight.occurrence, h.crumbs, h.reached]

theorem repeatsAbove [Identified N] (h : s.Shows o o.reached) :
    s.repeatsAbove = o.repeatsAbove := by
  rw [Sight.repeatsAbove, Occurrence.repeatsAbove, ← h.above, nodesAbove, List.any_map, h.node]
  rfl

/-- At the root of a walk. -/
theorem root (node : N) (data rootData : D) :
    (Sight.mk (.root node data) [] rootData).Shows (.root node) node :=
  ⟨rfl, rfl, rfl, rfl, rfl, rfl⟩

/-- Another node, other marks and other data at the same place. -/
theorem update (h : s.Shows o node) (frame : Frame N D) (hreached : frame.reached = s.frame.reached)
    (hdepth : frame.depth = s.frame.depth) (hlocation : frame.location = s.frame.location) :
    (Sight.mk frame s.above s.rootData).Shows o frame.node where
  node := rfl
  reached := hreached.trans h.reached
  depth := hdepth.trans h.depth
  location := hlocation.trans h.location
  crumbs := by
    rw [← h.crumbs, Sight.crumbs, Sight.crumbs]
    cases s.above with
    | nil => rfl
    | cons parent above => simp only [crumbsBelow, hlocation]
  above := h.above

/-- One step down, to a child of the node that stands there. -/
theorem kid {tour : Tour N} (h : s.Shows o (tour.standing o)) (located : Location × N) (data : D) :
    (Sight.mk (s.frame.child located.1 located.2 data) (s.frame :: s.above) s.rootData).Shows
      (tour.kid o located) located.2 where
  node := rfl
  reached := rfl
  depth := congrArg (· + 1) h.depth
  location := rfl
  crumbs := by
    rw [Sight.crumbs, crumbsBelow, Tour.kid, h.node]
    exact congrArg (_ :: ·) h.crumbs
  above := by
    rw [nodesAbove, List.map_cons, h.node]
    exact congrArg (_ :: ·) h.above

end Sight.Shows

/-! ## Visitors that go by a plan -/

/-- The visitor does what the plan advises on entering a node, whatever its state and
whatever the data; its other callbacks change nothing and do not quit. -/
structure Traversal.Follows {N D S : Type} (t : Traversal N D S) (tour : Tour N) : Prop where
  children : t.children = tour.children
  enter : ∀ c s, c.sight.frame.phase = .enter → ∃ data state,
    t.visitor c s = .ok ⟨(tour.advice c.sight.occurrence).control,
      (tour.advice c.sight.occurrence).change.getD c.sight.frame.node, false, data, state⟩
  others : ∀ c s, c.sight.frame.phase ≠ .enter → ∃ control data state, control ≠ .quit
    ∧ t.visitor c s = .ok ⟨control, c.sight.frame.node, false, data, state⟩

/-- The same for a fork-join walk that merges no edits. -/
structure ForkJoin.Follows {N D : Type} (w : ForkJoin N D) (tour : Tour N) : Prop where
  children : w.children = tour.children
  merging : w.merging = none
  enter : ∀ c, c.sight.frame.phase = .enter → ∃ data,
    w.visitor c = .ok ⟨(tour.advice c.sight.occurrence).control,
      (tour.advice c.sight.occurrence).change.toList.map .change, data⟩
  others : ∀ c, c.sight.frame.phase ≠ .enter → ∃ control data, control ≠ .quit
    ∧ w.visitor c = .ok ⟨control, [], data⟩

end Topiary
