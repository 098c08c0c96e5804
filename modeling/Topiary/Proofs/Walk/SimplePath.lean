/-
Topiary.Proofs.Walk.SimplePath — the simple paths of a graph.

A walk through a graph with cycles goes down from each root as long as no node
repeats one above it.  What it does is a matter of the graph alone: each simple path
is entered and left, and each repetition at the end of a path is seen once.

* `Way`, `Way.Step` — a path with the nodes along it, and one step down.
* `Descends` — the ways down from the roots.
* `SimplePath`, `RepeatingPath` — paths on which no node occurs twice, and those
  whose last node is the first to occur twice.
* `Mark`, `Explores` — callbacks by their place, and all the callbacks of a walk.
* `unfolding` — the callbacks in the order in which they come depth first.
* `Way.Earns`, `Way.Owes` — the callback that a way earns; what is owed below a node.
* `mem_unfolding_iff`, `nodup_unfolding` — which callbacks these are, each once.
* `explores_of_perm` — the same callbacks in another order.
-/
import Mathlib.Data.List.Nodup
import Mathlib.Data.List.Perm.Subperm
import Mathlib.Logic.Relation
import Topiary.Proofs.Children.Spread
import Topiary.Walk.Context

namespace Topiary

/-! ## Paths -/

/-- A path from a root with the nodes along it, nearest first. -/
structure Way (N : Type) where
  path : List Location
  nodes : List N

namespace Way

variable {N : Type}

/-- The way that ends at a root. -/
def root (node : N) : Way N := ⟨[], [node]⟩

/-- One step down to a child. -/
inductive Step (children : N → NamedChildren N) : Way N → Way N → Prop
  | down {path : List Location} {node : N} {above : List N} {location : Location} {child : N} :
    (location, child) ∈ (children node).locations →
    Step children ⟨path, node :: above⟩ ⟨location :: path, child :: node :: above⟩

/-- No node occurs twice. -/
def IsSimple [Identified N] (w : Way N) : Prop := (w.nodes.map nodeId).Nodup

/-- The last node is the first that occurs twice. -/
def Repeats [Identified N] (w : Way N) : Prop :=
  ∃ node above, w.nodes = node :: above ∧ (above.map nodeId).Nodup
    ∧ nodeId node ∈ above.map nodeId

/-- Going down adds to the path and to the nodes. -/
theorem suffix_of_steps {children : N → NamedChildren N} {w w' : Way N}
    (h : Relation.ReflTransGen (Step children) w w') :
    w.path <:+ w'.path ∧ w.nodes <:+ w'.nodes := by
  induction h with
  | refl => exact ⟨List.suffix_refl _, List.suffix_refl _⟩
  | tail _ hstep ih =>
    cases hstep with
    | down _ => exact ⟨ih.1.trans (List.suffix_cons ..), ih.2.trans (List.suffix_cons ..)⟩

end Way

variable {N : Type}

/-- The way leads down from the root in this position. -/
def Descends (children : N → NamedChildren N) (roots : List N) (i : Nat) (w : Way N) : Prop :=
  ∃ root, roots[i]? = some root ∧ Relation.ReflTransGen (Way.Step children) (.root root) w

variable [Identified N]

/-- The path leads down from a root, and no node occurs twice on the way. -/
def SimplePath (children : N → NamedChildren N) (roots : List N) (i : Nat)
    (path : List Location) : Prop :=
  ∃ nodes, Descends children roots i ⟨path, nodes⟩ ∧ Way.IsSimple ⟨path, nodes⟩

/-- The path is a simple path and one more step, to a node that is on it already. -/
def RepeatingPath (children : N → NamedChildren N) (roots : List N) (i : Nat)
    (path : List Location) : Prop :=
  ∃ nodes, Descends children roots i ⟨path, nodes⟩ ∧ Way.Repeats ⟨path, nodes⟩

/-! ## Callbacks -/

/-- A callback: the position of the root, the path from there, nearest step first, and
the phase. -/
structure Mark where
  root : Nat
  path : List Location
  phase : Phase
deriving DecidableEq, Repr

/-- All the callbacks of a walk, with the number of nodes that it says it has
entered. -/
structure Explores (children : N → NamedChildren N) (roots : List N) (marks : List Mark)
    (entered : Nat) : Prop where
  /-- No callback is made twice. -/
  nodup : marks.Nodup
  enter_iff : ∀ i path, ⟨i, path, .enter⟩ ∈ marks ↔ SimplePath children roots i path
  leave_iff : ∀ i path, ⟨i, path, .leave⟩ ∈ marks ↔ SimplePath children roots i path
  backRef_iff : ∀ i path, ⟨i, path, .backRef⟩ ∈ marks ↔ RepeatingPath children roots i path
  /-- What is left was entered before. -/
  later : ∀ i path, ⟨i, path, .leave⟩ ∈ marks →
    [⟨i, path, .enter⟩, ⟨i, path, .leave⟩].Sublist marks
  /-- The number is that of the simple paths. -/
  entered : ∃ paths : List (Nat × List Location), paths.Nodup
    ∧ (∀ i path, (i, path) ∈ paths ↔ SimplePath children roots i path)
    ∧ entered = paths.length

/-! ## The callbacks of a subgraph -/

/-- The callbacks at a node and below it, at most `levels` deep. -/
def unfolding (children : N → NamedChildren N) (i : Nat) :
    (levels : Nat) → (path : List Location) → (above : List N) → N → List Mark
  | 0, _, _, _ => []
  | levels + 1, path, above, node =>
    if above.any (fun m => nodeId m == nodeId node) then [⟨i, path, .backRef⟩]
    else ⟨i, path, .enter⟩
      :: (children node).locations.flatMap (fun located =>
        unfolding children i levels (located.1 :: path) (node :: above) located.2)
      ++ [⟨i, path, .leave⟩]

/-- The nodes with these identities have no others below them. -/
def StaysIn (children : N → NamedChildren N) (ids : List NodeId) : Prop :=
  ∀ node, nodeId node ∈ ids → ∀ located ∈ (children node).locations, nodeId located.2 ∈ ids

theorem any_sameId_iff (above : List N) (node : N) :
    above.any (fun m => nodeId m == nodeId node) = true ↔ nodeId node ∈ above.map nodeId := by
  simp only [List.any_eq_true, beq_iff_eq, List.mem_map]

section

variable {children : N → NamedChildren N} {ids : List NodeId} {i : Nat}

/-- Distinct nodes are no more than the identities there are. -/
theorem length_le_of_nodup {nodes : List N} (hnodup : (nodes.map nodeId).Nodup)
    (hmem : ∀ node ∈ nodes, nodeId node ∈ ids) : nodes.length ≤ ids.length := by
  have hsub : nodes.map nodeId ⊆ ids := by
    intro id hid
    obtain ⟨node, hnode, rfl⟩ := List.mem_map.1 hid
    exact hmem node hnode
  simpa using (hnodup.subperm hsub).length_le

/-- Going down from roots with these identities leads to no others. -/
theorem Descends.mem_ids {roots : List N} {w : Way N} (h : Descends children roots i w)
    (hids : StaysIn children ids) (hroots : ∀ root ∈ roots, nodeId root ∈ ids) :
    ∀ node ∈ w.nodes, nodeId node ∈ ids := by
  obtain ⟨root, hroot, hsteps⟩ := h
  induction hsteps with
  | refl => simpa [Way.root] using hroots root (List.mem_of_getElem? hroot)
  | tail _ hstep ih =>
    cases hstep with
    | down hlocated =>
      exact List.forall_mem_cons.2 ⟨hids _ (ih _ (List.mem_cons_self ..)) _ hlocated, ih⟩

theorem of_mem_unfolding {levels : Nat} {mark : Mark} :
    ∀ {path : List Location} {above : List N} {node : N},
      mark ∈ unfolding children i levels path above node → mark.root = i ∧ path <:+ mark.path := by
  induction levels with
  | zero => exact fun h => absurd h List.not_mem_nil
  | succ levels ih =>
    intro path above node h
    rw [unfolding] at h
    split at h
    · obtain rfl := List.mem_singleton.1 h
      exact ⟨rfl, List.suffix_refl _⟩
    · simp only [List.cons_append, List.mem_cons, List.mem_append, List.mem_flatMap,
        List.not_mem_nil, or_false] at h
      rcases h with rfl | ⟨located, -, hbelow⟩ | rfl
      · exact ⟨rfl, List.suffix_refl _⟩
      · obtain ⟨hroot, hpath⟩ := ih hbelow
        exact ⟨hroot, (List.suffix_cons ..).trans hpath⟩
      · exact ⟨rfl, List.suffix_refl _⟩

/-- Paths below different places of one node are different. -/
theorem location_unique {path q : List Location} {l l' : Location} (h : l :: path <:+ q)
    (h' : l' :: path <:+ q) : l = l' := by
  have heq : l :: path = l' :: path := by
    rcases List.suffix_or_suffix_of_suffix h h' with hs | hs
    · exact hs.eq_of_length rfl
    · exact (hs.eq_of_length rfl).symm
  exact (List.cons.inj heq).1

/-- No callback occurs twice. -/
theorem nodup_unfolding {levels : Nat} : ∀ {path : List Location} {above : List N} {node : N},
    (unfolding children i levels path above node).Nodup := by
  induction levels with
  | zero => exact List.nodup_nil
  | succ levels ih =>
    intro path above node
    rw [unfolding]
    split
    · exact List.nodup_singleton _
    · have hlonger : ∀ mark ∈ (children node).locations.flatMap (fun located =>
          unfolding children i levels (located.1 :: path) (node :: above) located.2),
          mark.path ≠ path := by
        intro mark hmark heq
        obtain ⟨located, -, hbelow⟩ := List.mem_flatMap.1 hmark
        have hlength := (of_mem_unfolding hbelow).2.length_le
        rw [heq, List.length_cons] at hlength
        exact absurd hlength (Nat.not_succ_le_self _)
      have hbelow : ((children node).locations.flatMap (fun located =>
          unfolding children i levels (located.1 :: path) (node :: above) located.2)).Nodup := by
        refine List.nodup_flatMap.2 ⟨fun located _ => ih, ?_⟩
        have hdistinct := (children node).nodup_map_fst_locations
        rw [List.Nodup, List.pairwise_map] at hdistinct
        refine hdistinct.imp fun hne mark hmark hmark' => hne ?_
        exact location_unique (of_mem_unfolding hmark).2 (of_mem_unfolding hmark').2
      rw [List.cons_append, List.nodup_cons, List.mem_append, List.mem_singleton]
      refine ⟨?_, hbelow.append (List.nodup_singleton _) ?_⟩
      · rintro (hmem | heq)
        · exact hlonger _ hmem rfl
        · cases heq
      · intro mark hmark hleave
        exact hlonger mark hmark (by rw [List.mem_singleton.1 hleave])

/-- What is left was entered before. -/
theorem later_unfolding {levels : Nat} {q : List Location} :
    ∀ {path : List Location} {above : List N} {node : N},
      ⟨i, q, .leave⟩ ∈ unfolding children i levels path above node →
      [⟨i, q, .enter⟩, ⟨i, q, .leave⟩].Sublist (unfolding children i levels path above node) := by
  induction levels with
  | zero => exact fun h => absurd h List.not_mem_nil
  | succ levels ih =>
    intro path above node h
    rw [unfolding] at h ⊢
    split at h
    · exact absurd (List.mem_singleton.1 h) (by simp)
    · next hrep =>
      rw [if_neg hrep]
      simp only [List.cons_append, List.mem_cons, List.mem_append, Mark.mk.injEq, reduceCtorEq,
        and_false, false_or, List.not_mem_nil, or_false, true_and, and_true] at h
      rcases h with hmem | rfl
      · obtain ⟨located, hlocated, hbelow⟩ := List.mem_flatMap.1 hmem
        have hflat : (unfolding children i levels (located.1 :: path) (node :: above)
            located.2).Sublist ((children node).locations.flatMap fun located =>
              unfolding children i levels (located.1 :: path) (node :: above) located.2) :=
          List.sublist_flatten_of_mem (List.mem_map_of_mem hlocated)
        rw [List.cons_append]
        exact ((ih hbelow).trans hflat).trans
          ((List.sublist_append_left ..).trans (List.sublist_cons_self ..))
      · exact .cons_cons _ (List.sublist_append_right ..)

/-! ## Which callbacks these are -/

/-- The callback that a way earns. -/
def Way.Earns (w : Way N) : Phase → Prop
  | .backRef => w.Repeats
  | _ => w.IsSimple

/-- A way that goes on from a node does not repeat at this node. -/
theorem Way.Earns.isSimple_before {w : Way N} {phase : Phase} (h : w.Earns phase) {child : N}
    {nodes : List N} (hsuffix : child :: nodes <:+ w.nodes) : (nodes.map nodeId).Nodup := by
  have hsimple : w.IsSimple → (nodes.map nodeId).Nodup := fun hs =>
    hs.sublist (((List.suffix_cons ..).trans hsuffix).sublist.map _)
  cases phase with
  | enter => exact hsimple h
  | leave => exact hsimple h
  | backRef =>
    obtain ⟨node, above, hw, hnodup, -⟩ := h
    rw [hw, List.suffix_cons_iff] at hsuffix
    rcases hsuffix with heq | hsuffix
    · exact (List.cons.inj heq).2 ▸ hnodup
    · exact hnodup.sublist (((List.suffix_cons ..).trans hsuffix).sublist.map _)

/-- A way that goes on from here with this path earns the callback. -/
def Way.Owes (children : N → NamedChildren N) (w : Way N) (path : List Location)
    (phase : Phase) : Prop :=
  ∃ nodes, Relation.ReflTransGen (Way.Step children) w ⟨path, nodes⟩
    ∧ Way.Earns ⟨path, nodes⟩ phase

/-- Where a node repeats one above it, there is only the back reference. -/
theorem Way.owes_of_repeats {path q : List Location} {above : List N} {node : N} {phase : Phase}
    (hnodup : (above.map nodeId).Nodup) (hrep : nodeId node ∈ above.map nodeId) :
    Way.Owes children ⟨path, node :: above⟩ q phase ↔ q = path ∧ phase = .backRef := by
  have hnot : ¬ ((node :: above).map nodeId).Nodup := fun h => (List.nodup_cons.1 h).1 hrep
  constructor
  · rintro ⟨nodes, hsteps, hearn⟩
    rcases hsteps.cases_head with heq | ⟨_, hstep, hrest⟩
    · cases heq
      cases phase with
      | backRef => exact ⟨rfl, rfl⟩
      | enter => exact absurd hearn hnot
      | leave => exact absurd hearn hnot
    · cases hstep with
      | down _ => exact absurd (hearn.isSimple_before (Way.suffix_of_steps hrest).2) hnot
  · rintro ⟨rfl, rfl⟩
    exact ⟨_, .refl, node, above, rfl, hnodup, hrep⟩

/-- Where no node has occurred twice, there are the node's own callbacks and those below
its children. -/
theorem Way.owes_of_simple {path q : List Location} {above : List N} {node : N} {phase : Phase}
    (hnodup : ((node :: above).map nodeId).Nodup) :
    Way.Owes children ⟨path, node :: above⟩ q phase
      ↔ q = path ∧ phase ≠ .backRef ∨ ∃ located ∈ (children node).locations,
        Way.Owes children ⟨located.1 :: path, located.2 :: node :: above⟩ q phase := by
  constructor
  · rintro ⟨nodes, hsteps, hearn⟩
    rcases hsteps.cases_head with heq | ⟨_, hstep, hrest⟩
    · cases heq
      refine .inl ⟨rfl, ?_⟩
      rintro rfl
      obtain ⟨_, _, heq, -, hrep⟩ := hearn
      cases heq
      exact (List.nodup_cons.1 hnodup).1 hrep
    · cases hstep with
      | down hlocated => exact .inr ⟨_, hlocated, nodes, hrest, hearn⟩
  · rintro (⟨rfl, hphase⟩ | ⟨located, hlocated, nodes, hsteps, hearn⟩)
    · refine ⟨_, .refl, ?_⟩
      cases phase with
      | enter => exact hnodup
      | leave => exact hnodup
      | backRef => exact absurd rfl hphase
    · exact ⟨nodes, .head (.down hlocated) hsteps, hearn⟩

/-- A callback is made exactly for the ways that go on from here and earn it, if there
are as many levels as there are nodes that are not above. -/
theorem mem_unfolding_iff (hids : StaysIn children ids) {levels : Nat} {mark : Mark} :
    ∀ {path : List Location} {above : List N} {node : N},
      (above.map nodeId).Nodup → (∀ m ∈ node :: above, nodeId m ∈ ids) →
      ids.length < levels + above.length →
      (mark ∈ unfolding children i levels path above node
        ↔ mark.root = i ∧ Way.Owes children ⟨path, node :: above⟩ mark.path mark.phase) := by
  induction levels with
  | zero =>
    intro path above node hnodup hmem hlevels
    have := length_le_of_nodup hnodup fun m hm => hmem m (List.mem_cons_of_mem _ hm)
    omega
  | succ levels ih =>
    intro path above node hnodup hmem hlevels
    obtain ⟨i', q, phase⟩ := mark
    by_cases hrep : nodeId node ∈ above.map nodeId
    · rw [unfolding, if_pos ((any_sameId_iff above node).2 hrep), List.mem_singleton,
        Mark.mk.injEq, Way.owes_of_repeats hnodup hrep]
    · have hnodup' : ((node :: above).map nodeId).Nodup := List.nodup_cons.2 ⟨hrep, hnodup⟩
      have hkid : ∀ located ∈ (children node).locations,
          (⟨i', q, phase⟩ ∈ unfolding children i levels (located.1 :: path) (node :: above) located.2
            ↔ i' = i
              ∧ Way.Owes children ⟨located.1 :: path, located.2 :: node :: above⟩ q phase) := by
        intro located hlocated
        have hstay := hids node (hmem node (List.mem_cons_self ..)) located hlocated
        refine ih hnodup' (List.forall_mem_cons.2 ⟨hstay, hmem⟩) ?_
        rw [List.length_cons]
        omega
      rw [unfolding, if_neg (mt (any_sameId_iff above node).1 hrep), Way.owes_of_simple hnodup']
      simp only [List.cons_append, List.mem_cons, List.mem_append, List.mem_flatMap,
        List.not_mem_nil, or_false, Mark.mk.injEq]
      constructor
      · rintro (⟨rfl, rfl, rfl⟩ | ⟨located, hlocated, hbelow⟩ | ⟨rfl, rfl, rfl⟩)
        · exact ⟨rfl, .inl ⟨rfl, by simp⟩⟩
        · obtain ⟨hroot, howes⟩ := (hkid located hlocated).1 hbelow
          exact ⟨hroot, .inr ⟨located, hlocated, howes⟩⟩
        · exact ⟨rfl, .inl ⟨rfl, by simp⟩⟩
      · rintro ⟨rfl, ⟨rfl, hphase⟩ | ⟨located, hlocated, howes⟩⟩
        · cases phase with
          | enter => exact .inl ⟨rfl, rfl, rfl⟩
          | leave => exact .inr (.inr ⟨rfl, rfl, rfl⟩)
          | backRef => exact absurd rfl hphase
        · exact .inr (.inl ⟨located, hlocated, (hkid located hlocated).2 ⟨rfl, howes⟩⟩)

/-! ## Whole graphs -/

/-- The callbacks below several roots, for a graph with `n` identities. -/
def unfoldings (children : N → NamedChildren N) (n : Nat) (roots : List N) : List Mark :=
  roots.zipIdx.flatMap fun (root, i) => unfolding children i (n + 1) [] [] root

theorem nodup_unfoldings (n : Nat) (roots : List N) : (unfoldings children n roots).Nodup := by
  refine List.nodup_flatMap.2 ⟨fun _ _ => nodup_unfolding, ?_⟩
  have hdistinct : (roots.zipIdx.map Prod.snd).Nodup := by
    rw [List.zipIdx_map_snd]
    exact List.nodup_range'
  rw [List.Nodup, List.pairwise_map] at hdistinct
  refine hdistinct.imp fun hne mark hmark hmark' => hne ?_
  exact (of_mem_unfolding hmark).1.symm.trans (of_mem_unfolding hmark').1

theorem mem_unfoldings_iff (hids : StaysIn children ids) {roots : List N}
    (hroots : ∀ root ∈ roots, nodeId root ∈ ids) (mark : Mark) :
    mark ∈ unfoldings children ids.length roots
      ↔ ∃ nodes, Descends children roots mark.root ⟨mark.path, nodes⟩
        ∧ Way.Earns ⟨mark.path, nodes⟩ mark.phase := by
  have hone : ∀ root ∈ roots, ∀ i, (mark ∈ unfolding children i (ids.length + 1) [] [] root
      ↔ mark.root = i ∧ Way.Owes children (.root root) mark.path mark.phase) := by
    intro root hroot i
    exact mem_unfolding_iff hids List.nodup_nil (by simpa using hroots root hroot) (by simp)
  simp only [unfoldings, List.mem_flatMap, Prod.exists, List.mk_mem_zipIdx_iff_getElem?]
  constructor
  · rintro ⟨root, i, hget, hmark⟩
    obtain ⟨rfl, nodes, hsteps, hearn⟩ := (hone root (List.mem_of_getElem? hget) i).1 hmark
    exact ⟨nodes, ⟨root, hget, hsteps⟩, hearn⟩
  · rintro ⟨nodes, ⟨root, hget, hsteps⟩, hearn⟩
    exact ⟨root, _, hget, (hone root (List.mem_of_getElem? hget) _).2 ⟨rfl, nodes, hsteps, hearn⟩⟩

/-- The same callbacks, in an order in which nothing is left before it is entered. -/
theorem explores_of_perm (hids : StaysIn children ids) {roots : List N}
    (hroots : ∀ root ∈ roots, nodeId root ∈ ids) {marks : List Mark}
    (hperm : marks.Perm (unfoldings children ids.length roots))
    (hlater : ∀ i path, ⟨i, path, .leave⟩ ∈ marks →
      [⟨i, path, .enter⟩, ⟨i, path, .leave⟩].Sublist marks) :
    Explores children roots marks (marks.countP fun mark => mark.phase = .enter) := by
  have hnodup : marks.Nodup := hperm.nodup_iff.2 (nodup_unfoldings _ _)
  have hmem : ∀ mark, mark ∈ marks ↔ _ := fun mark =>
    hperm.mem_iff.trans (mem_unfoldings_iff hids hroots mark)
  have henter : ∀ i path, ⟨i, path, .enter⟩ ∈ marks ↔ SimplePath children roots i path :=
    fun i path => hmem ⟨i, path, .enter⟩
  refine ⟨hnodup, henter, fun i path => hmem ⟨i, path, .leave⟩,
    fun i path => hmem ⟨i, path, .backRef⟩, hlater, ?_⟩
  refine ⟨(marks.filter fun mark => mark.phase = .enter).map fun mark => (mark.root, mark.path),
    ?_, fun i path => ?_, ?_⟩
  · refine (hnodup.filter _).map_on fun a ha b hb hab => ?_
    obtain ⟨i, path, phase⟩ := a
    obtain ⟨i', path', phase'⟩ := b
    simp only [List.mem_filter, decide_eq_true_eq] at ha hb
    simp only [Prod.mk.injEq] at hab
    rw [ha.2, hb.2, hab.1, hab.2]
  · rw [← henter]
    simp only [List.mem_map, List.mem_filter, decide_eq_true_eq, Prod.mk.injEq]
    constructor
    · rintro ⟨⟨_, _, phase⟩, ⟨hmark, hphase⟩, rfl, rfl⟩
      exact hphase ▸ hmark
    · exact fun hmark => ⟨_, ⟨hmark, rfl⟩, rfl, rfl⟩
  · rw [List.length_map, List.countP_eq_length_filter]

end

end Topiary
