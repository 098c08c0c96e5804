/-
Topiary.Proofs.Children.Spread — child groups with every child in its place
exchanged for a list of nodes.

`NamedChildren.spread` puts, for every child, the nodes that `slot` names
for its location in the child's place.  It keeps the groups and their order,
so it says what an edit of the children comes to without any arithmetic of
positions.

* `childAt_eq_ok_iff`, `mem_locations_iff` — a lookup names a child exactly
  if the child is listed.
* `spread_congr` — only what `slot` says about listed children counts.
* `exists_childAt_spread_iff` — which nodes are children of a spread.
* `modify_spread` — to edit one group of a spread is to spread by another
  `slot`.
-/
import Topiary.Children

namespace Topiary

namespace NamedChildren

variable {N : Type}

/-! ## Lookups and listings -/

/-- A group can be read exactly if it is listed with these children. -/
theorem get?_eq_some_iff (c : NamedChildren N) (group : GroupName) (nodes : List N) :
    c.get? group = some nodes ↔ (group, nodes) ∈ c.groups := by
  obtain ⟨groups, hnd⟩ := c
  simp only [get?]
  induction groups with
  | nil => simp
  | cons g gs ih =>
    rw [List.map_cons, List.nodup_cons] at hnd
    by_cases hg : g.1 = group
    · subst hg
      have hgs : ∀ xs, (g.1, xs) ∉ gs := fun xs hmem =>
        hnd.1 (List.mem_map.2 ⟨_, hmem, rfl⟩)
      simp [hgs, Prod.ext_iff, eq_comm]
    · have hne : (group, nodes) ≠ g := fun h => hg (by rw [← h])
      simpa [hg, hne] using ih hnd.2

/-- No group is listed twice. -/
theorem eq_of_mem_groups (c : NamedChildren N) {group : GroupName} {xs ys : List N}
    (hx : (group, xs) ∈ c.groups) (hy : (group, ys) ∈ c.groups) : xs = ys := by
  rw [← get?_eq_some_iff] at hx hy
  exact Option.some.inj (hx.symm.trans hy)

theorem childAt_eq_ok_iff (c : NamedChildren N) (l : Location) (x : N) :
    c.childAt l = .ok x ↔ ∃ nodes, (l.group, nodes) ∈ c.groups ∧ nodes[l.index]? = some x := by
  simp only [← get?_eq_some_iff, childAt]
  cases c.get? l.group with
  | none => simp
  | some nodes => cases h : nodes[l.index]? <;> simp [h]

theorem mem_locateGroup_iff (g : GroupName × List N) (l : Location) (x : N) :
    (l, x) ∈ locateGroup g ↔ l.group = g.1 ∧ g.2[l.index]? = some x := by
  obtain ⟨group, index⟩ := l
  simp only [locateGroup, List.mem_map, Prod.mk.injEq, Location.mk.injEq, Prod.exists,
    List.mk_mem_zipIdx_iff_getElem?]
  constructor
  · rintro ⟨y, i, hy, ⟨rfl, rfl⟩, rfl⟩
    exact ⟨rfl, hy⟩
  · rintro ⟨rfl, hx⟩
    exact ⟨x, index, hx, ⟨rfl, rfl⟩, rfl⟩

/-- The listing holds exactly the children that lookups find. -/
theorem mem_locations_iff (c : NamedChildren N) (l : Location) (x : N) :
    (l, x) ∈ c.locations ↔ c.childAt l = .ok x := by
  simp only [locations, List.mem_flatMap, childAt_eq_ok_iff, mem_locateGroup_iff, Prod.exists]
  constructor
  · rintro ⟨group, nodes, hmem, rfl, hx⟩
    exact ⟨nodes, hmem, hx⟩
  · rintro ⟨nodes, hmem, hx⟩
    exact ⟨l.group, nodes, hmem, rfl, hx⟩

/-- The locations of one group are distinct. -/
theorem nodup_map_fst_locateGroup (g : GroupName × List N) :
    ((locateGroup g).map Prod.fst).Nodup := by
  have hmap : (locateGroup g).map Prod.fst
      = (List.range' 0 g.2.length).map fun i => (⟨g.1, i⟩ : Location) := by
    rw [locateGroup, ← List.zipIdx_map_snd 0 g.2, List.map_map, List.map_map]
    rfl
  rw [hmap]
  exact List.Pairwise.map _ (fun i j hne he => hne (by simpa using he)) List.nodup_range'

/-- No location is listed twice. -/
theorem nodup_map_fst_locations (c : NamedChildren N) :
    (c.locations.map Prod.fst).Nodup := by
  obtain ⟨groups, hnd⟩ := c
  simp only [locations]
  induction groups with
  | nil => simp
  | cons g gs ih =>
    rw [List.map_cons, List.nodup_cons] at hnd
    rw [List.flatMap_cons, List.map_append, List.nodup_append]
    refine ⟨nodup_map_fst_locateGroup g, ih hnd.2, ?_⟩
    intro l hl l' hl' he
    subst he
    simp only [List.mem_map, Prod.exists, exists_and_right, exists_eq_right,
      List.mem_flatMap] at hl hl'
    obtain ⟨x, hx⟩ := hl
    obtain ⟨y, group, nodes, hmem, hy⟩ := hl'
    rw [mem_locateGroup_iff] at hx hy
    exact hnd.1 (by
      rw [← hx.1, hy.1]
      exact List.mem_map_of_mem hmem)

/-! ## Spreading -/

/-- What stands in the places of the children of one group. -/
def spreadGroup (slot : Location → N → List N) (g : GroupName × List N) : List N :=
  (locateGroup g).flatMap fun p => slot p.1 p.2

/-- The same groups with every child exchanged for the nodes of its slot. -/
def spread (c : NamedChildren N) (slot : Location → N → List N) : NamedChildren N where
  groups := c.groups.map fun g => (g.1, spreadGroup slot g)
  names_nodup := by
    rw [List.map_map]
    exact c.names_nodup

theorem mem_groups_spread (c : NamedChildren N) (slot : Location → N → List N)
    (group : GroupName) (nodes : List N) :
    (group, nodes) ∈ (c.spread slot).groups
      ↔ ∃ xs, (group, xs) ∈ c.groups ∧ nodes = spreadGroup slot (group, xs) := by
  simp only [spread, List.mem_map, Prod.mk.injEq, Prod.exists]
  constructor
  · rintro ⟨g, xs, hmem, rfl, rfl⟩
    exact ⟨xs, hmem, rfl⟩
  · rintro ⟨xs, hmem, rfl⟩
    exact ⟨group, xs, hmem, rfl, rfl⟩

theorem spreadGroup_congr {slot slot' : Location → N → List N} {g : GroupName × List N}
    (h : ∀ p ∈ locateGroup g, slot p.1 p.2 = slot' p.1 p.2) :
    spreadGroup slot g = spreadGroup slot' g := by
  rw [spreadGroup, spreadGroup, List.flatMap, List.flatMap, List.map_congr_left h]

/-- Slots that agree on all children spread to the same. -/
theorem spread_congr (c : NamedChildren N) {slot slot' : Location → N → List N}
    (h : ∀ p ∈ c.locations, slot p.1 p.2 = slot' p.1 p.2) : c.spread slot = c.spread slot' := by
  apply NamedChildren.ext
  apply List.map_congr_left
  intro g hg
  rw [spreadGroup_congr fun p hp => h p (List.mem_flatMap.2 ⟨g, hg, hp⟩)]

/-- Every child in its own place alone. -/
theorem spread_singleton (c : NamedChildren N) : (c.spread fun _ x => [x]) = c := by
  apply NamedChildren.ext
  have hself : ∀ g : GroupName × List N, (g.1, spreadGroup (fun _ x => [x]) g) = g := by
    intro g
    have hnodes : spreadGroup (fun _ x => [x]) g = g.2 := by
      rw [spreadGroup, ← List.map_eq_flatMap, locateGroup, List.map_map]
      exact List.zipIdx_map_fst 0 g.2
    rw [hnodes]
  simp only [spread, hself, List.map_id']

theorem exists_childAt_iff (c : NamedChildren N) (y : N) :
    (∃ l, c.childAt l = .ok y) ↔ ∃ g ∈ c.groups, y ∈ g.2 := by
  simp only [childAt_eq_ok_iff, List.mem_iff_getElem?]
  constructor
  · rintro ⟨l, nodes, hmem, hy⟩
    exact ⟨_, hmem, l.index, hy⟩
  · rintro ⟨⟨group, nodes⟩, hmem, i, hy⟩
    exact ⟨⟨group, i⟩, nodes, hmem, hy⟩

/-- The children of a spread are the nodes in the places of the children. -/
theorem exists_childAt_spread_iff (c : NamedChildren N) (slot : Location → N → List N) (y : N) :
    (∃ l, (c.spread slot).childAt l = .ok y) ↔ ∃ k ∈ c.locations, y ∈ slot k.1 k.2 := by
  rw [exists_childAt_iff]
  constructor
  · rintro ⟨g', hg', hy⟩
    obtain ⟨g, hg, rfl⟩ := List.mem_map.1 hg'
    obtain ⟨k, hk, hy⟩ := List.mem_flatMap.1 hy
    exact ⟨k, List.mem_flatMap.2 ⟨g, hg, hk⟩, hy⟩
  · rintro ⟨k, hk, hy⟩
    obtain ⟨g, hg, hk⟩ := List.mem_flatMap.1 hk
    exact ⟨_, List.mem_map_of_mem hg, List.mem_flatMap.2 ⟨k, hk, hy⟩⟩

/-- Slots that agree on all children but those of one group: the spread of
the one comes from the spread of the other by an edit of that group. -/
theorem modify_spread (c : NamedChildren N) {slot slot' : Location → N → List N}
    {group : GroupName} {f : List N → List N}
    (hother : ∀ l x, l.group ≠ group → slot l x = slot' l x)
    (hgroup : ∀ xs, (group, xs) ∈ c.groups →
      f (spreadGroup slot (group, xs)) = spreadGroup slot' (group, xs)) :
    (c.spread slot).modify group f = c.spread slot' := by
  apply NamedChildren.ext
  simp only [spread, modify, List.map_map]
  apply List.map_congr_left
  rintro ⟨g, xs⟩ hmem
  by_cases hg : g = group
  · subst hg
    simp [hgroup xs hmem]
  · have hsame : spreadGroup slot (g, xs) = spreadGroup slot' (g, xs) :=
      spreadGroup_congr fun p hp => hother p.1 p.2 (by
        rw [((mem_locateGroup_iff (g, xs) p.1 p.2).1 hp).1]
        exact hg)
    simp [hg, hsame]

/-! ## One child of a group -/

/-- The places before a child, its own place, and the places after it. -/
theorem spreadGroup_split (slot : Location → N → List N) (group : GroupName)
    {xs : List N} {i : Nat} {x : N} (hx : xs[i]? = some x) :
    spreadGroup slot (group, xs)
      = spreadGroup slot (group, xs.take i) ++ slot ⟨group, i⟩ x
        ++ ((xs.drop (i + 1)).zipIdx (i + 1)).flatMap fun p => slot ⟨group, p.2⟩ p.1 := by
  obtain ⟨hi, hxi⟩ := List.getElem?_eq_some_iff.1 hx
  have hsplit : xs = xs.take i ++ x :: xs.drop (i + 1) := by
    rw [← hxi, ← List.drop_eq_getElem_cons hi, List.take_append_drop]
  have hlen : (xs.take i).length = i := List.length_take_of_le (Nat.le_of_lt hi)
  have hzip : xs.zipIdx = (xs.take i).zipIdx ++ (x, i) :: (xs.drop (i + 1)).zipIdx (i + 1) := by
    conv => lhs; rw [hsplit]
    rw [List.zipIdx_append, hlen, List.zipIdx_cons]
    simp
  simp only [spreadGroup, locateGroup, List.flatMap_map, hzip, List.flatMap_append,
    List.flatMap_cons, List.append_assoc]

/-- Only one place is different: so is the spread. -/
theorem spreadGroup_update {slot slot' : Location → N → List N} {group : GroupName}
    {xs : List N} {i : Nat} {x : N} (hx : xs[i]? = some x)
    (hother : ∀ l y, l ≠ ⟨group, i⟩ → slot l y = slot' l y) :
    spreadGroup slot' (group, xs)
      = spreadGroup slot (group, xs.take i) ++ slot' ⟨group, i⟩ x
        ++ ((xs.drop (i + 1)).zipIdx (i + 1)).flatMap fun p => slot ⟨group, p.2⟩ p.1 := by
  rw [spreadGroup_split slot' group hx]
  congr 1
  · congr 1
    refine (spreadGroup_congr fun p hp => hother p.1 p.2 ?_).symm
    intro he
    have hlt := ((mem_locateGroup_iff (group, xs.take i) p.1 p.2).1 hp).2
    rw [he] at hlt
    have := (List.getElem?_eq_some_iff.1 hlt).1
    simp only [List.length_take] at this
    omega
  · rw [List.flatMap, List.flatMap]
    congr 1
    apply List.map_congr_left
    rintro ⟨y, j⟩ hmem
    rw [List.mk_mem_zipIdx_iff_le_and_getElem?_sub] at hmem
    refine (hother ⟨group, j⟩ y fun he => ?_).symm
    have hj : j = i := by simpa using he
    omega

end NamedChildren

end Topiary
