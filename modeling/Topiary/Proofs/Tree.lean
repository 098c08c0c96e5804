/-
Topiary.Proofs.Tree — labelled trees are finite.

* `NamedChildren.mem_of_mem_groups_ofList` — child groups that were collected
  are among the groups listed; `NamedChildren.groups_ofList` — and they are
  those if no name is listed twice.
* `Adapter.IsFinite` — below a node there is a finite tree.
* `Tree.isFinite` — so it is below every labelled tree; `Tree.adapter_lawful` — whose copies have
  the children they were given.

Walks over labelled trees serve as examples in the modules after this one.  `cbv` evaluates them
with the equations of `≤` and `Prod.snd`, which the modules of Mathlib imported here hold.
-/
import Mathlib.Algebra.Module.Submodule.Lattice
import Mathlib.Data.List.Permutation
import Topiary.Proofs.Children.Spread
import Topiary.Tree

namespace Topiary

/-! ## Collected groups -/

namespace NamedChildren

variable {N : Type}

theorem mem_groups_insert (c : NamedChildren N) (group : GroupName) (nodes : List N)
    {g : GroupName × List N} (h : g ∈ (c.insert group nodes).groups) :
    g ∈ c.groups ∨ g = (group, nodes) := by
  unfold insert at h
  split at h
  · obtain ⟨x, hx, rfl⟩ := List.mem_map.1 h
    split
    · rename_i hname
      exact .inr (by rw [hname])
    · exact .inl hx
  · rcases List.mem_append.1 h with h | h
    · exact .inl h
    · exact .inr (List.mem_singleton.1 h)

theorem mem_of_mem_groups_ofList {groups : Groups N} {g : GroupName × List N}
    (h : g ∈ (ofList groups).groups) : g ∈ groups := by
  have hfold : ∀ (gs : Groups N) (c : NamedChildren N),
      g ∈ (gs.foldl (fun c g => c.insert g.1 g.2) c).groups → g ∈ c.groups ∨ g ∈ gs := by
    intro gs
    induction gs with
    | nil => exact fun c h => .inl h
    | cons x gs ih =>
      intro c h
      rcases ih _ h with h | h
      · refine (c.mem_groups_insert x.1 x.2 h).imp_right fun he => ?_
        rw [he]
        exact List.mem_cons_self
      · exact .inr (List.mem_cons_of_mem _ h)
  exact (hfold groups empty h).resolve_left List.not_mem_nil

/-- Groups of different names are collected as they are. -/
theorem groups_ofList {groups : Groups N} (h : (groups.map Prod.fst).Nodup) :
    (ofList groups).groups = groups := by
  have hfold : ∀ (gs : Groups N) (c : NamedChildren N), (c.names ++ gs.map Prod.fst).Nodup →
      (gs.foldl (fun c g => c.insert g.1 g.2) c).groups = c.groups ++ gs := by
    intro gs
    induction gs with
    | nil => exact fun c _ => (List.append_nil _).symm
    | cons x gs ih =>
      intro c hc
      have hnew : x.1 ∉ c.names := by
        intro hmem
        exact (List.nodup_append.1 hc).2.2 x.1 hmem x.1 (by simp) rfl
      rw [List.foldl_cons, insert, dif_neg hnew, ih]
      · simp [append]
      · rw [names_append, List.append_assoc]
        exact hc
  exact hfold groups empty (by simpa using h)

end NamedChildren

/-! ## Finite trees -/

/-- Below the node there is a finite tree. -/
def Adapter.IsFinite {N : Type} (A : Adapter N) : N → Prop :=
  Acc fun y x => ∃ l, (A.children x).childAt l = .ok y

namespace Tree

theorem mem_groups_of_childAt {t y : Tree} {l : Location} (h : t.children.childAt l = .ok y) :
    ∃ nodes, (l.group, nodes) ∈ t.groups ∧ nodes[l.index]? = some y := by
  obtain ⟨nodes, hmem, hy⟩ := (NamedChildren.childAt_eq_ok_iff _ _ _).1 h
  exact ⟨nodes, NamedChildren.mem_of_mem_groups_ofList hmem, hy⟩

theorem sizeOf_child {t y : Tree} {l : Location} (h : t.children.childAt l = .ok y) :
    sizeOf y < sizeOf t := by
  obtain ⟨nodes, hmem, hy⟩ := mem_groups_of_childAt h
  obtain ⟨id, label, groups⟩ := t
  have hgroup : sizeOf (l.group, nodes) < sizeOf groups := List.sizeOf_lt_of_mem hmem
  have hnode : sizeOf y < sizeOf nodes := List.sizeOf_lt_of_mem (List.mem_of_getElem? hy)
  simp only [Prod.mk.sizeOf_spec, Tree.node.sizeOf_spec] at hgroup ⊢
  omega

/-- A copy has the groups that it was given. -/
theorem adapter_lawful : adapter.Lawful where
  children_rebuild := fun _ _ c => NamedChildren.ext (NamedChildren.groups_ofList c.names_nodup)

/-- A labelled tree is finite. -/
theorem isFinite (t : Tree) : adapter.IsFinite t :=
  (Subrelation.wf (fun ⟨_, h⟩ => sizeOf_child h) (measure (sizeOf (α := Tree))).wf).apply t

/-- The tree `a(b(d,e),c(d))`, with the same node `d` in two places. -/
def hedge : Tree :=
  let d : Tree := .node (.given 3) "d" []
  let b : Tree := .node (.given 1) "b" [(.unnamed, [d, .node (.given 4) "e" []])]
  .node (.given 0) "a" [(.unnamed, [b, .node (.given 2) "c" [(.unnamed, [d])]])]

end Tree

end Topiary
