/-
Topiary.Proofs.Transform.Planning — a transform carries out its plan.

* `Tree.Proper` — group names are told apart, and no node is below itself.
* `Editor.CarriesOut` — an editor that makes the edits of a plan on entering a
  node and does nothing else.
* `Editor.hands_visit` — a node with everything below it.
* `transform_rebuilds` — whole transforms.
-/
import Topiary.Proofs.Transform.Plan
import Topiary.Proofs.Transform.Recursion

namespace Topiary

variable {D S : Type}

/-! ## Trees and editors -/

/-- The groups of every node have different names, and no node occurs below
itself. -/
inductive Tree.Proper : Tree → Prop
  | node {id : NodeId} {label : String} {groups : List (GroupName × List Tree)}
      (names : (groups.map Prod.fst).Nodup) (apart : id ∉ Tree.preorderGroups groups)
      (below : ∀ g ∈ groups, ∀ t ∈ g.2, t.Proper) : Tree.Proper (.node id label groups)

/-- The new nodes of the plan are none of the tree's. -/
def Plan.FreshFor (p : Plan) (t : Tree) : Prop :=
  ∀ path id label before after, p.entry path = .keep (some (id, label)) before after →
    id ∉ t.preorder

theorem Plan.FreshFor.mono {p : Plan} {t t' : Tree} (h : p.FreshFor t)
    (hsub : t'.preorder ⊆ t.preorder) : p.FreshFor t' :=
  fun path id label before after he hmem => h path id label before after he (hsub hmem)

/-- The node in a place is the old one, or it is none of the tree's. -/
theorem Plan.FreshFor.nodeId_changed {p : Plan} {t : Tree} (h : p.FreshFor t)
    (path : List Location) : nodeId ((p.entry path).changed t) = nodeId t
      ∨ nodeId ((p.entry path).changed t) ∉ t.preorder := by
  cases he : p.entry path with
  | delete => exact .inl rfl
  | keep change before after =>
    cases change with
    | none => exact .inl rfl
    | some new => exact .inr (h path new.1 new.2 before after he)

/-- Edits that carry out an entry, made in any order. -/
def Plan.Entry.CarriedOutBy (e : Plan.Entry) (t : Tree) (edits : List (Edit Tree)) : Prop :=
  match e with
  | .delete => edits = [.delete]
  | .keep _ before after => .delete ∉ edits ∧ ∀ kind,
      Trail.nodesOf (edits.filterMap Edit.toKind) kind = Trail.kinds before after (e.change? t) kind

/-- The node at a path, nearest step first. -/
def Tree.at? (root : Tree) : List Location → Option Tree
  | [] => some root
  | l :: path => (root.at? path).bind fun t => (t.children.childAt l).toOption

/-- The context shows a node of the tree at its place. -/
def Context.Shows (c : Context Tree D) (root : Tree) : Prop :=
  root.at? c.sight.path = some c.sight.frame.reached

/-- The editor makes the edits of the plan on entering a node, and nothing else.
It never aborts and never quits.  This is asked of it at the nodes of the tree
only: at any other node, such as an inserted one, it may do what it likes. -/
structure Editor.CarriesOut (v : Editor Tree D S) (p : Plan) (root : Tree) : Prop where
  enter : ∀ c s, c.Shows root → c.sight.frame.phase = .enter → ∃ r, v.call c s = .ok r
    ∧ r.control = .proceed ∧ (p.entry c.sight.path).CarriedOutBy c.sight.frame.node r.edits
  later : ∀ c s, c.Shows root → c.sight.frame.phase ≠ .enter → ∃ r, v.call c s = .ok r
    ∧ r.control = .proceed ∧ r.edits = []

/-- What is shown depends on the place only. -/
theorem Context.Shows.withFrame {c : Context Tree D} {root : Tree} (h : c.Shows root)
    {f : Frame Tree D} (hlocation : f.location = c.sight.frame.location)
    (hreached : f.reached = c.sight.frame.reached) : (c.withFrame f).Shows root := by
  show root.at? (c.withFrame f).sight.path = some f.reached
  rw [hreached, Sight.path, c.crumbs_withFrame hlocation]
  exact h

namespace Tree

theorem preorder_subset_preorderNodes {t : Tree} {nodes : List Tree} (h : t ∈ nodes) :
    t.preorder ⊆ preorderNodes nodes := by
  induction nodes with
  | nil => exact absurd h List.not_mem_nil
  | cons t' ts ih =>
    rw [preorderNodes]
    rcases List.mem_cons.1 h with rfl | h
    · exact List.subset_append_left _ _
    · exact fun id hid => List.mem_append_right _ (ih h hid)

theorem preorder_subset_preorderGroups {t : Tree} {g : GroupName × List Tree}
    {groups : List (GroupName × List Tree)} (hg : g ∈ groups) (ht : t ∈ g.2) :
    t.preorder ⊆ preorderGroups groups := by
  induction groups with
  | nil => exact absurd hg List.not_mem_nil
  | cons g' gs ih =>
    obtain ⟨name, nodes⟩ := g'
    rw [preorderGroups]
    rcases List.mem_cons.1 hg with rfl | hg
    · exact fun id hid => List.mem_append_left _ (preorder_subset_preorderNodes ht hid)
    · exact fun id hid => List.mem_append_right _ (ih hg hid)

end Tree

/-! ## Carrying out a plan -/

namespace Plan

/-- The edits of an entry. -/
def Entry.edits (e : Entry) (t : Tree) : List (Edit Tree) :=
  match e with
  | .delete => [.delete]
  | .keep _ before after => (e.change? t).toList.map .change ++ before.map .insertBefore
    ++ after.map .insertAfter

theorem Entry.carriedOutBy_edits (e : Entry) (t : Tree) : e.CarriedOutBy t (e.edits t) := by
  cases e with
  | delete => rfl
  | keep change before after =>
    refine ⟨by simp [edits], fun kind => ?_⟩
    simp only [edits, List.filterMap_append, List.filterMap_map, Function.comp_def, Edit.toKind,
      Trail.nodesOf, List.filterMap_filterMap]
    cases kind <;> simp [Trail.kinds]

/-- The editor that makes the edits of the plan. -/
def editor (p : Plan) : Editor Tree D S where
  call := fun c s => .ok ⟨.proceed,
    if c.sight.frame.phase = .enter then (p.entry c.sight.path).edits c.sight.frame.node else [],
    c.sight.frame.data, s⟩
  backRef_edits := by
    intro c s r hphase h
    rw [← Except.ok.inj h, hphase]
    rfl

/-- Every plan can be carried out. -/
theorem carriesOut_editor (p : Plan) (root : Tree) :
    (p.editor : Editor Tree D S).CarriesOut p root where
  enter := fun c s _ hphase => ⟨_, rfl, rfl, by
    rw [if_pos hphase]
    exact Entry.carriedOutBy_edits _ _⟩
  later := fun c s _ hphase => ⟨_, rfl, rfl, if_neg hphase⟩

end Plan

/-! ## One callback -/

namespace Editor

variable {v : Editor Tree D S} {p : Plan} {root : Tree} {run : Nat} {fresh : D}

/-- Only `enter` makes edits. -/
theorem ask_later (hv : v.CarriesOut p root) {c : Context Tree D} (hc : c.Shows root)
    {t : Task Tree D} (hlocation : t.frame.location = c.sight.frame.location)
    (hreached : t.frame.reached = c.sight.frame.reached) (hphase : t.frame.phase ≠ .enter)
    (x : Pace S) :
    ∃ r, v.ask c t x = .ok r ∧ r.2.2.quit = false ∧ r.2.1.edits = t.edits
      ∧ r.2.1.frame.location = c.sight.frame.location := by
  obtain ⟨a, hcall, hcontrol, hedits⟩ := hv.later (c.withFrame t.frame) x.state
    (hc.withFrame hlocation hreached) hphase
  rw [ask_of_call hcall, hedits, hcontrol]
  exact ⟨_, rfl, rfl, rfl, hlocation⟩

/-- Entering a node that stays. -/
theorem ask_enter (hv : v.CarriesOut p root) {c : Context Tree D} (hc : c.Shows root)
    (hf : c.sight.frame.Unvisited)
    {change : Option (NodeId × String)} {before after : List Tree}
    (he : p.entry c.sight.path = .keep change before after)
    (hroot : c.sight.isRoot = true → before = [] ∧ after = []) (x : Pace S) :
    ∃ t x', v.ask c (.ofFrame c.sight.frame) x = .ok (.proceed, t, x') ∧ x'.quit = false
      ∧ t.frame.location = c.sight.frame.location ∧ t.frame.reached = c.sight.frame.reached
      ∧ t.frame.node = (p.entry c.sight.path).changed c.sight.frame.node
      ∧ t.Holds before after ((p.entry c.sight.path).change? c.sight.frame.node) := by
  obtain ⟨a, hcall, hcontrol, hedits⟩ := hv.enter c x.state hc hf.phase
  rw [he] at hedits
  obtain ⟨hstays, hkinds⟩ := hedits
  rw [← he] at hkinds
  have hkind : c.sight.isRoot = true → ∀ op ∈ a.edits.filterMap Edit.toKind, op.1 = .replace := by
    intro hr op hop
    obtain ⟨rfl, rfl⟩ := hroot hr
    by_contra hne
    have hnone : Trail.nodesOf (a.edits.filterMap Edit.toKind) op.1 = [] := by
      rw [hkinds]
      cases hk : op.1 <;> simp_all [Trail.kinds]
    exact (Trail.nodesOf_eq_nil_iff _ _).1 hnone op hop rfl
  obtain ⟨t, hedit, hgrown⟩ := (Task.holds_ofFrame hf.deleted).editAll hstays hkind
  have hask := ask_of_call (v := v) (c := c) (t := .ofFrame c.sight.frame) (x := x) hcall
  rw [hedit, hcontrol] at hask
  have hlast : ((p.entry c.sight.path).change? c.sight.frame.node).toList.getLast?
      = (p.entry c.sight.path).change? c.sight.frame.node := by
    cases (p.entry c.sight.path).change? c.sight.frame.node <;> rfl
  have hholds := hgrown.holds
  have hframe := hgrown.frame
  rw [hkinds, hkinds, hkinds] at hholds
  rw [hkinds] at hframe
  simp only [Trail.kinds, List.nil_append, hlast, Option.or_none] at hholds hframe
  refine ⟨_, _, hask, rfl, ?_, ?_, ?_, hholds.congr rfl rfl⟩
  · show t.frame.location = _
    rw [hframe]
    rfl
  · show t.frame.reached = _
    rw [hframe]
    rfl
  · show t.frame.node = _
    rw [hframe]
    rfl

/-- Entering a node that is deleted. -/
theorem ask_delete (hv : v.CarriesOut p root) {c : Context Tree D} (hc : c.Shows root)
    (hf : c.sight.frame.Unvisited) (he : p.entry c.sight.path = .delete)
    (hroot : c.sight.isRoot = false) (x : Pace S) :
    ∃ t x', v.ask c (.ofFrame c.sight.frame) x = .ok (.proceed, t, x') ∧ x'.quit = false
      ∧ t.frame.location = c.sight.frame.location ∧ t.frame.reached = c.sight.frame.reached
      ∧ t.frame.deleted = true
      ∧ t.edits = [(.delete, c.sight.frame.node)] := by
  obtain ⟨a, hcall, hcontrol, hedits⟩ := hv.enter c x.state hc hf.phase
  rw [he] at hedits
  have hdelete : (Task.ofFrame c.sight.frame).editAll c.sight.isRoot a.edits
      = .ok { Task.ofFrame c.sight.frame with
          frame := { c.sight.frame with deleted := true }
          edits := [(.delete, c.sight.frame.node)] } := by
    rw [show a.edits = [.delete] from hedits, hroot]
    simp [Task.editAll, Task.edit, Task.delete, Task.ofFrame, hf.deleted, bind, Except.bind]
  have hask := ask_of_call (v := v) (c := c) (t := .ofFrame c.sight.frame) (x := x) hcall
  rw [hdelete, hcontrol] at hask
  exact ⟨_, _, hask, rfl, rfl, rfl, rfl, rfl⟩

/-! ## The children of a node -/

variable {path : List Location} {visit : Nat → Context Tree D → Pace S → Run (Task Tree D × Pace S)}

/-- Children one after the other, each of which hands over its edits. -/
theorem hands_throughEach {c : Context Tree D} {kids : List (Location × Tree)}
    (hkids : ∀ k ∈ kids, ∀ (id : Nat) (x : Pace S), x.quit = false →
      ∃ r, Run.Eventually (fun levels => visit levels (c.child id k.1 k.2 fresh) x) (.done r)
        ∧ r.2.quit = false ∧ p.Hands run path k r.1)
    (made : Nat) {x : Pace S} (hx : x.quit = false) :
    ∃ rs, Run.Eventually (fun levels => Pace.throughEach (visit levels)
        (c.below made (c.sight.frame.childFrames fresh kids)) x) (.done rs)
      ∧ rs.2.quit = false ∧ List.Forall₂ (p.Hands run path) kids rs.1 := by
  induction kids generalizing made x with
  | nil => exact ⟨([], x), .const _, hx, .nil⟩
  | cons k kids ih =>
    rw [List.forall_mem_cons] at hkids
    obtain ⟨r, hr, hq, hhands⟩ := hkids.1 made x hx
    obtain ⟨rs, hrs, hq', hrest⟩ := ih hkids.2 (made + 1) hq
    refine ⟨(r.1 :: rs.1, rs.2), ?_, hq', .cons hhands hrest⟩
    rw [c.below_cons]
    refine hr.bind ?_
    simp only [hq, Bool.false_eq_true, if_false]
    exact hrs.bind (.const _)

variable (v run fresh)

/-- A node that stays, with its children. -/
theorem hands_descend (hv : v.CarriesOut p root) {c : Context Tree D} (hc : c.Shows root)
    {node : Tree} (hnames : (node.groups.map Prod.fst).Nodup) (hpath : c.sight.path = path)
    {change : Option (NodeId × String)} {before after : List Tree}
    (he : p.entry path = .keep change before after) {t : Task Tree D}
    (hlocation : t.frame.location = c.sight.frame.location)
    (hreached : t.frame.reached = c.sight.frame.reached)
    (hnode : t.frame.node = (p.entry path).changed node)
    (hholds : t.Holds before after ((p.entry path).change? node))
    (hkids : ∀ k ∈ node.groups.flatMap NamedChildren.locateGroup, ∀ (id : Nat) (x : Pace S),
      x.quit = false → ∃ r, Run.Eventually (fun levels =>
          visit levels ((c.withFrame t.frame).child id k.1 k.2 fresh) x) (.done r)
        ∧ r.2.quit = false ∧ p.Hands run path k r.1)
    {x : Pace S} (hx : x.quit = false) :
    ∃ r, Run.Eventually (fun levels => v.descend Tree.adapter run fresh (visit levels) c t x)
        (.done r)
      ∧ r.2.quit = false ∧ r.1.frame.location = c.sight.frame.location
      ∧ ∀ kind, Trail.nodesOf r.1.edits kind = p.handed run path node kind := by
  have hgroups : t.frame.node.groups = node.groups := by
    rw [hnode, he]
    cases change <;> rfl
  have hchildren : (Tree.adapter.children t.frame.node).groups = node.groups := by
    show (NamedChildren.ofList t.frame.node.groups).groups = _
    rw [hgroups, NamedChildren.groups_ofList hnames]
  have hlocations : (Tree.adapter.children t.frame.node).locations
      = node.groups.flatMap NamedChildren.locateGroup := by
    rw [NamedChildren.locations, hchildren]
  have hkidsOf : kidsOf Tree.adapter t = (Tree.adapter.children t.frame.node).locations := by
    rw [kidsOf, hholds.stays]
    rfl
  let kids := (c.withFrame t.frame).below x.made (kidFrames Tree.adapter fresh t)
  rw [← hlocations, ← hkidsOf] at hkids
  obtain ⟨rs, hrs, hq, hhands⟩ := hands_throughEach hkids x.made
    (x := { x with made := x.made + kids.length }) hx
  let edits := rs.1.flatMap Task.toChildEdits
  let merged := t.merge Tree.adapter ((Site.ofRun run).below path) edits
  have hnone : edits = [] ↔ p.touchesGroups path node.groups = false := by
    rw [p.touchesGroups_eq, ← hlocations, ← hkidsOf]
    exact Plan.handsAll_eq_nil_iff hhands
  rw [hkidsOf] at hhands
  have hmerged : merged.Holds before after
      (if change.isSome || p.touchesGroups path node.groups then some (p.rebuild run path node)
        else none) := by
    have hmerge := hholds.merge Tree.adapter ((Site.ofRun run).below path) edits
    by_cases hes : edits = []
    · have huntouched := hnone.1 hes
      rw [if_pos hes, he] at hmerge
      rw [p.rebuild_of_untouched run path huntouched, huntouched, he]
      cases change <;> exact hmerge
    · have htouched : p.touchesGroups path node.groups = true := by
        simpa using mt hnone.2 hes
      have hcopy : Tree.adapter.rebuild ((Site.ofRun run).below path) t.frame.node
          ((Tree.adapter.children t.frame.node).spread (ChildEdit.slot edits))
          = p.rebuild run path node := by
        rw [p.rebuild_of_touched run path htouched, ← hnode, ← hchildren,
          ← Plan.groups_spread_slot hhands]
        rfl
      rw [if_neg hes, hcopy] at hmerge
      rw [htouched, Bool.or_true, if_pos rfl]
      exact hmerge
  obtain ⟨hmlocation, hmreached⟩ := Task.place_merge Tree.adapter ((Site.ofRun run).below path) t
    edits
  obtain ⟨r, hleave, hq', hedits, hplace⟩ := ask_later hv hc (t := ForkJoin.inPhase .leave merged)
    (hmlocation.trans hlocation) (hmreached.trans hreached) (by simp [ForkJoin.inPhase]) rs.2
  refine ⟨r.2, ?_, hq', hplace, fun kind => ?_⟩
  · unfold descend
    rw [show (c.withFrame t.frame).sight.frame = t.frame from rfl, ← kidFrames_eq] at hrs
    refine hrs.bind ?_
    rw [hq, hpath]
    show Run.Eventually (fun _ =>
      Run.ofExcept (v.ask c (ForkJoin.inPhase .leave merged) rs.2) >>= fun r => pure r.2) _
    rw [hleave]
    exact .const _
  · rw [hedits, Plan.handed, he]
    exact hmerged.kinds kind

/-! ## Whole subtrees -/

/-- A node that is deleted, whose children are not visited. -/
theorem descend_deleted (hv : v.CarriesOut p root) {c : Context Tree D} (hc : c.Shows root)
    {t : Task Tree D} (hlocation : t.frame.location = c.sight.frame.location)
    (hreached : t.frame.reached = c.sight.frame.reached) (hd : t.frame.deleted = true) {x : Pace S}
    (hx : x.quit = false) :
    ∃ r, Run.Eventually (fun levels => v.descend Tree.adapter run fresh (visit levels) c t x)
        (.done r)
      ∧ r.2.quit = false ∧ r.1.frame.location = c.sight.frame.location ∧ r.1.edits = t.edits := by
  obtain ⟨r, hleave, hq, hedits, hplace⟩ := ask_later hv hc (t := ForkJoin.inPhase .leave t)
    hlocation hreached (by simp [ForkJoin.inPhase]) x
  refine ⟨r.2, ?_, hq, hplace, hedits⟩
  have hnone : kidFrames Tree.adapter fresh t = [] := by
    rw [kidFrames, hd]
    rfl
  unfold descend
  rw [hnone]
  show Run.Eventually (fun _ => if x.quit = true then pure (t, x) else
    Run.ofExcept (v.ask c (ForkJoin.inPhase .leave t) x) >>= fun r => pure r.2) _
  rw [hx, hleave]
  exact .const _

/-- A node with everything below it, by induction on the tree. -/
theorem hands_visit (hv : v.CarriesOut p root) {t : Tree} (ht : t.Proper)
    (hfresh : p.FreshFor t) {path : List Location} (hat : root.at? path = some t)
    {c : Context Tree D} (hnode : c.sight.frame.node = t) (hf : c.sight.frame.Unvisited)
    (hpath : c.sight.path = path)
    (habove : ∀ f ∈ c.sight.above, nodeId f.node ∉ t.preorder) {x : Pace S}
    (hx : x.quit = false) :
    ∃ r, Run.Eventually (fun levels => v.visit Tree.adapter run fresh levels c x) (.done r)
      ∧ r.2.quit = false ∧ r.1.frame.location = c.sight.frame.location
      ∧ ∀ kind, Trail.nodesOf r.1.edits kind = p.handed run path t kind := by
  induction ht generalizing path c x with
  | @node id label groups names apart _ ih =>
    have hc : c.Shows root := by
      rw [Context.Shows, hpath, hat, ← hf.node, hnode]
    have hid : id ∈ (Tree.node id label groups).preorder := by
      rw [Tree.preorder]
      exact List.mem_cons_self
    have hrep : ¬ c.sight.repeatsAbove = true := by
      simp only [Sight.repeatsAbove, List.any_eq_true, beq_iff_eq, not_exists, not_and]
      intro f hmem he
      rw [hnode] at he
      exact habove f hmem (he ▸ hid)
    have hroot : c.sight.isRoot = true → path = [] := by
      intro hr
      have hnil : c.sight.above = [] := List.isEmpty_iff.1 hr
      rw [← hpath, Sight.path, Sight.crumbs, hnil]
      rfl
    obtain ⟨newRoot, hstays⟩ := p.root_stays
    cases he : p.entry path with
    | delete =>
      have hinner : c.sight.isRoot = false := by
        refine Bool.eq_false_iff.2 fun hr => ?_
        rw [hroot hr, hstays] at he
        cases he
      obtain ⟨t, x', hask, hq, hlocation, hreached, hd, hedits⟩ :=
        ask_delete hv hc hf (hpath ▸ he) hinner x
      obtain ⟨r, hr, hq', hplace, hedits'⟩ := v.descend_deleted run fresh hv hc hlocation hreached
        hd hq
      refine ⟨r, .of_succ ?_, hq', hplace, fun kind => ?_⟩
      · simp only [visit, if_neg hrep, hask, Run.ofExcept_ok, Run.done_bind, if_true]
        exact hr
      · rw [hedits', hedits, hnode, Plan.handed, he]
        cases kind <;> rfl
    | keep change before after =>
      have hnone : c.sight.isRoot = true → before = [] ∧ after = [] := by
        intro hr
        rw [hroot hr, hstays] at he
        cases he
        exact ⟨rfl, rfl⟩
      obtain ⟨t, x', hask, hq, hlocation, hreached, hchanged, hholds⟩ :=
        ask_enter hv hc hf (hpath ▸ he) hnone x
      rw [hpath, hnode] at hchanged hholds
      have hkids : ∀ k ∈ groups.flatMap NamedChildren.locateGroup, ∀ (i : Nat) (x : Pace S),
          x.quit = false → ∃ r, Run.Eventually (fun levels => v.visit Tree.adapter run fresh levels
              ((c.withFrame t.frame).child i k.1 k.2 fresh) x) (.done r)
            ∧ r.2.quit = false ∧ p.Hands run path k r.1 := by
        intro k hk i x hx
        obtain ⟨g, hg, hmem⟩ := List.mem_flatMap.1 hk
        have hk2 : k.2 ∈ g.2 :=
          List.mem_of_getElem? ((NamedChildren.mem_locateGroup_iff g k.1 k.2).1 hmem).2
        have hsub : k.2.preorder ⊆ Tree.preorderGroups groups :=
          Tree.preorder_subset_preorderGroups hg hk2
        have hsub' : k.2.preorder ⊆ (Tree.node id label groups).preorder := by
          rw [Tree.preorder]
          exact fun y hy => List.mem_cons_of_mem _ (hsub hy)
        have hpath' : ((c.withFrame t.frame).child i k.1 k.2 fresh).sight.path = k.1 :: path := by
          show k.1 :: (c.withFrame t.frame).sight.path = _
          rw [Sight.path, c.crumbs_withFrame hlocation, ← hpath]
          rfl
        have habove' : ∀ f ∈ ((c.withFrame t.frame).child i k.1 k.2 fresh).sight.above,
            nodeId f.node ∉ k.2.preorder := by
          intro f hf hmem
          rcases List.mem_cons.1 hf with rfl | hf
          · rcases hfresh.nodeId_changed path with hsame | hnew
            · refine apart (hsub ?_)
              rw [← show nodeId t.frame.node = id by rw [hchanged, hsame]; rfl]
              exact hmem
            · rw [← hchanged] at hnew
              exact hnew (hsub' hmem)
          · exact habove f hf (hsub' hmem)
        have hat' : root.at? (k.1 :: path) = some k.2 := by
          have hchild : (Tree.node id label groups).children.childAt k.1 = .ok k.2 := by
            refine (NamedChildren.mem_locations_iff _ _ _).1 ?_
            rw [NamedChildren.locations, Tree.children, NamedChildren.groups_ofList
              (show ((Tree.node id label groups).groups.map Prod.fst).Nodup from names)]
            exact hk
          rw [Tree.at?, hat, Option.bind_some, hchild]
          rfl
        obtain ⟨r, hr, hq, hplace, hedits⟩ := ih g hg k.2 hk2 (hfresh.mono hsub') hat' rfl
          ⟨rfl, rfl, rfl⟩ hpath' habove' hx
        exact ⟨r, hr, hq, hplace, hedits⟩
      obtain ⟨r, hr, hq', hplace, hedits⟩ := v.hands_descend run fresh hv hc
        (show ((Tree.node id label groups).groups.map Prod.fst).Nodup from names) hpath he
        hlocation hreached hchanged hholds hkids hq
      refine ⟨r, .of_succ ?_, hq', hplace, hedits⟩
      simp only [visit, if_neg hrep, hask, Run.ofExcept_ok, Run.done_bind, if_true]
      exact hr

end Editor

/-! ## Whole transforms -/

/-- The transform of a tree with an editor that carries out a plan returns the
tree that the plan says, whatever state and data the editor keeps. -/
theorem transform_rebuilds (p : Plan) (root : Tree) (v : Editor Tree D S)
    (hv : v.CarriesOut p root) (run : Nat) (fresh rootData : D) (hproper : root.Proper)
    (hfresh : p.FreshFor root)
    (state : S) :
    Run.Settles (fun limit => Transformed.tree <$>
        (v.transform Tree.adapter run fresh rootData).apply limit root state)
      (.done (p.rebuild run [] root)) := by
  rw [v.settles_apply_iff]
  obtain ⟨r, hr, -, -, hedits⟩ := v.hands_visit run fresh hv hproper hfresh
    (show root.at? [] = some root from rfl) (c := ⟨0, ⟨.root root fresh, [], rootData⟩, []⟩)
    (x := ⟨state, 1, false⟩) rfl ⟨rfl, rfl, rfl⟩
    rfl (by simp) rfl
  have hroot : r.1.rootNode root = p.rebuild run [] root := by
    obtain ⟨change, he⟩ := p.root_stays
    rw [Task.rootNode, hedits, Plan.handed, he]
    show (Option.toList (if (change.isSome || p.touchesGroups [] root.groups) = true then
      some (p.rebuild run [] root) else none)).getLast?.getD root = _
    by_cases hnew : (change.isSome || p.touchesGroups [] root.groups) = true
    · rw [if_pos hnew]
      rfl
    · rw [Bool.or_eq_true, not_or] at hnew
      obtain rfl : change = none := by simpa using hnew.1
      have hnone : p.touchesGroups [] root.groups = false := Bool.eq_false_iff.2 hnew.2
      rw [p.rebuild_of_untouched run [] hnone, hnone, he]
      rfl
  rw [← hroot]
  exact (hr.map fun r => r.1.rootNode root).settles

/-- Renames the root of a hedge, puts a node after its first child, deletes the
first node below that child and renames the second one behind a new node. -/
def Plan.topiary : Plan where
  entry := fun path =>
    if path = [] then .keep (some (.given 10, "A")) [] []
    else if path = [⟨.unnamed, 0⟩] then .keep none [] [.node (.given 5) "x" []]
    else if path = [⟨.unnamed, 0⟩, ⟨.unnamed, 0⟩] then .delete
    else if path = [⟨.unnamed, 1⟩, ⟨.unnamed, 0⟩] then
      .keep (some (.given 11, "E")) [.node (.given 6) "y" []] []
    else .keep none [] []
  root_stays := ⟨_, rfl⟩

theorem topiary_rebuilds_hedge :
    (Plan.topiary.rebuild 0 [] Tree.hedge).render = "A(b(y,E),x,c(d))"
      ∧ Run.Settles (fun limit => Transformed.tree <$>
          ((Plan.topiary.editor : Editor Tree Unit Unit).transform Tree.adapter 0 () ()).apply
            limit Tree.hedge ()) (.done (Plan.topiary.rebuild 0 [] Tree.hedge)) := by
  have hleaf : ∀ id label, (Tree.node id label []).Proper := fun id label =>
    .node .nil List.not_mem_nil (by simp)
  have hproper : Tree.hedge.Proper := by
    refine .node (by decide) (by decide) ?_
    simp only [List.forall_mem_cons, List.not_mem_nil, false_implies, implies_true, and_true]
    refine ⟨.node (by decide) (by decide) ?_, .node (by decide) (by decide) ?_⟩ <;>
      simp [hleaf]
  have hfresh : Plan.topiary.FreshFor Tree.hedge := by
    intro path id label before after he
    simp only [Plan.topiary] at he
    split_ifs at he <;> cases he <;> decide
  exact ⟨by decide, transform_rebuilds Plan.topiary Tree.hedge Plan.topiary.editor
    (Plan.topiary.carriesOut_editor Tree.hedge) 0 () () hproper hfresh ()⟩

end Topiary
