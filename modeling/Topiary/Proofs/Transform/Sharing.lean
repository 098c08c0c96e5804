/-
Topiary.Proofs.Transform.Sharing — a transform shares what it does not touch.

A copy is made of a node if and only if there was an edit at a place below it,
once, and of the node as it was when it had been entered.  Every node of the
result was in the tree before, was brought in by the visitor, or is such a copy.
A node with no edit at its place or below it stays in the result, unless a node
above it gave way when it was left.

* `Adapter.Occurs`, `Adapter.Within` — what stands somewhere in a tree.
* `EditedBelow`, `Shares` — what a result shares with the tree.
* `Account.mem_ledger_iff`, `Account.nodup_sites` — the copies.
* `Account.drawn` — where the nodes of a task come from.
* `Account.occurs_of_untouched` — what stays.
* `transforms_share_the_untouched` — both kinds of transforms.
-/
import Mathlib.Data.List.Nodup
import Mathlib.Logic.Relation
import Topiary.Proofs.MultiZipper.Fold
import Topiary.Proofs.Transform.Accounting

namespace Topiary

variable {N D S : Type}

/-! ## Occurrences -/

namespace Adapter

/-- The node stands somewhere in the tree `x`. -/
def Occurs (A : Adapter N) (y x : N) : Prop :=
  Relation.ReflTransGen (fun parent child => ∃ l, (A.children parent).childAt l = .ok child) x y

/-- Everything in the tree is of one kind. -/
def Within (A : Adapter N) (K : N → Prop) (x : N) : Prop := ∀ y, A.Occurs y x → K y

variable {A : Adapter N} {K : N → Prop} {x y : N}

theorem Within.child (h : A.Within K x) {l : Location} (hchild : (A.children x).childAt l = .ok y) :
    A.Within K y := fun z hz => h z (.head ⟨l, hchild⟩ hz)

theorem within_of_children (hx : K x)
    (h : ∀ y, (∃ l, (A.children x).childAt l = .ok y) → A.Within K y) : A.Within K x := by
  intro z hz
  rcases hz.cases_head with rfl | ⟨y, hy, hz⟩
  · exact hx
  · exact h y hy z hz

end Adapter

/-! ## What is shared -/

/-- There was an edit at a place below this one. -/
def EditedBelow (notes : List (Note N D)) (path : List Location) : Prop :=
  ∃ n ∈ notes, n.edits ≠ [] ∧ path <:+ n.path ∧ n.path ≠ path

/-- What a tree and the result of its transform have in common, by the callbacks that were
made and the copies in the ledger. -/
structure Shares (A : Adapter N) (run : Nat) (root tree : N) (notes : List (Note N D))
    (ledger : List (Rebuild N)) : Prop where
  /-- At each place there is one copy at most. -/
  once : (ledger.map Rebuild.site).Nodup
  /-- Copies are made where there was an edit below, of the node as it was entered. -/
  copies : ∀ entry, entry ∈ ledger ↔ ∃ e ∈ notes, e.sight.frame.phase = .enter
    ∧ EditedBelow notes e.path ∧ entry = ⟨(Site.ofRun run).below e.path, e.outcome.1⟩
  /-- A node of the result was there before, was brought in, or is a copy. -/
  origins : ∀ y, A.Occurs y tree → A.Occurs y root
    ∨ (∃ n ∈ notes, ∃ kind, ∃ x ∈ n.supplied kind, A.Occurs y x)
    ∨ ∃ entry ∈ ledger, ∃ c, y = A.rebuild entry.site entry.node c
  /-- A node without edits at its place and below it stays, unless one above it was deleted or
  changed when it was left. -/
  stays : ∀ n ∈ notes, (∀ m ∈ notes, n.path <:+ m.path → m.edits = []) →
    (∀ m ∈ notes, m.path <:+ n.path → m.path ≠ n.path → m.sight.frame.phase = .leave →
      .delete ∉ m.edits ∧ ∀ x, .change x ∉ m.edits) →
    A.Occurs n.sight.frame.node tree
  /-- Without edits the root itself is the result. -/
  untouched : (∀ n ∈ notes, n.edits = []) → tree = root

/-! ## Edits that leave a node in its place -/

namespace Note

variable {n : Note N D} {above : List (Frame N D)} {rootData : D} {t t' : Task N D}

/-- Insertions leave the node as it is. -/
theorem outcome_of_stays (hdelete : .delete ∉ n.edits) (hchange : ∀ x, .change x ∉ n.edits) :
    n.outcome = (n.sight.frame.node, n.sight.frame.deleted) := by
  have hfold : ∀ (edits : List (Edit N)) (s : N × Bool), .delete ∉ edits →
      (∀ x, .change x ∉ edits) → edits.foldl (fun s e => e.outcome s.1 s.2) s = s := by
    intro edits
    induction edits with
    | nil => exact fun s _ _ => rfl
    | cons e edits ih =>
      intro s hdelete hchange
      have hstep : e.outcome s.1 s.2 = s := by
        cases e with
        | change x => exact absurd List.mem_cons_self (hchange x)
        | delete => exact absurd List.mem_cons_self hdelete
        | insertBefore _ => rfl
        | insertAfter _ => rfl
      rw [List.foldl_cons, hstep]
      exact ih s (fun h => hdelete (List.mem_cons_of_mem _ h)) fun x h =>
        hchange x (List.mem_cons_of_mem _ h)
  exact hfold n.edits _ hdelete hchange

theorem Makes.stays (h : n.Makes above rootData t t') (hdelete : .delete ∉ n.edits)
    (hchange : ∀ x, .change x ∉ n.edits) :
    t'.frame.node = t.frame.node ∧ t'.frame.deleted = t.frame.deleted := by
  have houtcome := h.outcome.symm.trans (outcome_of_stays hdelete hchange)
  rw [h.sight] at houtcome
  exact Prod.mk.inj houtcome

end Note

/-! ## Where the nodes of a task come from -/

theorem Note.mem_supplied {n : Note N D} {e : Edit N} {kind : EditKind} {x : N} (he : e ∈ n.edits)
    (hkind : e.toKind = some (kind, x)) : x ∈ n.supplied kind :=
  List.mem_filterMap.2 ⟨(kind, x), List.mem_filterMap.2 ⟨e, he, hkind⟩, if_pos rfl⟩

namespace Task

variable {A : Adapter N} {K : N → Prop} {t t' : Task N D} {isRoot : Bool} {e : Edit N}

/-- The node of the task, and whatever its edits put in a place, is of one kind. -/
structure Drawn (A : Adapter N) (K : N → Prop) (t : Task N D) : Prop where
  node : A.Within K t.frame.node
  edits : ∀ e ∈ t.edits, e.1 ≠ .delete → A.Within K e.2

/-- Only the node and the edits count. -/
theorem Drawn.congr (h : t.Drawn A K) (hnode : t'.frame.node = t.frame.node)
    (hedits : t'.edits = t.edits) : t'.Drawn A K :=
  ⟨hnode ▸ h.node, hedits ▸ h.edits⟩

theorem Drawn.replace (h : t.Drawn A K) {node : N} (hnode : A.Within K node) :
    (t.replace node).Drawn A K where
  node := hnode
  edits := fun e he hdelete => by
    rcases mem_putReplacement he with rfl | he
    · exact hnode
    · exact h.edits e he hdelete

theorem Drawn.takes (h : t.Drawn A K) (he : t.Takes isRoot e t')
    (hsupplied : ∀ kind x, e.toKind = some (kind, x) → A.Within K x) : t'.Drawn A K := by
  have hinsert : ∀ {kind : EditKind} {node : N}, A.Within K node →
      ({ t with edits := t.edits ++ [(kind, node)] } : Task N D).Drawn A K := by
    intro kind node hnode
    refine ⟨h.node, List.forall_mem_append.2 ⟨h.edits, ?_⟩⟩
    exact List.forall_mem_singleton.2 fun _ => hnode
  cases he with
  | @change node _ => exact (h.replace (hsupplied _ node rfl)).congr rfl rfl
  | delete _ _ _ =>
    exact ⟨h.node, List.forall_mem_singleton.2 fun hdelete => absurd rfl hdelete⟩
  | @insertBefore node _ _ => exact hinsert (hsupplied _ node rfl)
  | @insertAfter node _ _ => exact hinsert (hsupplied _ node rfl)

theorem Drawn.editAll {edits : List (Edit N)} (h : t.Drawn A K)
    (hedits : t.editAll isRoot edits = .ok t')
    (hsupplied : ∀ e ∈ edits, ∀ kind x, e.toKind = some (kind, x) → A.Within K x) :
    t'.Drawn A K := by
  induction edits generalizing t with
  | nil =>
    obtain rfl := Except.ok.inj hedits
    exact h
  | cons e edits ih =>
    obtain ⟨t₁, htakes, hrest⟩ := exists_takes_of_editAll_cons hedits
    rw [List.forall_mem_cons] at hsupplied
    exact ih (h.takes htakes hsupplied.1) hrest hsupplied.2

theorem Drawn.toChildEdits (h : t.Drawn A K) :
    ∀ e ∈ t.toChildEdits, e.kind ≠ .delete → A.Within K e.node := by
  intro e he hdelete
  unfold Task.toChildEdits at he
  split at he
  · exact absurd he List.not_mem_nil
  · obtain ⟨d, hd, rfl⟩ := List.mem_map.1 he
    exact h.edits d hd hdelete

/-- What is merged comes from the node's children and from what they hand over. -/
theorem Drawn.merge (h : t.Drawn A K) (hA : A.Lawful) (site : Site) {handed : List (ChildEdit N)}
    (hhanded : ∀ e ∈ handed, e.kind ≠ .delete → A.Within K e.node)
    (hcopy : handed ≠ [] → ∀ c, K (A.rebuild site t.frame.node c)) :
    (t.merge A site handed).Drawn A K := by
  by_cases hne : handed = []
  · rw [hne, merge_nil]
    exact h
  rw [merge_of_ne_nil A site t hne]
  refine h.replace (Adapter.within_of_children (hcopy hne _) fun y hy => ?_)
  rw [hA.children_rebuild, NamedChildren.exists_childAt_spread_iff] at hy
  obtain ⟨k, hk, hy⟩ := hy
  have hkept : A.Within K k.2 := h.node.child ((NamedChildren.mem_locations_iff _ _ _).1 hk)
  have hgiven : ∀ kind, kind ≠ .delete → ∀ x ∈ ChildEdit.nodesAt handed k.1 kind,
      A.Within K x := by
    intro kind hkind x hx
    obtain ⟨e, he, hx⟩ := List.mem_filterMap.1 hx
    split at hx
    · rename_i hplace
      rw [← Option.some.inj hx]
      exact hhanded e he (hplace.2 ▸ hkind)
    · cases hx
  rcases List.mem_append.1 hy with hy | hy
  · rcases List.mem_append.1 hy with hy | hy
    · exact hgiven .insertBefore (by simp) y hy
    · unfold ChildEdit.center at hy
      split at hy
      · rw [List.mem_singleton.1 hy]
        cases hlast : (ChildEdit.nodesAt handed k.1 .replace).getLast? with
        | none => exact hkept
        | some x => exact hgiven .replace (by simp) x (List.mem_of_getLast? hlast)
      · exact absurd hy List.not_mem_nil
  · exact hgiven .insertAfter (by simp) y hy

end Task

theorem Note.Makes.drawn {n : Note N D} {above : List (Frame N D)} {rootData : D}
    {t t' : Task N D} {A : Adapter N} {K : N → Prop} (h : n.Makes above rootData t t')
    (ht : t.Drawn A K) (hsupplied : ∀ kind, ∀ x ∈ n.supplied kind, A.Within K x) :
    t'.Drawn A K := by
  obtain ⟨t₁, data, hedits, rfl⟩ := h.edits
  have hdrawn := ht.editAll hedits fun e he kind x hkind =>
    hsupplied kind x (Note.mem_supplied he hkind)
  exact hdrawn.congr rfl rfl

/-! ## Callbacks below one child -/

namespace Account

variable {A : Adapter N} {run : Nat} {fresh rootData : D} {above : List (Frame N D)}
  {f : Frame N D} {going : Bool} {t opened : Task N D} {notes : List (Note N D)}
  {ledger : List (Rebuild N)} {enter leave n : Note N D} {branches : List (Branch N D)}
  {b : Branch N D} {q : List Location}

/-- The callbacks of a child are among those of its parent. -/
theorem mem_around (enter leave : Note N D) (hb : b ∈ branches) (hn : n ∈ b.notes) :
    n ∈ enter :: branches.flatMap Branch.notes ++ [leave] :=
  List.mem_append_left _ (List.mem_cons_of_mem _ (List.mem_flatMap.2 ⟨b, hb, hn⟩))

/-- Callbacks around those of the children, or of one of them. -/
theorem mem_around_iff : n ∈ enter :: branches.flatMap Branch.notes ++ [leave]
    ↔ n = enter ∨ (∃ b ∈ branches, n ∈ b.notes) ∨ n = leave := by
  simp only [List.cons_append, List.mem_cons, List.mem_append, List.mem_flatMap, List.not_mem_nil,
    or_false]

section Around

variable (enters : enter.Makes above rootData (.ofFrame f) opened)
  (leaves : leave.Makes above rootData (ForkJoin.inPhase .leave
    (opened.merge A ((Site.ofRun run).below (f.path above)) (handedOver branches))) t)
  (hbranches : Branches (f.path above) branches)

include enters leaves hbranches

/-- A callback at a place below a child is one of the child's. -/
theorem mem_notes_of_suffix (hb : b ∈ branches)
    (hn : n ∈ enter :: branches.flatMap Branch.notes ++ [leave])
    (hsuffix : (b.location :: f.path above) <:+ n.path) : n ∈ b.notes := by
  have hcalls : n ∈ callsAt (enter :: branches.flatMap Branch.notes ++ [leave]) n.path :=
    List.mem_filter.2 ⟨hn, decide_eq_true rfl⟩
  rw [callsAt_append, calls_below enters hbranches hb hsuffix, callsAt_singleton,
    leave_path enters leaves, if_neg (ne_of_cons_suffix hsuffix), List.append_nil] at hcalls
  exact (List.mem_filter.1 hcalls).1

/-- Edits below a callback of a child are edits of the child. -/
theorem editedBelow_iff_of_mem (hb : b ∈ branches) (hn : n ∈ b.notes) :
    EditedBelow (enter :: branches.flatMap Branch.notes ++ [leave]) n.path
      ↔ EditedBelow b.notes n.path := by
  constructor
  · rintro ⟨m, hm, hedits, hsuffix, hne⟩
    exact ⟨m, mem_notes_of_suffix enters leaves hbranches hb hm
      ((hbranches.suffix b hb n hn).trans hsuffix), hedits, hsuffix, hne⟩
  · rintro ⟨m, hm, hedits, hsuffix, hne⟩
    exact ⟨m, mem_around enter leave hb hm, hedits, hsuffix, hne⟩

/-- There are edits below the node if one of its children has some. -/
theorem editedBelow_self_iff :
    EditedBelow (enter :: branches.flatMap Branch.notes ++ [leave]) (f.path above)
      ↔ ∃ b ∈ branches, ∃ m ∈ b.notes, m.edits ≠ [] := by
  have henter : enter.path = f.path above := enters.path f rfl
  have hleave : leave.path = f.path above := leave_path enters leaves
  constructor
  · rintro ⟨m, hm, hedits, -, hne⟩
    rcases mem_around_iff.1 hm with rfl | ⟨b, hb, hm⟩ | rfl
    · exact absurd henter hne
    · exact ⟨b, hb, m, hm, hedits⟩
    · exact absurd hleave hne
  · rintro ⟨b, hb, m, hm, hedits⟩
    have hsuffix := hbranches.suffix b hb m hm
    exact ⟨m, mem_around enter leave hb hm, hedits, (List.suffix_cons _ _).trans hsuffix,
      (ne_of_cons_suffix hsuffix).symm⟩

end Around

/-! ## The copies -/

/-- Copies are made where there was an edit below. -/
theorem mem_ledger_iff (h : Account A run fresh rootData above f going t notes ledger)
    (hgoing : going = true) (hf : f.Unvisited) (entry : Rebuild N) :
    entry ∈ ledger ↔ ∃ e ∈ notes, e.sight.frame.phase = .enter ∧ EditedBelow notes e.path
      ∧ entry = ⟨(Site.ofRun run).below e.path, e.outcome.1⟩ := by
  induction h with
  | @alone above f _ _ _ _ note _ calls =>
    refine ⟨fun h => absurd h List.not_mem_nil, ?_⟩
    rintro ⟨e, he, -, ⟨n, hn, -, -, hne⟩, -⟩
    rw [List.mem_singleton.1 he, List.mem_singleton.1 hn] at hne
    exact absurd rfl hne
  | @around above f _ opened t enter leave branches enters kids goes below leaves ih =>
    have hbranches := branching_all enters kids below
    have henter : enter.path = f.path above := enters.path f rfl
    have hhanded : handedOver branches ≠ [] ↔ ∃ b ∈ branches, ∃ m ∈ b.notes, m.edits ≠ [] := by
      rw [Ne, handedOver_eq_nil_iff goes below]
      simp only [not_forall, exists_prop]
      refine exists_congr fun b => and_congr_right fun hb => ?_
      rw [(below b hb).edits_eq_nil_iff (goes b hb)]
      simp only [not_forall, exists_prop]
    have hown : entry ∈ opened.copies ((Site.ofRun run).below (f.path above)) (handedOver branches)
        ↔ EditedBelow (enter :: branches.flatMap Branch.notes ++ [leave]) enter.path
          ∧ entry = ⟨(Site.ofRun run).below enter.path, enter.outcome.1⟩ := by
      rw [henter, editedBelow_self_iff enters leaves hbranches, ← hhanded, enters.outcome]
      by_cases hne : handedOver branches = []
      · simp [hne, Task.copies]
      · simp [hne, Task.copies_of_ne_nil]
    rw [List.mem_append, hown, List.mem_flatMap]
    constructor
    · rintro (⟨b, hb, hentry⟩ | ⟨hedited, rfl⟩)
      · obtain ⟨e, he, hphase, hedited, rfl⟩ := (ih b hb (goes b hb) ⟨rfl, rfl, rfl⟩).1 hentry
        exact ⟨e, mem_around enter leave hb he, hphase,
          (editedBelow_iff_of_mem enters leaves hbranches hb he).2 hedited, rfl⟩
      · exact ⟨enter, by simp, by rw [enters.sight]; exact hf.phase, hedited, rfl⟩
    · rintro ⟨e, he, hphase, hedited, rfl⟩
      rcases mem_around_iff.1 he with rfl | ⟨b, hb, he⟩ | rfl
      · exact .inr ⟨hedited, rfl⟩
      · refine .inl ⟨b, hb, (ih b hb (goes b hb) ⟨rfl, rfl, rfl⟩).2 ⟨e, he, hphase, ?_, rfl⟩⟩
        exact (editedBelow_iff_of_mem enters leaves hbranches hb he).1 hedited
      · rw [leaves.sight] at hphase
        cases hphase
  | cut _ _ _ => cases hgoing

/-- A copy is made at a place at the node or below it. -/
theorem exists_site (h : Account A run fresh rootData above f true t notes ledger)
    (hf : f.Unvisited) {entry : Rebuild N} (hentry : entry ∈ ledger) :
    ∃ q, f.path above <:+ q ∧ entry.site = (Site.ofRun run).below q := by
  obtain ⟨e, he, -, -, rfl⟩ := (h.mem_ledger_iff rfl hf entry).1 hentry
  exact ⟨e.path, h.suffix e he, rfl⟩

/-- At each place there is one copy at most. -/
theorem nodup_sites (h : Account A run fresh rootData above f going t notes ledger)
    (hgoing : going = true) (hf : f.Unvisited) : (ledger.map Rebuild.site).Nodup := by
  induction h with
  | alone _ _ => exact .nil
  | @around above f _ opened t enter leave branches enters kids goes below leaves ih =>
    have hlocation : opened.frame.location = f.location := enters.location
    have hsite : ∀ b ∈ branches, ∀ s ∈ b.ledger.map Rebuild.site,
        ∃ q, (b.location :: f.path above) <:+ q ∧ s = (Site.ofRun run).below q := by
      intro b hb s hs
      obtain ⟨entry, hentry, rfl⟩ := List.mem_map.1 hs
      have hbelow := (goes b hb ▸ below b hb).exists_site ⟨rfl, rfl, rfl⟩ hentry
      rwa [Frame.path_child hlocation] at hbelow
    rw [List.map_append, List.map_flatMap, List.nodup_append]
    refine ⟨List.nodup_flatMap.2 ⟨fun b hb => ih b hb (goes b hb) ⟨rfl, rfl, rfl⟩, ?_⟩, ?_, ?_⟩
    · have hnodup := List.pairwise_map.1
        (branching_all enters kids below).nodup
      refine hnodup.imp_of_mem fun {b c} hb hc hne s hs hs' => hne ?_
      obtain ⟨q, hq, rfl⟩ := hsite b hb s hs
      obtain ⟨q', hq', hsame⟩ := hsite c hc _ hs'
      exact eq_of_suffix hq (Zipper.below_inj hsame ▸ hq')
    · unfold Task.copies
      split <;> simp
    · rintro s hs s' hs' rfl
      obtain ⟨b, hb, hs⟩ := List.mem_flatMap.1 hs
      obtain ⟨q, hq, rfl⟩ := hsite b hb s hs
      unfold Task.copies at hs'
      split at hs'
      · exact absurd hs' List.not_mem_nil
      · rw [List.map_singleton, List.mem_singleton] at hs'
        exact ne_of_cons_suffix hq (Zipper.below_inj hs').symm
  | cut _ _ _ => cases hgoing

/-! ## Where nodes come from -/

/-- The nodes of a task are of one kind if those of the tree are, those brought in, and the
copies. -/
theorem drawn (h : Account A run fresh rootData above f going t notes ledger)
    (hgoing : going = true) (hA : A.Lawful) {K : N → Prop} (hnode : A.Within K f.node)
    (hsupplied : ∀ n ∈ notes, ∀ kind, ∀ x ∈ n.supplied kind, A.Within K x)
    (hcopy : ∀ entry ∈ ledger, ∀ c, K (A.rebuild entry.site entry.node c)) : t.Drawn A K := by
  have hfound : ∀ {g : Frame N D}, A.Within K g.node → (Task.ofFrame g).Drawn A K :=
    fun hg => ⟨hg, fun e he => absurd he List.not_mem_nil⟩
  induction h with
  | alone _ calls => exact calls.drawn (hfound hnode) (hsupplied _ (by simp))
  | @around above f _ opened t enter leave branches enters kids goes below leaves ih =>
    have hopened := enters.drawn (hfound hnode) (hsupplied _ (by simp))
    have hdrawn : ∀ b ∈ branches, b.task.Drawn A K := by
      intro b hb
      have hkid : (b.location, b.node) ∈ Editor.kidsOf A opened := kids ▸ List.mem_map_of_mem hb
      exact ih b hb (goes b hb) (hopened.node.child ((Editor.mem_kidsOf_iff A opened _ _).1 hkid).2)
        (fun n hn => hsupplied n (mem_around enter leave hb hn))
        fun entry hentry => hcopy entry
          (List.mem_append_left _ (List.mem_flatMap.2 ⟨b, hb, hentry⟩))
    have hhanded : ∀ e ∈ handedOver branches, e.kind ≠ .delete → A.Within K e.node := by
      intro e he hdelete
      obtain ⟨b, hb, he⟩ := List.mem_flatMap.1 he
      exact (hdrawn b hb).toChildEdits e he hdelete
    have hcopied : handedOver branches ≠ [] → ∀ c,
        K (A.rebuild ((Site.ofRun run).below (f.path above)) opened.frame.node c) := by
      intro hne
      refine hcopy ⟨_, opened.frame.node⟩ (List.mem_append_right _ ?_)
      rw [Task.copies_of_ne_nil _ _ hne]
      exact List.mem_singleton_self _
    have hmerged := hopened.merge hA _ hhanded hcopied
    have hleaving : (ForkJoin.inPhase .leave (opened.merge A
        ((Site.ofRun run).below (f.path above)) (handedOver branches))).Drawn A K :=
      hmerged.congr rfl rfl
    exact leaves.drawn hleaving (hsupplied _ (by simp))
  | cut _ _ _ => cases hgoing

/-! ## What stays -/

/-- A task without edits still has the node that was reached. -/
theorem node_of_edits_nil (h : Account A run fresh rootData above f true t notes ledger)
    (hf : f.Unvisited) (hedits : t.edits = []) :
    t.frame.deleted = false ∧ t.frame.node = f.reached := by
  obtain ⟨before, after, hstands, -⟩ := h.stands hf
  cases hstands with
  | gone _ hone => simp [hedits] at hone
  | @there _ _ new holds node =>
    have hnone := holds.kinds .replace
    rw [hedits] at hnone
    cases new with
    | none => exact ⟨holds.stays, node.trans h.place.2⟩
    | some x => cases hnone

/-- A child that was not deleted is a child of what is merged. -/
theorem exists_childAt_merge (hA : A.Lawful)
    (enters : enter.Makes above rootData (.ofFrame f) opened)
    (kids : branches.map Branch.located = Editor.kidsOf A opened)
    (goes : ∀ b ∈ branches, b.going = true)
    (below : ∀ b ∈ branches, Account A run fresh rootData (opened.frame :: above)
      (opened.frame.child b.location b.node fresh) b.going b.task b.notes b.ledger)
    (hb : b ∈ branches) (hthere : b.task.frame.deleted = false) :
    opened.frame.deleted = false ∧ ∃ l, (A.children (opened.merge A
        ((Site.ofRun run).below (f.path above)) (handedOver branches)).frame.node).childAt l
      = .ok b.task.frame.node := by
  have hkid : (b.location, b.node) ∈ Editor.kidsOf A opened := kids ▸ List.mem_map_of_mem hb
  have hopen := ((Editor.mem_kidsOf_iff A opened _ _).1 hkid).1
  refine ⟨hopen, ?_⟩
  rw [Editor.kidsOf_of_open A hopen] at hkid
  rw [Task.children_merge hA, NamedChildren.exists_childAt_spread_iff]
  refine ⟨_, hkid, ?_⟩
  have hbranches := branching_all enters kids below
  obtain ⟨before, after, -, hstanding⟩ := (goes b hb ▸ below b hb).stands ⟨rfl, rfl, rfl⟩
  have hlocation : opened.frame.location = f.location := enters.location
  rw [Frame.path_child hlocation] at hstanding
  rw [slot_eq enters kids goes below hb, calls_below enters hbranches hb (List.suffix_refl _),
    hstanding, hthere]
  simp

/-- A node without edits at its place and below it stays, unless one above it gives way. -/
theorem occurs_of_untouched (h : Account A run fresh rootData above f going t notes ledger)
    (hgoing : going = true) (hA : A.Lawful) (hf : f.Unvisited) (hn : n ∈ notes)
    (hbelow : ∀ m ∈ notes, n.path <:+ m.path → m.edits = [])
    (habove : ∀ m ∈ notes, m.path <:+ n.path → m.path ≠ n.path → m.sight.frame.phase = .leave →
      .delete ∉ m.edits ∧ ∀ x, .change x ∉ m.edits) :
    t.frame.deleted = false ∧ A.Occurs n.sight.frame.node t.frame.node := by
  induction h with
  | @alone above f _ _ _ t note _ calls =>
    obtain rfl := List.mem_singleton.1 hn
    have hedits := hbelow n hn (List.suffix_refl _)
    obtain ⟨hnode, hdeleted⟩ := calls.stays (by simp [hedits]) (by simp [hedits])
    refine ⟨hdeleted.trans hf.deleted, ?_⟩
    rw [hnode, calls.sight]
    exact .refl
  | @around above f _ opened t enter leave branches enters kids goes below leaves ih =>
    have hbranches := branching_all enters kids below
    have henter : enter.path = f.path above := enters.path f rfl
    have hleave : leave.path = f.path above := leave_path enters leaves
    have haccount : Account A run fresh rootData above f true t
      (enter :: branches.flatMap Branch.notes ++ [leave]) _ := .around enters kids goes below leaves
    have hself : n.path = f.path above → t.frame.deleted = false ∧ t.frame.node = f.reached := by
      intro hpath
      refine haccount.node_of_edits_nil hf ((haccount.edits_eq_nil_iff rfl).2 fun m hm => ?_)
      exact hbelow m hm (hpath ▸ haccount.suffix m hm)
    rcases mem_around_iff.1 hn with rfl | ⟨b, hb, hn⟩ | rfl
    · obtain ⟨hthere, hnode⟩ := hself henter
      refine ⟨hthere, ?_⟩
      rw [hnode, enters.sight, ← hf.node]
      exact .refl
    · have hsuffix := hbranches.suffix b hb n hn
      have hmem : ∀ m ∈ b.notes, m ∈ enter :: branches.flatMap Branch.notes ++ [leave] :=
        fun _ hm => mem_around enter leave hb hm
      obtain ⟨hkept, hoccurs⟩ := ih b hb (goes b hb) ⟨rfl, rfl, rfl⟩ hn
        (fun m hm => hbelow m (hmem m hm)) fun m hm => habove m (hmem m hm)
      obtain ⟨hopen, l, hl⟩ := exists_childAt_merge hA enters kids goes below hb hkept
      -- The node that was left is the merged one, so the child is still below it.
      obtain ⟨hdelete, hchange⟩ := habove leave (by simp)
        (hleave ▸ (List.suffix_cons _ _).trans hsuffix) (hleave ▸ ne_of_cons_suffix hsuffix)
        (by rw [leaves.sight]; rfl)
      obtain ⟨hnode, hdeleted⟩ := leaves.stays hdelete hchange
      refine ⟨hdeleted.trans ((opened.deleted_merge A _ _).trans hopen), ?_⟩
      rw [hnode]
      exact .head ⟨l, hl⟩ hoccurs
    · have hedits := hbelow n (by simp) (List.suffix_refl _)
      refine ⟨(hself hleave).1, ?_⟩
      rw [(leaves.stays (by simp [hedits]) (by simp [hedits])).1, leaves.sight]
      exact .refl
  | cut _ _ _ => cases hgoing

/-- The account of a tree tells what its result shares with it. -/
theorem shares {root : N} (h : Account A run fresh rootData [] (.root root fresh) true t notes ledger)
    (hA : A.Lawful) : Shares A run root t.frame.node notes ledger where
  once := h.nodup_sites rfl ⟨rfl, rfl, rfl⟩
  copies := h.mem_ledger_iff rfl ⟨rfl, rfl, rfl⟩
  origins := by
    have hdrawn := h.drawn rfl hA (K := fun y => A.Occurs y root
      ∨ (∃ n ∈ notes, ∃ kind, ∃ x ∈ n.supplied kind, A.Occurs y x)
      ∨ ∃ entry ∈ ledger, ∃ c, y = A.rebuild entry.site entry.node c)
      (fun y hy => .inl hy) (fun n hn kind x hx y hy => .inr (.inl ⟨n, hn, kind, x, hx, hy⟩))
      fun entry hentry c => .inr (.inr ⟨entry, hentry, c, rfl⟩)
    exact hdrawn.node
  stays := fun n hn hbelow habove =>
    (h.occurs_of_untouched rfl hA ⟨rfl, rfl, rfl⟩ hn hbelow habove).2
  untouched := fun hall =>
    (h.node_of_edits_nil ⟨rfl, rfl, rfl⟩ ((h.edits_eq_nil_iff rfl).2 hall)).2

end Account

/-! ## Whole transforms -/

/-- A transform makes no copy that it does not need, and shares the rest.  This goes for every
visitor that edits and does not quit, whatever its callbacks answer, be they called one after
the other or by a worker for every node. -/
theorem transforms_share_the_untouched [Identified N] {A : Adapter N} (hA : A.Lawful) (run : Nat)
    (fresh rootData : D) (root : N) :
    (∀ v : Editor N D S, v.NeverQuits → ∀ (state : S) (limit : Nat) (out : Transformed N S),
      (v.transform A run fresh rootData).apply limit root state = .done out →
      ∃ notes, (v.journaled.transform A run fresh rootData).apply limit root ([], state)
          = .done ⟨out.tree, (notes, out.state), out.ledger⟩
        ∧ Shares A run root out.tree notes out.ledger)
    ∧ ∀ v : TaskVisitor N D, v.NeverQuits → ∀ (levels : Nat) (w : Visit N D),
      (ForkJoin.transforming A v run fresh rootData).walk levels root = .done w →
      Shares A run root w.tree (w.calls.map v.note) w.ledger := by
  constructor
  · intro v hv state limit out hout
    obtain ⟨t, notes, hjournaled, haccount, htree, -⟩ := Editor.exists_account_of_apply hv hout
    exact ⟨notes, hjournaled, htree ▸ haccount.shares hA⟩
  · intro v hv levels w hw
    have haccount : Account A run fresh rootData [] (.root root fresh) true w.task
        (w.calls.map v.note) w.ledger := ForkJoin.account_visit hv levels ⟨rfl, rfl, rfl⟩ hw
    exact haccount.shares hA

theorem edited_hedges_share :
    (∃ (out : Transformed Tree Unit) (notes : List (Note Tree Unit)),
      (Editor.grooming.transform Tree.adapter 0 () ()).apply 20 Tree.hedge () = .done out
      ∧ out.tree.render = "a(b(e,x),c())" ∧ out.ledger.length = 3
      ∧ Shares Tree.adapter 0 Tree.hedge out.tree notes out.ledger)
    ∧ ∃ w, (ForkJoin.transforming Tree.adapter TaskVisitor.pruning 0 () ()).walk 4 Tree.hedge
        = .done w ∧ w.tree.render = "a(b(e),c())"
      ∧ Shares Tree.adapter 0 Tree.hedge w.tree (w.calls.map TaskVisitor.pruning.note) w.ledger := by
  obtain ⟨hsequence, hparallel⟩ := transforms_share_the_untouched (S := Unit) Tree.adapter_lawful 0
    () () Tree.hedge
  constructor
  · have happly : (fun r => (r.tree.render, r.ledger.length)) <$>
        (Editor.grooming.transform Tree.adapter 0 () ()).apply 20 Tree.hedge ()
          = .done ("a(b(e,x),c())", 3) := by cbv
    obtain ⟨out, hout, hresult⟩ := (Run.map_eq_done_iff _ _ _).1 happly
    obtain ⟨hrender, hlength⟩ := Prod.mk.inj hresult
    obtain ⟨notes, -, hshares⟩ := hsequence _ Editor.grooming_neverQuits () 20 out hout
    exact ⟨out, notes, hout, hrender, hlength, hshares⟩
  · have hwalk : (fun w => w.tree.render) <$>
        (ForkJoin.transforming Tree.adapter TaskVisitor.pruning 0 () ()).walk 4 Tree.hedge
          = .done "a(b(e),c())" := by cbv
    obtain ⟨w, hw, hrender⟩ := (Run.map_eq_done_iff _ _ _).1 hwalk
    exact ⟨w, hw, hrender, hparallel _ TaskVisitor.pruning_neverQuits 4 w hw⟩

end Topiary
