/-
Topiary.Proofs.Transform.Account — what has happened at a node and below it.

An account of a node that was visited holds the callbacks made there and below,
in order, the copies made, and the task that came out.  It does not say how the
edits were kept in the meantime, so there is one for every transform, be its
nodes visited one after the other or by a worker each.

* `Account` — a node with everything below it, by what happened at the node itself.
* `Account.suffix` — callbacks below a node are at places below it.
* `Account.calls_entered`, `Account.calls_below` — the callbacks at the node, and those below one
  child.
* `Account.stands` — what the notes say of the node is what its task has.
* `Account.edits_eq_nil_iff` — a task without edits is one with nothing edited below it.
-/
import Topiary.Proofs.Transform.Notes
import Topiary.Proofs.Transform.Recursion

namespace Topiary

variable {N D : Type}

/-! ## Accounts -/

/-- The place of a frame below others, nearest step first. -/
def Frame.path (f : Frame N D) (above : List (Frame N D)) : List Location :=
  (Sight.crumbsBelow f above).map Breadcrumb.location

/-- A child in the account of its parent. -/
structure Branch (N D : Type) where
  location : Location
  node : N
  /-- The walk goes on after it. -/
  going : Bool
  task : Task N D
  notes : List (Note N D)
  ledger : List (Rebuild N)

/-- The place and the node that the parent has there. -/
def Branch.located (b : Branch N D) : Location × N := (b.location, b.node)

/-- What the children hand over. -/
def handedOver (branches : List (Branch N D)) : List (ChildEdit N) :=
  branches.flatMap fun b => b.task.toChildEdits

/-- What has happened at the node of a frame and below it: the walk goes on or has quit,
and leaves a task behind; these are the callbacks in order and the copies made. -/
inductive Account (A : Adapter N) (run : Nat) (fresh rootData : D) : (above : List (Frame N D)) →
    Frame N D → (going : Bool) → Task N D → List (Note N D) → List (Rebuild N) → Prop
  /-- A back reference, or a node whose children are left out. -/
  | alone {above : List (Frame N D)} {f : Frame N D} {going : Bool} {phase : Phase}
      {visited : Bool} {t : Task N D} {note : Note N D} (entering : phase ≠ .leave)
      (calls : note.Makes above rootData (.ofFrame { f with phase, visited }) t) :
      Account A run fresh rootData above f going t [note] []
  /-- A node that was entered and, after all of its children, left. -/
  | around {above : List (Frame N D)} {f : Frame N D} {going : Bool} {opened t : Task N D}
      {enter leave : Note N D} {branches : List (Branch N D)}
      (enters : enter.Makes above rootData (.ofFrame f) opened)
      (kids : branches.map Branch.located = Editor.kidsOf A opened)
      (goes : ∀ b ∈ branches, b.going = true)
      (below : ∀ b ∈ branches, Account A run fresh rootData (opened.frame :: above)
        (opened.frame.child b.location b.node fresh) b.going b.task b.notes b.ledger)
      (leaves : leave.Makes above rootData (ForkJoin.inPhase .leave
        (opened.merge A ((Site.ofRun run).below (f.path above)) (handedOver branches))) t) :
      Account A run fresh rootData above f going t
        (enter :: branches.flatMap Branch.notes ++ [leave])
        (branches.flatMap Branch.ledger
          ++ opened.copies ((Site.ofRun run).below (f.path above)) (handedOver branches))
  /-- A node below which the walk has quit. -/
  | cut {above : List (Frame N D)} {f : Frame N D} {opened t : Task N D} {enter : Note N D}
      {branches : List (Branch N D)} (enters : enter.Makes above rootData (.ofFrame f) opened)
      (kids : branches.map Branch.located <+: Editor.kidsOf A opened)
      (below : ∀ b ∈ branches, Account A run fresh rootData (opened.frame :: above)
        (opened.frame.child b.location b.node fresh) b.going b.task b.notes b.ledger) :
      Account A run fresh rootData above f false t (enter :: branches.flatMap Branch.notes)
        (branches.flatMap Branch.ledger)

/-! ## Places -/

namespace Frame

variable {f g : Frame N D} {above : List (Frame N D)}

/-- Of a frame its location counts only. -/
theorem path_congr (h : f.location = g.location) : f.path above = g.path above := by
  rw [path, Sight.crumbsBelow_congr h, path]

theorem path_child (hlocation : g.location = f.location) (l : Location) (node : N) (fresh : D) :
    (g.child l node fresh).path (g :: above) = l :: f.path above := by
  rw [← path_congr hlocation]
  rfl

end Frame

theorem Note.Makes.path {n : Note N D} {above : List (Frame N D)} {rootData : D} {t t' : Task N D}
    (h : n.Makes above rootData t t') (f : Frame N D) (hlocation : t.frame.location = f.location) :
    n.path = f.path above := by
  rw [Note.path, h.sight, ← Frame.path_congr hlocation]
  rfl

/-! ## The children of a node -/

/-- Children of one node, below the path to it, each with its callbacks. -/
structure Branches (path : List Location) (branches : List (Branch N D)) : Prop where
  nodup : (branches.map Branch.location).Nodup
  suffix : ∀ b ∈ branches, ∀ n ∈ b.notes, (b.location :: path) <:+ n.path

/-- Only one step leads down to a place. -/
theorem eq_of_suffix {l l' : Location} {path q : List Location} (h : (l :: path) <:+ q)
    (h' : (l' :: path) <:+ q) : l = l' := by
  have hsame : l :: path = l' :: path :=
    (List.suffix_of_suffix_length_le h h' (by simp)).eq_of_length (by simp)
  exact (List.cons.inj hsame).1

namespace Branches

variable {path q : List Location} {branches : List (Branch N D)} {b : Branch N D}

theorem cons_iff : Branches path (b :: branches) ↔ b.location ∉ branches.map Branch.location
    ∧ (∀ n ∈ b.notes, (b.location :: path) <:+ n.path) ∧ Branches path branches := by
  constructor
  · intro h
    have hnodup := h.nodup
    rw [List.map_cons, List.nodup_cons] at hnodup
    obtain ⟨hown, hrest⟩ := List.forall_mem_cons.1 h.suffix
    exact ⟨hnodup.1, hown, hnodup.2, hrest⟩
  · rintro ⟨hnew, hown, hrest⟩
    refine ⟨?_, List.forall_mem_cons.2 ⟨hown, hrest.suffix⟩⟩
    rw [List.map_cons]
    exact List.nodup_cons.2 ⟨hnew, hrest.nodup⟩

/-- Elsewhere the callbacks below a child count for nothing. -/
theorem callsAt_eq_nil (h : ∀ n ∈ b.notes, (b.location :: path) <:+ n.path)
    (hq : ¬ (b.location :: path) <:+ q) : callsAt b.notes q = [] := by
  refine List.filter_eq_nil_iff.2 fun n hn hpath => hq ?_
  rw [← of_decide_eq_true hpath]
  exact h n hn

/-- None of the callbacks below the children is at the node itself. -/
theorem calls_self (h : Branches path branches) :
    callsAt (branches.flatMap Branch.notes) path = [] := by
  refine List.filter_eq_nil_iff.2 fun n hn hpath => ?_
  obtain ⟨b, hb, hn⟩ := List.mem_flatMap.1 hn
  have hlength := (h.suffix b hb n hn).length_le
  rw [of_decide_eq_true hpath, List.length_cons] at hlength
  omega

/-- Those at a place below one child are the ones of that child. -/
theorem calls_below (h : Branches path branches) (hb : b ∈ branches)
    (hq : (b.location :: path) <:+ q) :
    callsAt (branches.flatMap Branch.notes) q = callsAt b.notes q := by
  induction branches with
  | nil => exact absurd hb List.not_mem_nil
  | cons c branches ih =>
    obtain ⟨hnew, hown, hrest⟩ := cons_iff.1 h
    rw [List.flatMap_cons, callsAt, List.filter_append]
    rcases List.mem_cons.1 hb with rfl | hb
    · have hothers : callsAt (branches.flatMap Branch.notes) q = [] := by
        refine List.filter_eq_nil_iff.2 fun n hn hpath => hnew ?_
        obtain ⟨d, hd, hn⟩ := List.mem_flatMap.1 hn
        have hsuffix := hrest.suffix d hd n hn
        rw [of_decide_eq_true hpath] at hsuffix
        rw [eq_of_suffix hq hsuffix]
        exact List.mem_map_of_mem hd
      rw [show List.filter _ (branches.flatMap Branch.notes) = [] from hothers, List.append_nil]
      rfl
    · have hfirst : callsAt c.notes q = [] := callsAt_eq_nil hown fun hc =>
        hnew (eq_of_suffix hc hq ▸ List.mem_map_of_mem hb)
      rw [show List.filter _ c.notes = [] from hfirst, List.nil_append]
      exact ih hrest hb

/-- What stands in the place of a child is its own edits alone. -/
theorem nodesAt_handedOver (h : (branches.map Branch.location).Nodup) (hb : b ∈ branches)
    (hlocation : ∀ c ∈ branches, c.task.frame.location = some c.location) (kind : EditKind) :
    ChildEdit.nodesAt (handedOver branches) b.location kind
      = Trail.nodesOf b.task.edits kind := by
  induction branches with
  | nil => exact absurd hb List.not_mem_nil
  | cons c branches ih =>
    rw [List.map_cons, List.nodup_cons] at h
    obtain ⟨hc, hrest⟩ := List.forall_mem_cons.1 hlocation
    have hhead : c.task.toChildEdits = Trail.handOver c.location c.task.edits := by
      simp [Task.toChildEdits, hc, Trail.handOver]
    rw [handedOver, List.flatMap_cons, ChildEdit.nodesAt_append, hhead, Trail.nodesAt_handOver]
    rcases List.mem_cons.1 hb with rfl | hb
    · have hothers : ChildEdit.nodesAt (handedOver branches) b.location kind = [] := by
        refine (ChildEdit.nodesAt_eq_nil_iff _ _ _).2 fun e he hel => absurd ?_ h.1
        obtain ⟨d, hd, he⟩ := List.mem_flatMap.1 he
        rw [← hel, Task.location_of_toChildEdits (hrest d hd) e he]
        exact List.mem_map_of_mem hd
      rw [if_pos rfl, show ChildEdit.nodesAt (branches.flatMap _) _ _ = [] from hothers,
        List.append_nil]
    · have hne : c.location ≠ b.location := fun heq => h.1 (heq ▸ List.mem_map_of_mem hb)
      rw [if_neg hne, List.nil_append]
      exact ih h.2 hb hrest

end Branches

/-! ## Merging -/

namespace Task

/-- A merge leaves an edit behind if there is anything to merge. -/
theorem merge_edits_eq_nil_iff (t : Task N D) (A : Adapter N) (site : Site)
    (handed : List (ChildEdit N)) :
    (t.merge A site handed).edits = [] ↔ t.edits = [] ∧ handed = [] := by
  by_cases hne : handed = []
  · simp [hne]
  · simp only [merge_of_ne_nil A site t hne, hne, and_false, iff_false]
    exact putReplacement_ne_nil _ _

/-- Each child gives way to what is put in its place, be there anything to merge or not. -/
theorem children_merge {A : Adapter N} (hA : A.Lawful) (t : Task N D) (site : Site)
    (handed : List (ChildEdit N)) :
    A.children (t.merge A site handed).frame.node
      = (A.children t.frame.node).spread (ChildEdit.slot handed) := by
  by_cases hne : handed = []
  · rw [hne, merge_nil]
    exact (NamedChildren.spread_singleton _).symm
  · rw [merge_of_ne_nil A site t hne]
    exact hA.children_rebuild _ _ _

end Task

/-! ## The node and its children -/

theorem callsAt_append (notes more : List (Note N D)) (q : List Location) :
    callsAt (notes ++ more) q = callsAt notes q ++ callsAt more q :=
  List.filter_append ..

theorem callsAt_singleton (n : Note N D) (q : List Location) :
    callsAt [n] q = if n.path = q then [n] else [] := by
  by_cases h : n.path = q <;> simp [callsAt, h]

theorem ne_of_cons_suffix {l : Location} {path q : List Location} (h : (l :: path) <:+ q) :
    path ≠ q := by
  rintro rfl
  have hlength := h.length_le
  rw [List.length_cons] at hlength
  omega

/-- The children that have an account are children of the node. -/
theorem nodup_locations {A : Adapter N} {t : Task N D} {branches : List (Branch N D)}
    (kids : branches.map Branch.located <+: Editor.kidsOf A t) :
    (branches.map Branch.location).Nodup := by
  have hprefix : branches.map Branch.location <+: (Editor.kidsOf A t).map Prod.fst := by
    have hmap := kids.map Prod.fst
    rwa [List.map_map] at hmap
  exact (Editor.nodup_kidsOf A t).sublist hprefix.sublist

namespace Account

variable {A : Adapter N} {run : Nat} {fresh rootData : D} {above : List (Frame N D)}
  {f : Frame N D} {going : Bool} {t opened : Task N D} {notes : List (Note N D)}
  {ledger : List (Rebuild N)} {enter leave : Note N D} {branches : List (Branch N D)}
  {b : Branch N D} {q : List Location}

/-- A task stays where it is. -/
theorem place (h : Account A run fresh rootData above f true t notes ledger) :
    t.frame.location = f.location ∧ t.frame.reached = f.reached := by
  cases h with
  | alone _ calls => exact ⟨calls.location, calls.reached⟩
  | @around _ _ _ opened _ _ _ branches enters _ _ _ leaves =>
    obtain ⟨hlocation, hreached⟩ := opened.place_merge A
      ((Site.ofRun run).below (f.path above)) (handedOver branches)
    exact ⟨leaves.location.trans (hlocation.trans enters.location),
      leaves.reached.trans (hreached.trans enters.reached)⟩

theorem leave_path (enters : enter.Makes above rootData (.ofFrame f) opened)
    (leaves : leave.Makes above rootData (ForkJoin.inPhase .leave
      (opened.merge A ((Site.ofRun run).below (f.path above)) (handedOver branches))) t) :
    leave.path = f.path above :=
  leaves.path f ((opened.place_merge A _ _).1.trans enters.location)

/-- Callbacks below a node are at places below it. -/
theorem suffix (h : Account A run fresh rootData above f going t notes ledger) :
    ∀ n ∈ notes, f.path above <:+ n.path := by
  have hbelow : ∀ {above : List (Frame N D)} {f : Frame N D} {opened : Task N D}
      {branches : List (Branch N D)}, opened.frame.location = f.location →
      (∀ b ∈ branches, ∀ n ∈ b.notes,
        (opened.frame.child b.location b.node fresh).path (opened.frame :: above) <:+ n.path) →
      ∀ n ∈ branches.flatMap Branch.notes, f.path above <:+ n.path := by
    intro above f opened branches hlocation h n hn
    obtain ⟨b, hb, hn⟩ := List.mem_flatMap.1 hn
    have hsuffix := h b hb n hn
    rw [Frame.path_child hlocation] at hsuffix
    exact (List.suffix_cons _ _).trans hsuffix
  induction h with
  | @alone above f _ _ _ _ note _ calls =>
    have hpath : note.path = f.path above := calls.path f rfl
    exact List.forall_mem_singleton.2 (by simp [hpath])
  | @around above f _ _ _ enter leave _ enters _ _ _ leaves ih =>
    have henter : enter.path = f.path above := enters.path f rfl
    have hleave : leave.path = f.path above := leave_path enters leaves
    exact List.forall_mem_append.2 ⟨List.forall_mem_cons.2 ⟨by simp [henter],
      hbelow enters.location ih⟩, List.forall_mem_singleton.2 (by simp [hleave])⟩
  | @cut above f _ _ enter _ enters _ _ ih =>
    have henter : enter.path = f.path above := enters.path f rfl
    exact List.forall_mem_cons.2 ⟨by simp [henter], hbelow enters.location ih⟩

/-- The children of a node that was entered. -/
theorem branching (enters : enter.Makes above rootData (.ofFrame f) opened)
    (kids : branches.map Branch.located <+: Editor.kidsOf A opened)
    (below : ∀ b ∈ branches, Account A run fresh rootData (opened.frame :: above)
      (opened.frame.child b.location b.node fresh) b.going b.task b.notes b.ledger) :
    Branches (f.path above) branches where
  nodup := nodup_locations kids
  suffix := fun b hb n hn => by
    have hlocation : opened.frame.location = f.location := enters.location
    rw [← Frame.path_child hlocation b.location b.node fresh]
    exact (below b hb).suffix n hn

theorem branching_all (enters : enter.Makes above rootData (.ofFrame f) opened)
    (kids : branches.map Branch.located = Editor.kidsOf A opened)
    (below : ∀ b ∈ branches, Account A run fresh rootData (opened.frame :: above)
      (opened.frame.child b.location b.node fresh) b.going b.task b.notes b.ledger) :
    Branches (f.path above) branches :=
  branching enters (kids ▸ List.prefix_refl _) below

section Around

variable (enters : enter.Makes above rootData (.ofFrame f) opened)
  (hbranches : Branches (f.path above) branches)

include enters hbranches

/-- Before a node is left it has one callback, -/
theorem calls_entered :
    callsAt (enter :: branches.flatMap Branch.notes) (f.path above) = [enter] := by
  rw [← List.singleton_append, callsAt_append, callsAt_singleton, if_pos (enters.path f rfl),
    hbranches.calls_self]
  rfl

/-- and those below a child are the child's. -/
theorem calls_below (hb : b ∈ branches) (hq : (b.location :: f.path above) <:+ q) :
    callsAt (enter :: branches.flatMap Branch.notes) q = callsAt b.notes q := by
  rw [← List.singleton_append, callsAt_append, callsAt_singleton, enters.path f rfl,
    if_neg (ne_of_cons_suffix hq), hbranches.calls_below hb hq, List.nil_append]

end Around

/-! ## What the notes tell -/

/-- The node as its last callback left it. -/
theorem remaining_calls (h : Account A run fresh rootData above f true t notes ledger) :
    remaining (callsAt notes (f.path above))
      = if t.frame.deleted then [] else [t.frame.node] := by
  cases h with
  | alone _ calls =>
    rw [callsAt_singleton, if_pos (calls.path f rfl)]
    simp [remaining, calls.outcome]
  | around enters kids _ below leaves =>
    rw [callsAt_append, calls_entered enters (branching_all enters kids below),
      callsAt_singleton, if_pos (leave_path enters leaves)]
    simp [remaining, leaves.outcome]

/-- The notes of a node say what its task puts in its place. -/
theorem stands (h : Account A run fresh rootData above f true t notes ledger)
    (hf : f.Unvisited) : ∃ before after, t.Stands before after
      ∧ standing (callsAt notes (f.path above))
        = before ++ (if t.frame.deleted then [] else [t.frame.node]) ++ after := by
  rw [standing, h.remaining_calls]
  cases h with
  | @alone _ _ _ phase visited _ note _ calls =>
    have hstands := calls.stands (Task.stands_ofFrame hf.deleted hf.node)
    rw [List.nil_append, List.nil_append] at hstands
    refine ⟨_, _, hstands, ?_⟩
    simp [callsAt_singleton, if_pos (calls.path f rfl)]
  | @around _ _ _ opened _ enter leave branches enters kids goes below leaves =>
    have hopened := enters.stands (Task.stands_ofFrame hf.deleted hf.node)
    have hmerged : (opened.merge A ((Site.ofRun run).below (f.path above))
        (handedOver branches)).Stands _ _ := hopened.merge A _ fun hd => by
      rw [Editor.kidsOf_of_deleted A hd] at kids
      rw [handedOver, List.map_eq_nil_iff.1 kids]
      rfl
    have hleaving : (ForkJoin.inPhase .leave (opened.merge A
        ((Site.ofRun run).below (f.path above)) (handedOver branches))).Stands _ _ :=
      hmerged.congr rfl rfl rfl rfl
    have hleft := leaves.stands hleaving
    rw [List.nil_append, List.nil_append] at hleft
    refine ⟨_, _, hleft, ?_⟩
    rw [callsAt_append, calls_entered enters (branching_all enters kids below),
      callsAt_singleton, if_pos (leave_path enters leaves)]
    simp

/-- What is handed over by children that have accounts. -/
theorem handedOver_eq_nil_iff (goes : ∀ b ∈ branches, b.going = true)
    (below : ∀ b ∈ branches, Account A run fresh rootData (opened.frame :: above)
      (opened.frame.child b.location b.node fresh) b.going b.task b.notes b.ledger) :
    handedOver branches = [] ↔ ∀ b ∈ branches, b.task.edits = [] := by
  rw [handedOver, List.flatMap_eq_nil_iff]
  refine forall₂_congr fun b hb => ?_
  have hlocation : b.task.frame.location = some b.location := (goes b hb ▸ below b hb).place.1
  simp [Task.toChildEdits, hlocation]

/-- A task without edits is one with nothing edited at its node or below it. -/
theorem edits_eq_nil_iff (h : Account A run fresh rootData above f going t notes ledger)
    (hgoing : going = true) : t.edits = [] ↔ ∀ n ∈ notes, n.edits = [] := by
  induction h with
  | alone _ calls =>
    rw [calls.edits_eq_nil_iff, List.forall_mem_singleton]
    exact and_iff_right rfl
  | @around above f _ opened t enter leave branches enters _ goes below leaves ih =>
    have hkids : (∀ b ∈ branches, b.task.edits = [])
        ↔ ∀ n ∈ branches.flatMap Branch.notes, n.edits = [] := by
      rw [forall₂_congr fun b hb => ih b hb (goes b hb)]
      simp only [List.mem_flatMap, forall_exists_index, and_imp]
      exact ⟨fun hall n b hb hn => hall b hb n hn, fun hall b hb n hn => hall n b hb hn⟩
    have hmerged := opened.merge_edits_eq_nil_iff A ((Site.ofRun run).below (f.path above))
      (handedOver branches)
    have hopened : opened.edits = [] ↔ enter.edits = [] :=
      enters.edits_eq_nil_iff.trans (and_iff_right rfl)
    have hleft : t.edits = [] ↔ (opened.merge A ((Site.ofRun run).below (f.path above))
        (handedOver branches)).edits = [] ∧ leave.edits = [] := leaves.edits_eq_nil_iff
    rw [hleft, hmerged, hopened, handedOver_eq_nil_iff goes below, hkids, List.cons_append,
      List.forall_mem_cons, List.forall_mem_append, List.forall_mem_singleton, and_assoc]
  | cut _ _ _ => cases hgoing

section Around

variable (enters : enter.Makes above rootData (.ofFrame f) opened)
  (kids : branches.map Branch.located = Editor.kidsOf A opened)
  (goes : ∀ b ∈ branches, b.going = true)
  (below : ∀ b ∈ branches, Account A run fresh rootData (opened.frame :: above)
    (opened.frame.child b.location b.node fresh) b.going b.task b.notes b.ledger)

include enters kids goes below

/-- In the place of a child the parent puts what the child's callbacks come to. -/
theorem slot_eq (hb : b ∈ branches) :
    ChildEdit.slot (handedOver branches) b.location b.node = standing (callsAt
      (enter :: branches.flatMap Branch.notes) (b.location :: f.path above)) := by
  have hbranches := branching_all enters kids below
  have haccount := goes b hb ▸ below b hb
  obtain ⟨before, after, hstands, hstanding⟩ := haccount.stands ⟨rfl, rfl, rfl⟩
  have hlocation : opened.frame.location = f.location := enters.location
  rw [Frame.path_child hlocation] at hstanding
  rw [calls_below enters hbranches hb (List.suffix_refl _), hstanding]
  have hslot := hstands.slot_eq fun kind => Branches.nodesAt_handedOver hbranches.nodup hb
    (fun c hc => (goes c hc ▸ below c hc).place.1) kind
  rw [haccount.place.2] at hslot
  exact hslot

/-- The children of a node that is left are what the callbacks of its children come to. -/
theorem children_merge (hA : A.Lawful) (hd : opened.frame.deleted = false) :
    A.children (opened.merge A ((Site.ofRun run).below (f.path above))
        (handedOver branches)).frame.node
      = (A.children opened.frame.node).spread fun l _ => standing (callsAt
          (enter :: branches.flatMap Branch.notes) (l :: f.path above)) := by
  rw [Task.children_merge hA]
  refine NamedChildren.spread_congr _ fun k hk => ?_
  have hmem : k ∈ branches.map Branch.located := by
    rw [kids, Editor.kidsOf_of_open A hd]
    exact hk
  obtain ⟨b, hb, rfl⟩ := List.mem_map.1 hmem
  exact slot_eq enters kids goes below hb

end Around

end Account

end Topiary
