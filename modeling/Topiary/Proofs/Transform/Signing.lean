/-
Topiary.Proofs.Transform.Signing — who has recorded which edit.

The edits of a transform are kept in one list for the whole walk, and nothing in
the list says which context an edit comes from.  Here each of them is signed with
the number of the context that recorded it: an edit that is added gets a new
signature, one that is overwritten gets that of the context that overwrites it, and
with the edits that are cut off their signatures go.

* `putSlot` — the one way in which the list of edits, and that of signatures, is
  written to.
* `Signed`, `Signed.act`, `Signed.fold` — a bench with its signatures.
* `Signed.Writes`, `Signed.exists_writes_of_act`, `Signed.exists_writes_of_fold` — what
  an act and the fold do to the list.
* `Transform.signing`, `Transform.signing_extends` — the walk that signs, and otherwise
  does the same.
* `Transform.Moment`, `Transform.exists_moment_of_answer` — a callback from edit to
  edit, and what it ends with.
-/
import Topiary.Proofs.Walk.Reach
import Topiary.Transform

namespace Topiary

variable {N D S : Type}

/-! ## Slots -/

/-- `x` takes the place of what is in the slot, or a new one at the end. -/
def putSlot {α : Type} (slot : Option Nat) (x : α) (xs : List α) : List α :=
  match slot with
  | none => xs ++ [x]
  | some slot => xs.set slot x

section

variable {α : Type} {slot : Option Nat} {x : α} {xs : List α}

/-- One slot is written, all others stay. -/
theorem getElem?_putSlot (h : ∀ s, slot = some s → s < xs.length) (i : Nat) :
    (putSlot slot x xs)[i]? = if i = slot.getD xs.length then some x else xs[i]? := by
  cases slot with
  | none =>
    simp only [putSlot, List.getElem?_append, Option.getD_none]
    grind
  | some s =>
    have hs := h s rfl
    simp only [putSlot, List.getElem?_set, Option.getD_some]
    grind

theorem length_putSlot (slot : Option Nat) (x : α) (xs : List α) :
    (putSlot slot x xs).length = xs.length + if slot.isNone then 1 else 0 := by
  cases slot <;> simp [putSlot]

end

/-- To record an edit is to put it into its slot. -/
theorem Bench.record_eq_ok_iff (b : Bench N) (m : Marks N) (z : Zipper N)
    (r : List (Zipper N) × Nat) : b.record m z = .ok r
      ↔ (∀ s, m.slot = some s → s < b.recorded.length)
        ∧ r = (putSlot m.slot z b.recorded, m.slot.getD b.recorded.length) := by
  unfold Bench.record
  cases hslot : m.slot with
  | none => simp [putSlot, eq_comm]
  | some s =>
    by_cases hs : s < b.recorded.length <;> simp [hs, putSlot, eq_comm]

theorem Bench.requireMarks_eq_ok_iff (b : Bench N) (m : Marks N) :
    b.requireMarks = .ok m ↔ b.marks = some m := by
  unfold requireMarks
  cases b.marks <;> simp

/-- A replacement is put into the slot, which is then the node's own. -/
theorem Bench.replace_eq_ok_iff (b b' : Bench N) (node : N) : b.replace node = .ok b'
    ↔ ∃ m, b.marks = some m ∧ (∀ s, m.slot = some s → s < b.recorded.length)
      ∧ b' = { b with
          node
          recorded := putSlot m.slot (m.zipper.withNode node) b.recorded
          marks := some { m with
            zipper := m.zipper.withNode node
            slot := some (m.slot.getD b.recorded.length) } } := by
  simp only [replace, bind_eq_ok_iff, requireMarks_eq_ok_iff, record_eq_ok_iff]
  constructor
  · rintro ⟨m, hm, r, ⟨hlt, rfl⟩, h⟩
    exact ⟨m, hm, hlt, (Except.ok.inj h).symm⟩
  · rintro ⟨m, hm, hlt, rfl⟩
    exact ⟨m, hm, _, ⟨hlt, rfl⟩, rfl⟩

/-! ## Signatures -/

/-- A bench, and for each recorded edit the number of the context that recorded it. -/
structure Signed (N : Type) where
  bench : Bench N
  signers : List Nat

namespace Signed

/-- The slot that a new replacement or a deletion is put into. -/
def slot (b : Signed N) : Option Nat := b.bench.marks.bind Marks.slot

/-- The signatures after an act of the context `id`. -/
def sign (id : Nat) (b : Signed N) : Act N → List Nat
  | .edit (.change _) => putSlot b.slot id b.signers
  | .edit .delete => putSlot b.slot id b.signers
  | .edit (.insertBefore _) => putSlot none id b.signers
  | .edit (.insertAfter _) => putSlot none id b.signers
  | .setNode _ => b.signers
  | .markDeleted => b.signers

/-- Carry out one act of the context `id`. -/
def act (id : Nat) (b : Signed N) (a : Act N) : Except Fault (Signed N) :=
  (b.bench.act a).map fun bench => ⟨bench, b.sign id a⟩

/-- Carry out acts in order. -/
def actAll (id : Nat) : Signed N → List (Act N) → Except Fault (Signed N)
  | b, [] => .ok b
  | b, a :: as => do actAll id (← b.act id a) as

/-- Take the edits from a slot on off the list. -/
def cut (start : Nat) (b : Signed N) : Signed N :=
  ⟨{ b.bench with recorded := b.bench.recorded.take start }, b.signers.take start⟩

/-- The signatures after the edits below the node of the context `id` are folded. -/
def signFold (id : Nat) (b : Signed N) : List Nat :=
  match b.bench.marks with
  | none => b.signers
  | some m =>
    if (b.bench.recorded.drop m.foldStart).isEmpty then b.signers
    else putSlot m.slot id (b.signers.take m.foldStart)

/-- Fold the edits below the node of the context `id`. -/
def fold [Identified N] (id : Nat) (A : Adapter N) (base : Site) (depth : Nat) (b : Signed N) :
    Except Fault (Signed N × List (Rebuild N)) :=
  (b.bench.foldBelow A base depth).map fun r => (⟨r.1, b.signFold id⟩, r.2)

/-- When `enter` is over: edits below begin where the list ends. -/
def close (b : Signed N) : Signed N :=
  { b with bench := { b.bench with
      marks := b.bench.marks.map fun m => { m with foldStart := b.bench.recorded.length } } }

/-- The bench with which `enter` begins. -/
def entering (c : Context N (Marked N D)) (s : List Nat × Edited N S) : Signed N :=
  ⟨EditVisitor.bench c (some (.start c.sight.frame.node c.sight.crumbs)) s.2.recorded, s.1⟩

/-- The bench of a context as it is found. -/
def found (c : Context N (Marked N D)) (s : List Nat × Edited N S) : Signed N :=
  ⟨EditVisitor.bench c c.sight.frame.data.marks s.2.recorded, s.1⟩

/-- From an edit to a later one among the acts of the context `id`. -/
inductive Passes (id : Nat) : Signed N → List (Act N) → Signed N → Prop
  | here (b : Signed N) (acts : List (Act N)) : Passes id b acts b
  | act {b b' b'' : Signed N} {a : Act N} {acts : List (Act N)} (done : b.act id a = .ok b')
    (rest : Passes id b' acts b'') : Passes id b (a :: acts) b''

theorem passes_of_actAll {id : Nat} {b b' : Signed N} {acts : List (Act N)}
    (h : b.actAll id acts = .ok b') : b.Passes id acts b' := by
  induction acts generalizing b with
  | nil =>
    obtain rfl := Except.ok.inj h
    exact .here _ _
  | cons a acts ih =>
    rw [actAll, bind_eq_ok_iff] at h
    obtain ⟨b₁, hact, h⟩ := h
    exact .act hact (ih h)

theorem bench_actAll (id : Nat) (b : Signed N) (acts : List (Act N)) :
    (b.actAll id acts).map Signed.bench = b.bench.actAll acts := by
  induction acts generalizing b with
  | nil => rfl
  | cons a acts ih =>
    simp only [actAll, Bench.actAll, act]
    cases b.bench.act a with
    | error f => rfl
    | ok bench => exact ih ⟨bench, b.sign id a⟩

/-! ### What is written -/

/-- The context `id` has changed nothing in the list of edits, or it has put an edit with its
own breadcrumbs into its slot or behind all others. -/
inductive Writes (id : Nat) (m m' : Marks N) (b b' : Signed N) : Prop
  | nothing (recorded : b'.bench.recorded = b.bench.recorded) (signers : b'.signers = b.signers)
    (slot : m'.slot = m.slot)
  | edit {slot : Option Nat} {z : Zipper N} (own : slot = none ∨ slot = m.slot)
    (lt : ∀ s, slot = some s → s < b.bench.recorded.length)
    (recorded : b'.bench.recorded = putSlot slot z b.bench.recorded)
    (crumbs : z.crumbs = m.zipper.crumbs)
    (signers : b'.signers = putSlot slot id b.signers)
    (kept : m'.slot = m.slot ∨ m'.slot = some (slot.getD b.bench.recorded.length))

/-- The marks of one context before and after an edit. -/
structure Continues (m m' : Marks N) : Prop where
  crumbs : m'.zipper.crumbs = m.zipper.crumbs
  foldStart : m'.foldStart = m.foldStart

variable {id : Nat} {b b' : Signed N} {m : Marks N}

/-- What an act does to the list. -/
theorem exists_writes_of_act (hm : b.bench.marks = some m) {a : Act N} (h : b.act id a = .ok b') :
    ∃ m', b'.bench.marks = some m' ∧ Continues m m' ∧ Writes id m m' b b' := by
  rw [act, map_eq_ok_iff] at h
  obtain ⟨bench, hact, rfl⟩ := h
  have hslot : b.slot = m.slot := by simp [slot, hm]
  have hinsert : ∀ zipper : Zipper N → Zipper N, (∀ z, (zipper z).crumbs = z.crumbs) →
      b.bench.insert zipper = .ok bench → ∃ m', bench.marks = some m' ∧ Continues m m'
        ∧ Writes id m m' b ⟨bench, putSlot none id b.signers⟩ := by
    intro zipper hzipper hbench
    unfold Bench.insert at hbench
    split at hbench
    · cases hbench
    split at hbench
    · cases hbench
    simp only [bind_eq_ok_iff, Bench.requireMarks_eq_ok_iff, hm] at hbench
    obtain ⟨_, heq, hbench⟩ := hbench
    obtain rfl := Option.some.inj heq
    obtain rfl := Except.ok.inj hbench
    exact ⟨_, rfl, ⟨rfl, rfl⟩, .edit (.inl rfl) (by simp) rfl (hzipper _) rfl (.inl rfl)⟩
  cases a with
  | setNode node =>
    obtain rfl := Except.ok.inj hact
    exact ⟨m, hm, ⟨rfl, rfl⟩, .nothing rfl rfl rfl⟩
  | markDeleted =>
    obtain rfl := Except.ok.inj hact
    exact ⟨m, hm, ⟨rfl, rfl⟩, .nothing rfl rfl rfl⟩
  | edit e =>
    cases e with
    | insertBefore node => exact hinsert (·.insertBefore node) (fun _ => rfl) hact
    | insertAfter node => exact hinsert (·.insertAfter node) (fun _ => rfl) hact
    | change node =>
      simp only [Bench.act, Bench.edit, Bench.change] at hact
      split at hact
      · cases hact
      simp only [bind_eq_ok_iff, Bench.replace_eq_ok_iff, hm] at hact
      obtain ⟨_, ⟨_, heq, hlt, rfl⟩, hact⟩ := hact
      obtain rfl := Option.some.inj heq
      obtain rfl := Except.ok.inj hact
      exact ⟨_, rfl, ⟨rfl, rfl⟩, .edit (.inr rfl) hlt rfl rfl (by rw [← hslot]; rfl) (.inr rfl)⟩
    | delete =>
      simp only [Bench.act, Bench.edit, Bench.delete] at hact
      split at hact
      · cases hact
      split at hact
      · cases hact
      split at hact
      · cases hact
      simp only [bind_eq_ok_iff, Bench.requireMarks_eq_ok_iff, Bench.record_eq_ok_iff, hm] at hact
      obtain ⟨_, heq, _, ⟨hlt, rfl⟩, hact⟩ := hact
      obtain rfl := Option.some.inj heq
      obtain rfl := Except.ok.inj hact
      exact ⟨m, rfl, ⟨rfl, rfl⟩,
        .edit (.inr rfl) hlt rfl rfl (by rw [← hslot]; rfl) (.inl rfl)⟩

/-- Without marks nothing gets onto the list. -/
theorem eq_of_act_of_no_marks (hm : b.bench.marks = none) {a : Act N} (h : b.act id a = .ok b') :
    b'.bench.marks = none ∧ b'.bench.recorded = b.bench.recorded ∧ b'.signers = b.signers := by
  rw [act, map_eq_ok_iff] at h
  obtain ⟨bench, hact, rfl⟩ := h
  have hrefused : b.bench.requireMarks = .error (.misuse .editOutsideTransform) := by
    simp [Bench.requireMarks, hm]
  cases a with
  | setNode node =>
    obtain rfl := Except.ok.inj hact
    exact ⟨hm, rfl, rfl⟩
  | markDeleted =>
    obtain rfl := Except.ok.inj hact
    exact ⟨hm, rfl, rfl⟩
  | edit e =>
    exfalso
    cases e <;>
      simp only [Bench.act, Bench.edit, Bench.change, Bench.delete, Bench.insert, Bench.replace,
        hrefused, bind, Except.bind] at hact <;>
      (repeat' split at hact) <;> cases hact

theorem eq_of_passes_of_no_marks (hm : b.bench.marks = none) {acts : List (Act N)}
    (h : b.Passes id acts b') : b'.bench.recorded = b.bench.recorded ∧ b'.signers = b.signers := by
  induction h with
  | here => exact ⟨rfl, rfl⟩
  | act done _ ih =>
    obtain ⟨hm', hrecorded, hsigners⟩ := eq_of_act_of_no_marks hm done
    obtain ⟨hrecorded', hsigners'⟩ := ih hm'
    exact ⟨hrecorded'.trans hrecorded, hsigners'.trans hsigners⟩

/-- The fold takes the edits below off the list, and then does what an edit does. -/
theorem exists_writes_of_fold [Identified N] (hm : b.bench.marks = some m)
    (hlength : b.signers.length = b.bench.recorded.length) {A : Adapter N} {base : Site}
    {depth : Nat} {ledger : List (Rebuild N)} (h : b.fold id A base depth = .ok (b', ledger)) :
    ∃ m', b'.bench.marks = some m' ∧ Continues m m' ∧ Writes id m m' (b.cut m.foldStart) b' := by
  rw [fold, map_eq_ok_iff] at h
  obtain ⟨⟨bench, ledger'⟩, hfold, h⟩ := h
  obtain ⟨rfl, rfl⟩ := Prod.mk.inj h
  simp only [Bench.foldBelow, hm] at hfold
  split at hfold
  · cases hfold
  split at hfold
  · rename_i hbelow
    obtain ⟨rfl, -⟩ := Prod.mk.inj (Except.ok.inj hfold)
    have hle := List.drop_eq_nil_iff.1 hbelow
    refine ⟨m, hm, ⟨rfl, rfl⟩, .nothing ?_ ?_ rfl⟩
    · simp [cut, List.take_of_length_le hle]
    · simp [cut, signFold, hm, hbelow, List.take_of_length_le (hlength.symm ▸ hle)]
  · rename_i below hbelow
    simp only [bind_eq_ok_iff, Bench.replace_eq_ok_iff] at hfold
    obtain ⟨_, -, _, ⟨_, heq, hlt, rfl⟩, hfold⟩ := hfold
    obtain rfl := Option.some.inj heq
    obtain ⟨rfl, -⟩ := Prod.mk.inj (Except.ok.inj hfold)
    have hsome : (b.bench.recorded.drop m.foldStart).isEmpty = false := by
      simpa using hbelow
    exact ⟨_, rfl, ⟨rfl, rfl⟩,
      .edit (.inr rfl) hlt rfl rfl (by simp [cut, signFold, hm, hsome]) (.inr rfl)⟩

end Signed

namespace EditVisitor

/-- Call the visitor on a bench and carry out what it does. -/
def onSigned (v : EditVisitor N D S) (c : Context N (Marked N D)) (b : Signed N) (s : S) :
    Except Fault (EditAnswer N D S × Signed N) := do
  let a ← v ((c.mapData Marked.data).withNode b.bench.node) s
  let b ← b.actAll c.id a.acts
  return (a, b)

/-- What the visitor does on a bench; nothing, if it fails. -/
def actsOn (v : EditVisitor N D S) (c : Context N (Marked N D)) (b : Signed N) (s : S) :
    List (Act N) :=
  match v ((c.mapData Marked.data).withNode b.bench.node) s with
  | .ok a => a.acts
  | .error _ => []

/-- The answer, with the signatures beside the state. -/
def signedAnswer (a : EditAnswer N D S) (b : Signed N) (ledger : List (Rebuild N)) :
    Answer N (Marked N D) (List Nat × Edited N S) :=
  ⟨a.control, b.bench.node, b.bench.deleted, ⟨a.data, b.bench.marks⟩,
    (b.signers, ⟨a.state, b.bench.recorded, ledger⟩)⟩

/-- The visitor that records the edits of `v`, signs them and folds them. -/
def signing [Identified N] (A : Adapter N) (run : Nat) (v : EditVisitor N D S) :
    Visitor N (Marked N D) (List Nat × Edited N S) := fun c s =>
  match c.sight.frame.phase with
  | .enter => do
    let (a, b) ← v.onSigned c (.entering c s) s.2.state
    return signedAnswer a b.close s.2.ledger
  | .leave => do
    let base := (Site.ofRun run).below c.sight.path
    let (b, ledger) ← (Signed.found c s).fold c.id A base c.sight.frame.depth
    let (a, b) ← v.onSigned c b s.2.state
    return signedAnswer a b (s.2.ledger ++ ledger)
  | .backRef => do
    let (a, b) ← v.onSigned c (.found c s) s.2.state
    return signedAnswer a b s.2.ledger

theorem onBench_eq_onSigned (v : EditVisitor N D S) (c : Context N (Marked N D)) (b : Signed N)
    (s : S) : v.onBench c b.bench s = (v.onSigned c b s).map fun r => (r.1, r.2.bench) := by
  simp only [onBench, onSigned]
  cases v ((c.mapData Marked.data).withNode b.bench.node) s with
  | error f => rfl
  | ok a =>
    simp only [bind, Except.bind, ← b.bench_actAll c.id]
    cases b.actAll c.id a.acts <;> rfl

/-- A callback that comes to its end passes through all its acts. -/
theorem passes_of_onSigned {v : EditVisitor N D S} {c : Context N (Marked N D)} {b b' : Signed N}
    {s : S} {a : EditAnswer N D S} (h : v.onSigned c b s = .ok (a, b')) :
    b.Passes c.id (v.actsOn c b s) b' := by
  simp only [onSigned, bind_eq_ok_iff] at h
  obtain ⟨a', hanswer, b₁, hacts, h⟩ := h
  obtain ⟨-, rfl⟩ := Prod.mk.inj (Except.ok.inj h)
  rw [actsOn, hanswer]
  exact Signed.passes_of_actAll hacts

end EditVisitor

namespace Transform

variable [Identified N]

/-- The walk of a transform that signs its edits. -/
def signing (t : Transform N D S) : Traversal N (Marked N D) (List Nat × Edited N S) where
  children := t.adapter.children
  order := .depthFirst
  visitor := t.visitor.signing t.adapter t.run
  fresh := ⟨t.fresh, none⟩
  rootData := ⟨t.rootData, none⟩

/-- Signing changes nothing else. -/
theorem signing_extends (t : Transform N D S) : t.signing.Extends t.traversal Prod.snd where
  children := rfl
  order := rfl
  fresh := rfl
  rootData := rfl
  visitor := fun c s => by
    show t.visitor.recording t.adapter t.run c s.2
      = (t.visitor.signing t.adapter t.run c s).map (Answer.mapState Prod.snd)
    unfold EditVisitor.recording EditVisitor.signing
    cases c.sight.frame.phase with
    | enter =>
      have hcall := t.visitor.onBench_eq_onSigned c (.entering c s) s.2.state
      rw [Signed.entering] at hcall
      simp only [hcall, Signed.entering]
      cases t.visitor.onSigned c _ s.2.state <;> rfl
    | leave =>
      simp only [Signed.fold, Signed.found]
      cases Bench.foldBelow t.adapter ((Site.ofRun t.run).below c.sight.path) c.sight.frame.depth
          (EditVisitor.bench c c.sight.frame.data.marks s.2.recorded) with
      | error f => rfl
      | ok r =>
        have hcall := t.visitor.onBench_eq_onSigned c
          ⟨r.1, (Signed.found c s).signFold c.id⟩ s.2.state
        simp only [Except.map, bind, Except.bind, hcall, Signed.found]
        cases t.visitor.onSigned c _ s.2.state <;> rfl
    | backRef =>
      have hcall := t.visitor.onBench_eq_onSigned c (.found c s) s.2.state
      rw [Signed.found] at hcall
      simp only [hcall, Signed.found]
      cases t.visitor.onSigned c _ s.2.state <;> rfl

end Transform

/-- What a walk gets to, it gets to with more in its state. -/
theorem Traversal.Extends.exists_reaches [Identified N] {R : Type} {u : Traversal N D R}
    {t : Traversal N D S} {g : R → S} (h : u.Extends t g) {y : Worklist N D R}
    {x : Worklist N D S} (hx : t.Reaches (y.mapState g) x) :
    ∃ w, u.Reaches y w ∧ w.mapState g = x := by
  induction hx with
  | refl => exact ⟨y, .refl, rfl⟩
  | tail _ hnext ih =>
    obtain ⟨w, hw, rfl⟩ := ih
    obtain ⟨hquit, item, pending, hpending, hwork⟩ := next?_eq_some_iff.1 hnext
    have hmap := h.work { w with pending } item
    rw [show ({ w with pending } : Worklist N D R).mapState g
      = { w.mapState g with pending } from rfl, hwork] at hmap
    obtain ⟨v, hv, hmapped⟩ := map_eq_ok_iff.1 hmap.symm
    exact ⟨v, hw.tail (next?_eq_some_iff.2 ⟨hquit, item, pending, hpending, hv⟩), hmapped⟩

/-! ## Callbacks on their way -/

namespace Transform

variable [Identified N]

/-- How far a callback of a transform has come. -/
inductive Stage where
  /-- In the visitor's `enter`. -/
  | entering
  /-- `enter` is over. -/
  | entered
  /-- All that lies below is done; `leave` begins. -/
  | returning
  /-- The edits below are taken off the list. -/
  | cut
  /-- They are folded; in the visitor's `leave`. -/
  | leaving
  /-- In the visitor's `backRef`. -/
  | referring
deriving DecidableEq, Repr

/-- What a transform works on, in a callback on the context `c` that starts with the state `s`.
The callback need not come to its end. -/
inductive Moment (t : Transform N D S) (c : Context N (Marked N D)) (s : List Nat × Edited N S) :
    Stage → Signed N → Prop
  | entering {b : Signed N} (phase : c.sight.frame.phase = .enter)
    (passes : (Signed.entering c s).Passes c.id
      (t.visitor.actsOn c (Signed.entering c s) s.2.state) b) : Moment t c s .entering b
  | entered {b : Signed N} {a : EditAnswer N D S} (phase : c.sight.frame.phase = .enter)
    (done : t.visitor.onSigned c (.entering c s) s.2.state = .ok (a, b)) :
    Moment t c s .entered b.close
  | returning (phase : c.sight.frame.phase = .leave) : Moment t c s .returning (.found c s)
  | cut {m : Marks N} (phase : c.sight.frame.phase = .leave)
    (marks : c.sight.frame.data.marks = some m) :
    Moment t c s .cut ((Signed.found c s).cut m.foldStart)
  | leaving {folded b : Signed N} {ledger : List (Rebuild N)}
    (phase : c.sight.frame.phase = .leave)
    (fold : (Signed.found c s).fold c.id t.adapter ((Site.ofRun t.run).below c.sight.path)
      c.sight.frame.depth = .ok (folded, ledger))
    (passes : folded.Passes c.id (t.visitor.actsOn c folded s.2.state) b) :
    Moment t c s .leaving b
  | referring {b : Signed N} (phase : c.sight.frame.phase = .backRef)
    (passes : (Signed.found c s).Passes c.id
      (t.visitor.actsOn c (.found c s) s.2.state) b) : Moment t c s .referring b

/-- The stage that a callback ends with. -/
def Stage.last : Phase → Stage
  | .enter => .entered
  | .leave => .leaving
  | .backRef => .referring

/-- What a callback hands on is what it works on in the end. -/
theorem exists_moment_of_answer {t : Transform N D S} {c : Context N (Marked N D)}
    {s : List Nat × Edited N S} {a : Answer N (Marked N D) (List Nat × Edited N S)}
    (h : t.signing.visitor c s = .ok a) :
    ∃ b, t.Moment c s (.last c.sight.frame.phase) b ∧ a.data.marks = b.bench.marks
      ∧ a.state.1 = b.signers ∧ a.state.2.recorded = b.bench.recorded := by
  replace h : t.visitor.signing t.adapter t.run c s = .ok a := h
  unfold EditVisitor.signing at h
  cases hphase : c.sight.frame.phase with
  | enter =>
    simp only [hphase, bind_eq_ok_iff] at h
    obtain ⟨⟨e, b⟩, hdone, h⟩ := h
    obtain rfl := Except.ok.inj h
    exact ⟨b.close, .entered hphase hdone, rfl, rfl, rfl⟩
  | leave =>
    simp only [hphase, bind_eq_ok_iff] at h
    obtain ⟨⟨folded, ledger⟩, hfold, ⟨e, b⟩, hdone, h⟩ := h
    obtain rfl := Except.ok.inj h
    exact ⟨b, .leaving hphase hfold (EditVisitor.passes_of_onSigned hdone), rfl, rfl, rfl⟩
  | backRef =>
    simp only [hphase, bind_eq_ok_iff] at h
    obtain ⟨⟨e, b⟩, hdone, h⟩ := h
    obtain rfl := Except.ok.inj h
    exact ⟨b, .referring hphase (EditVisitor.passes_of_onSigned hdone), rfl, rfl, rfl⟩

end Transform

end Topiary
