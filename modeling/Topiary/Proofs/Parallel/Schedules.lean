/-
Topiary.Proofs.Parallel.Schedules — the order in which tasks run makes no difference.

* `Visit.Tells` — a visit from left to right tells of the same callbacks, copies and
  entered nodes as a run in another order, and ends with the same task.
* `ForkJoin.Completes.tells` — of every complete run there is such a visit.
* `Nested` — every node is entered before and left after all that happens below it.
* `ForkJoin.JoinsInOrder` — a node merges what each of its children has come to, child
  by child, into the node as it stood when the children were forked.
* `interleavings_agree` — any interleaving can go on, all come to the same end, and to
  that of `ForkJoin.walk`.
-/
import Topiary.Proofs.Parallel.Interleaving
import Topiary.Proofs.Tree
import Topiary.Proofs.Walk.ForkJoin

namespace Topiary

/-! ## Woven sequences -/

namespace Weaves

variable {α β : Type} {parts : List (List α)} {es : List α}

theorem map (h : Weaves parts es) (f : α → β) : Weaves (parts.map (List.map f)) (es.map f) where
  perm := by
    rw [← List.map_flatten]
    exact h.perm.map f
  sublist := fun part hpart => by
    obtain ⟨part, hmem, rfl⟩ := List.mem_map.1 hpart
    exact (h.sublist part hmem).map f

theorem mem_iff (h : Weaves parts es) {x : α} : x ∈ es ↔ ∃ part ∈ parts, x ∈ part :=
  h.perm.mem_iff.trans List.mem_flatten

/-- One sequence after the other. -/
theorem flatten (parts : List (List α)) : Weaves parts parts.flatten :=
  ⟨.refl _, fun _ hpart => List.sublist_flatten_of_mem hpart⟩

/-- What is peculiar to one part is in the whole sequence as it is in this part. -/
theorem filter_eq {before after : List (List α)} {part : List α}
    (h : Weaves (before ++ part :: after) es) {p : α → Bool}
    (hothers : ∀ other ∈ before ++ after, ∀ x ∈ other, p x = false) :
    es.filter p = part.filter p := by
  have hnone : ∀ others : List (List α), (∀ other ∈ others, ∀ x ∈ other, p x = false) →
      others.flatten.filter p = [] := by
    intro others hall
    rw [List.filter_eq_nil_iff]
    intro x hx
    obtain ⟨other, hother, hmem⟩ := List.mem_flatten.1 hx
    simp [hall other hother x hmem]
  rw [List.forall_mem_append] at hothers
  have hperm : (es.filter p).Perm (part.filter p) := by
    have hall := h.perm.filter p
    rwa [List.flatten_append, List.flatten_cons, List.filter_append, List.filter_append,
      hnone before hothers.1, hnone after hothers.2, List.nil_append, List.append_nil] at hall
  exact (((h.sublist part (by simp)).filter p).eq_of_length hperm.length_eq.symm).symm

end Weaves

/-! ## The visit from left to right -/

/-- Computations one after the other, each of which comes to an end. -/
theorem Run.eventually_mapM {α β : Type} {f : Nat → α → Run β} {P : α → β → Prop} {xs : List α}
    (h : ∀ x ∈ xs, ∃ y, Eventually (fun limit => f limit x) (.done y) ∧ P x y) :
    ∃ ys, Eventually (fun limit => xs.mapM (f limit)) (.done ys) ∧ List.Forall₂ P xs ys := by
  induction xs with
  | nil => exact ⟨[], .const _, .nil⟩
  | cons x xs ih =>
    obtain ⟨⟨y, hy, hP⟩, hxs⟩ := List.forall_mem_cons.1 h
    obtain ⟨ys, hys, hall⟩ := ih hxs
    refine ⟨y :: ys, ?_, .cons hP hall⟩
    simp only [List.mapM_cons]
    exact hy.bind (hys.bind (.const _))

/-- Computations one after the other that are all done. -/
theorem Run.forall₂_of_mapM {α β : Type} {f : α → Run β} {xs : List α} {ys : List β}
    (h : xs.mapM f = .done ys) : List.Forall₂ (fun x y => f x = .done y) xs ys := by
  induction xs generalizing ys with
  | nil =>
    obtain rfl := Run.done.inj h
    exact .nil
  | cons x xs ih =>
    simp only [List.mapM_cons, bind_eq_done_iff, pure_eq, done.injEq] at h
    obtain ⟨y, hy, ys, hys, rfl⟩ := h
    exact .cons hy (ih hys)

section

variable {N D : Type}

/-- The visit ends with this task, and tells of the same callbacks, copies and entered
nodes. -/
structure Visit.Tells (v : Visit N D) (es : List (Event N D)) (final : Task N D) : Prop where
  task : v.task = final
  calls : (es.map Event.context).Perm v.calls
  ledger : (es.flatMap Event.copies).Perm v.ledger
  entered : v.entered = es.countP fun e => e.context.task.frame.phase = .enter

/-- The visits of children, joined. -/
theorem Visit.Tells.join {parts : List (ForkJoin.Part N D)} {vs : List (Visit N D)}
    (h : List.Forall₂ (fun part v => Tells v part.events part.final) parts vs) :
    vs.map Visit.task = parts.map ForkJoin.Part.final
      ∧ ((parts.map ForkJoin.Part.events).flatten.map Event.context).Perm (vs.flatMap Visit.calls)
      ∧ ((parts.map ForkJoin.Part.events).flatten.flatMap Event.copies).Perm
          (vs.flatMap Visit.ledger)
      ∧ (vs.map Visit.entered).foldr (· + ·) 0 = (parts.map ForkJoin.Part.events).flatten.countP
          fun e => e.context.task.frame.phase = .enter := by
  induction h with
  | nil => exact ⟨rfl, .refl _, .refl _, rfl⟩
  | cons hv _ ih =>
    obtain ⟨htask, hcalls, hledger, hentered⟩ := ih
    simp only [List.map_cons, List.flatten_cons, List.flatMap_cons, List.map_append,
      List.flatMap_append, List.countP_append, List.foldr_cons]
    exact ⟨by rw [hv.task, htask], hv.calls.append hcalls, hv.ledger.append hledger,
      by rw [hv.entered, hentered]⟩

namespace ForkJoin

variable [Identified N] {w : ForkJoin N D} {above : List (Task N D)} {t t' : Task N D}
  {es : List (Event N D)} {e : Event N D}

/-- A task that finishes at once. -/
theorem Step.tells (h : w.Step above (.waiting t) e (.finished t')) :
    ∃ v, Run.Eventually (fun levels => w.visit levels above t) (.done v) ∧ v.Tells [e] t' := by
  cases h with
  | @backRef _ _ _ control repeats called =>
    replace called :
        w.call above (inPhase .backRef { t with frame := { t.frame with visited := true } })
          = .ok (control, t') := called
    refine ⟨⟨t', [⟨asBackRef t, above, w.rootData⟩], [], 0⟩, .of_succ ?_, rfl, .refl _, .refl _,
      rfl⟩
    have hvisit : ∀ levels, w.visit (levels + 1) above t
        = .done ⟨t', [⟨asBackRef t, above, w.rootData⟩], [], 0⟩ := fun levels => by
      simp only [visit, repeats, if_true, called]
      rfl
    simp only [hvisit]
    exact .const _
  | abort fresh called =>
    refine ⟨⟨t', [⟨inPhase .enter t, above, w.rootData⟩], [], 1⟩, .of_succ ?_, rfl, .refl _,
      .refl _, rfl⟩
    have hvisit : ∀ levels, w.visit (levels + 1) above t
        = .done ⟨t', [⟨inPhase .enter t, above, w.rootData⟩], [], 1⟩ := fun levels => by
      simp only [visit, fresh, Bool.false_eq_true, if_false, called]
      rfl
    simp only [hvisit]
    exact .const _

/-- Of every complete run the visit from left to right tells the same. -/
theorem Completes.tells (h : w.Completes above t es t') :
    ∃ v, Run.Eventually (fun levels => w.visit levels above t) (.done v) ∧ v.Tells es t' := by
  induction h with
  | stops step => exact step.tells
  | @joins above t t₁ t₂ first last parts es fork kids weaves _ leave ih =>
    obtain ⟨vs, hvs, hall⟩ := Run.eventually_mapM ih
    obtain ⟨htasks, hcalls, hledger, hentered⟩ := Visit.Tells.join hall
    obtain ⟨t₃, _, copies, control, hcomplete, hleave, rfl, hfinal⟩ := leave.joined_cases rfl
    obtain rfl := Strand.finished.inj hfinal
    cases fork with
    | fork fresh called proceeds =>
      have hvisit : ∀ levels, w.visit (levels + 1) above t
          = (w.kids t₁).mapM (w.visit levels (t₁ :: above)) >>= fun below =>
            Run.ofExcept (w.complete above t₁ (below.flatMap fun v => v.task.toChildEdits)) >>= fun r =>
              Run.ofExcept (w.call above (inPhase .leave r.1)) >>= fun r' => .done {
                task := r'.2
                calls := ⟨inPhase .enter t, above, w.rootData⟩ :: below.flatMap Visit.calls
                  ++ [⟨inPhase .leave r.1, above, w.rootData⟩]
                ledger := below.flatMap Visit.ledger ++ r.2
                entered := (below.map Visit.entered).foldr (· + ·) 0 + 1 } := fun levels => by
        simp only [visit, fresh, Bool.false_eq_true, if_false, called, Run.ofExcept, Run.done_bind,
          proceeds]
        rfl
      have hkids : Run.Eventually (fun levels => (w.kids t₁).mapM (w.visit levels (t₁ :: above)))
          (.done vs) := by
        rw [← kids]
        simp only [List.mapM_map]
        exact hvs
      have hedits : vs.flatMap (fun v => v.task.toChildEdits)
          = (parts.map Part.final).flatMap Task.toChildEdits := by
        rw [← htasks, List.flatMap_map]
      refine ⟨⟨t₂, ⟨inPhase .enter t, above, w.rootData⟩ :: vs.flatMap Visit.calls
          ++ [⟨inPhase .leave t₃, above, w.rootData⟩], vs.flatMap Visit.ledger ++ copies,
          (vs.map Visit.entered).foldr (· + ·) 0 + 1⟩, .of_succ ?_, rfl, ?_, ?_, ?_⟩
      · simp only [hvisit]
        refine hkids.bind ?_
        rw [hedits, hcomplete]
        simp only [Run.ofExcept, Run.done_bind, hleave]
        exact .const _
      · rw [List.cons_append, List.map_cons, List.map_append]
        exact (((weaves.perm.map _).trans hcalls).append_right _).cons _
      · rw [List.cons_append, List.flatMap_cons, List.flatMap_append, List.flatMap_singleton]
        exact ((weaves.perm.flatMap_right _).trans hledger).append_right _
      · rw [hentered, List.countP_append, List.countP_cons, weaves.perm.countP_eq]
        simp [inPhase]

/-- Children that can be run completely, one by one. -/
theorem exists_parts {kids : List (Task N D)} {vs : List (Visit N D)}
    (h : List.Forall₂ (fun kid v => ∃ es, w.Completes above kid es v.task) kids vs) :
    ∃ parts : List (Part N D), parts.map Part.task = kids
      ∧ parts.map Part.final = vs.map Visit.task
      ∧ ∀ part ∈ parts, w.Completes above part.task part.events part.final := by
  induction h with
  | nil => exact ⟨[], rfl, rfl, List.forall_mem_nil _⟩
  | @cons kid v _ _ hkid _ ih =>
    obtain ⟨es, hes⟩ := hkid
    obtain ⟨parts, rfl, hfinals, hparts⟩ := ih
    exact ⟨⟨kid, es, v.task⟩ :: parts, rfl, by rw [List.map_cons, hfinals]; rfl,
      List.forall_mem_cons.2 ⟨hes, hparts⟩⟩

/-- The visit from left to right is a complete run. -/
theorem exists_completes : ∀ {levels : Nat} {above : List (Task N D)} {t : Task N D}
    {v : Visit N D}, w.visit levels above t = .done v → ∃ es, w.Completes above t es v.task := by
  intro levels
  induction levels with
  | zero => exact fun h => nomatch h
  | succ levels ih =>
    intro above t v h
    cases hrep : (Sight.mk t.frame (above.map Task.frame) w.rootData).repeatsAbove with
    | true =>
      simp only [visit, hrep, if_true, Run.bind_eq_done_iff, Run.ofExcept_eq_done_iff,
        Run.pure_eq, Run.done.injEq] at h
      obtain ⟨⟨control, t'⟩, hcall, rfl⟩ := h
      exact ⟨_, .stops (.backRef hrep hcall)⟩
    | false =>
      simp only [visit, hrep, Bool.false_eq_true, if_false, Run.bind_eq_done_iff,
        Run.ofExcept_eq_done_iff, Run.pure_eq] at h
      obtain ⟨⟨control, t'⟩, hcall, h⟩ := h
      by_cases habort : control = .abort
      · subst habort
        rw [if_pos rfl, Run.done.injEq] at h
        subst h
        exact ⟨_, .stops (.abort hrep hcall)⟩
      · simp only [habort, if_false, Run.bind_eq_done_iff, Run.ofExcept_eq_done_iff,
          Run.done.injEq] at h
        obtain ⟨below, hbelow, ⟨t₁, copies⟩, hcomplete, ⟨control', t₂⟩, hleave, rfl⟩ := h
        obtain ⟨parts, hkids, hfinals, hparts⟩ :=
          exists_parts ((Run.forall₂_of_mapM hbelow).imp fun _ _ hkid => ih hkid)
        have hmerge : w.complete above t' ((parts.map Part.final).flatMap Task.toChildEdits)
            = .ok (t₁, copies) := by
          rw [hfinals, List.flatMap_map]
          exact hcomplete
        exact ⟨_, .joins (.fork hrep hcall habort) hkids (.flatten _) hparts (.leave hmerge hleave)⟩

end ForkJoin

end

/-! ## What is called in between -/

/-- The callbacks at a path and below it, each known by its path and its phase: none comes
twice, and all that happens below a node comes after the node is entered and before it is
left. -/
structure Nested (base : List Location) (keys : List (List Location × Phase)) : Prop where
  below : ∀ key ∈ keys, base <:+ key.1
  once : keys.Nodup
  within : ∀ key ∈ keys, ∀ path, base <:+ path → path <:+ key.1 → path ≠ key.1 →
    [(path, .enter), key, (path, .leave)].Sublist keys
  later : ∀ path, (path, .leave) ∈ keys → [(path, .enter), (path, .leave)].Sublist keys

/-- A single callback that leaves no node. -/
theorem Nested.single {base : List Location} {phase : Phase} (h : phase ≠ .leave) :
    Nested base [(base, phase)] where
  below := by simp
  once := List.nodup_singleton _
  within := fun key hkey path hbase hpath hne => by
    obtain rfl := List.mem_singleton.1 hkey
    exact absurd (hpath.eq_of_length_le hbase.length_le) hne
  later := fun path hmem => by
    have heq := (Prod.mk.inj (List.mem_singleton.1 hmem)).2
    exact absurd heq.symm h

section

variable {base : List Location} {parts : List (List Location × List (List Location × Phase))}
  {keys : List (List Location × Phase)}

/-- No callback comes twice among those of different children. -/
theorem Nested.nodup_woven (hkids : ∀ part ∈ parts, ∃ l, part.1 = l :: base)
    (hdistinct : (parts.map Prod.fst).Nodup) (hnested : ∀ part ∈ parts, Nested part.1 part.2)
    (hweaves : Weaves (parts.map Prod.snd) keys) : keys.Nodup := by
  rw [hweaves.perm.nodup_iff, List.nodup_flatten]
  refine ⟨fun _ hmem => ?_, ?_⟩
  · obtain ⟨part, hpart, rfl⟩ := List.mem_map.1 hmem
    exact (hnested part hpart).once
  · rw [List.Nodup, List.pairwise_map] at hdistinct
    rw [List.pairwise_map]
    refine hdistinct.imp_of_mem fun {part part'} hpart hpart' hne key hkey hkey' => hne ?_
    obtain ⟨l, hl⟩ := hkids part hpart
    obtain ⟨l', hl'⟩ := hkids part' hpart'
    have hsuffix := (hnested part hpart).below key hkey
    have hsuffix' := (hnested part' hpart').below key hkey'
    rw [hl] at hsuffix
    rw [hl'] at hsuffix'
    rw [hl, hl', location_unique hsuffix hsuffix']

variable (parts) in
/-- A node that is entered before and left after its children. -/
theorem Nested.enclose (hkids : ∀ part ∈ parts, ∃ l, part.1 = l :: base)
    (hdistinct : (parts.map Prod.fst).Nodup) (hnested : ∀ part ∈ parts, Nested part.1 part.2)
    (hweaves : Weaves (parts.map Prod.snd) keys) :
    Nested base ((base, .enter) :: keys ++ [(base, .leave)]) := by
  have hpart : ∀ key ∈ keys, ∃ part ∈ parts, key ∈ part.2 ∧ part.1 <:+ key.1 := by
    intro key hkey
    obtain ⟨_, hmem, hkey⟩ := hweaves.mem_iff.1 hkey
    obtain ⟨part, hpart, rfl⟩ := List.mem_map.1 hmem
    exact ⟨part, hpart, hkey, (hnested part hpart).below key hkey⟩
  have hlonger : ∀ key ∈ keys, base <:+ key.1 ∧ key.1 ≠ base := by
    intro key hkey
    obtain ⟨part, hpart, -, hsuffix⟩ := hpart key hkey
    obtain ⟨l, hl⟩ := hkids part hpart
    rw [hl] at hsuffix
    refine ⟨(List.suffix_cons l base).trans hsuffix, fun heq => ?_⟩
    have hlength := hsuffix.length_le
    rw [heq, List.length_cons] at hlength
    exact absurd hlength (Nat.not_succ_le_self _)
  have hinside : ∀ part ∈ parts, part.2.Sublist ((base, .enter) :: keys ++ [(base, .leave)]) :=
    fun part hpart => (hweaves.sublist part.2 (List.mem_map_of_mem hpart)).trans
      ((List.sublist_cons_self ..).trans (List.sublist_append_left ..))
  refine ⟨fun key hkey => ?_, ?_, fun key hkey path hbase hpath hne => ?_, fun path hmem => ?_⟩
  · simp only [List.cons_append, List.mem_cons, List.mem_append, List.not_mem_nil, or_false] at hkey
    rcases hkey with rfl | hkey | rfl
    · exact List.suffix_refl _
    · exact (hlonger key hkey).1
    · exact List.suffix_refl _
  · have hkeys := nodup_woven hkids hdistinct hnested hweaves
    rw [List.cons_append, List.nodup_cons, List.mem_append, List.mem_singleton]
    refine ⟨?_, hkeys.append (List.nodup_singleton _) fun key hkey hlast => ?_⟩
    · rintro (hmem | heq)
      · exact (hlonger _ hmem).2 rfl
      · cases heq
    · exact (hlonger key hkey).2 (by rw [List.mem_singleton.1 hlast])
  · have hkey' : key ∈ keys := by
      simp only [List.cons_append, List.mem_cons, List.mem_append, List.not_mem_nil, or_false]
        at hkey
      rcases hkey with rfl | hkey | rfl
      · exact absurd (hpath.eq_of_length_le hbase.length_le) hne
      · exact hkey
      · exact absurd (hpath.eq_of_length_le hbase.length_le) hne
    by_cases hat : path = base
    · subst hat
      exact ((List.singleton_sublist.2 hkey').cons_cons _).append (List.Sublist.refl _)
    · -- the path lies within the child that the callback lies in
      obtain ⟨part, hmem, hin, hsuffix⟩ := hpart key hkey'
      obtain ⟨l, hl⟩ := hkids part hmem
      have hwithin : part.1 <:+ path := by
        rcases List.suffix_or_suffix_of_suffix hsuffix hpath with hs | hs
        · exact hs
        · rw [hl, List.suffix_cons_iff] at hs
          rcases hs with heq | hs
          · simp [hl, heq]
          · exact absurd (hs.eq_of_length_le hbase.length_le) hat
      exact ((hnested part hmem).within key hin path hwithin hpath hne).trans (hinside part hmem)
  · simp only [List.cons_append, List.mem_cons, List.mem_append, Prod.mk.injEq, reduceCtorEq,
      and_false, false_or, and_true, List.not_mem_nil, or_false] at hmem
    rcases hmem with hmem | rfl
    · obtain ⟨part, hpart, hin, -⟩ := hpart _ hmem
      exact ((hnested part hpart).later path hin).trans (hinside part hpart)
    · exact ((List.nil_sublist _).cons_cons _).append (List.Sublist.refl _)

end

/-! ## Where the callbacks are made -/

section

variable {N D : Type}

/-- The path of a callback. -/
def Event.path (e : Event N D) : List Location := e.context.sight.path

/-- Which callback it is. -/
def Event.phase (e : Event N D) : Phase := e.context.task.frame.phase

def Event.key (e : Event N D) : List Location × Phase := (e.path, e.phase)

namespace ForkJoin

/-- Tasks at the same place have the same path. -/
theorem path_way_congr (above : List (Task N D)) {t t' : Task N D}
    (h : t'.frame.location = t.frame.location) : (t'.way above).path = (t.way above).path := by
  cases above with
  | nil => rfl
  | cons p above => simp [Task.way, Sight.crumbsBelow, h]

variable {w : ForkJoin N D} {above : List (Task N D)} {t t' : Task N D}

theorem location_of_call {control : Control} (h : w.call above t = .ok (control, t')) :
    t'.frame.location = t.frame.location := by
  obtain ⟨data, hframe⟩ := frame_of_call h
  rw [hframe]

theorem location_of_complete {edits : List (ChildEdit N)} {copies : List (Rebuild N)}
    (h : w.complete above t edits = .ok (t', copies)) : t'.frame.location = t.frame.location := by
  rw [frame_of_complete h]

/-- The children of a node lie one step below it, each at its own location. -/
theorem exists_location_of_mem_kids (above : List (Task N D)) {kid : Task N D}
    (h : kid ∈ w.kids t) :
    ∃ l, kid.frame.location = some l ∧ (kid.way (t :: above)).path = l :: (t.way above).path := by
  unfold kids at h
  split at h
  · exact absurd h List.not_mem_nil
  · obtain ⟨frame, hframe, rfl⟩ := List.mem_map.1 h
    obtain ⟨⟨l, node⟩, -, rfl⟩ := List.mem_map.1 hframe
    exact ⟨l, rfl, rfl⟩

theorem nodup_locations_kids (w : ForkJoin N D) (t : Task N D) :
    ((w.kids t).map fun kid => kid.frame.location).Nodup := by
  unfold kids
  split
  · exact List.nodup_nil
  · have hlocations := (w.children t.frame.node).nodup_map_fst_locations
    rw [Frame.kids, List.map_map, List.map_map]
    have hsome := hlocations.map fun _ _ h => Option.some.inj h
    rw [List.map_map] at hsome
    exact hsome

/-- No two children have the same path. -/
theorem nodup_paths_kids (w : ForkJoin N D) (above : List (Task N D)) (t : Task N D) :
    ((w.kids t).map fun kid => (kid.way (t :: above)).path).Nodup := by
  have hdistinct := w.nodup_locations_kids t
  rw [List.Nodup, List.pairwise_map] at hdistinct ⊢
  refine hdistinct.imp_of_mem fun {kid kid'} hkid hkid' hne heq => hne ?_
  obtain ⟨l, hl, hpath⟩ := exists_location_of_mem_kids above hkid
  obtain ⟨l', hl', hpath'⟩ := exists_location_of_mem_kids above hkid'
  rw [hpath, hpath'] at heq
  rw [hl, hl', (List.cons.inj heq).1]

variable [Identified N] {e : Event N D} {es : List (Event N D)} {s : Strand N D}

/-- The callback with which a task begins. -/
theorem Step.waiting_event (h : w.Step above (.waiting t) e s) : e.path = (t.way above).path
    ∧ e.phase ≠ .leave ∧ e.after.frame.location = t.frame.location
    ∧ (s = .finished e.after
      ∨ e.phase = .enter ∧ s = .forked e.after ((w.kids e.after).map .waiting)) := by
  cases h with
  | backRef _ called =>
    exact ⟨path_way_congr above rfl, Phase.noConfusion, (location_of_call called).trans rfl,
      .inl rfl⟩
  | abort _ called =>
    exact ⟨path_way_congr above rfl, Phase.noConfusion, (location_of_call called).trans rfl,
      .inl rfl⟩
  | fork _ called _ =>
    exact ⟨path_way_congr above rfl, Phase.noConfusion, (location_of_call called).trans rfl,
      .inr ⟨rfl, rfl⟩⟩

/-- The callback with which a node is left. -/
theorem Step.leave_event {joined : List (Task N D)}
    (h : w.Step above (.forked t (joined.map .finished)) e s) : e.path = (t.way above).path
    ∧ e.phase = .leave ∧ e.after.frame.location = t.frame.location ∧ s = .finished e.after
    ∧ e.joined = joined ∧ e.context.above = above
    ∧ ∃ t', w.complete above t (joined.flatMap Task.toChildEdits) = .ok (t', e.copies)
      ∧ e.context.task = inPhase .leave t' := by
  obtain ⟨t', t'', copies, control, hcomplete, hcall, rfl, rfl⟩ := h.joined_cases rfl
  have hlocation := location_of_complete hcomplete
  exact ⟨path_way_congr above hlocation, rfl,
    (location_of_call hcall).trans hlocation, rfl, rfl, rfl, t', hcomplete, rfl⟩

/-- Every node is entered before and left after all that happens below it. -/
theorem Completes.nested (h : w.Completes above t es t') :
    Nested (t.way above).path (es.map Event.key) ∧ t'.frame.location = t.frame.location := by
  induction h with
  | @stops above t t' e step =>
    obtain ⟨hpath, hphase, hlocation, hs⟩ := step.waiting_event
    rcases hs with hs | ⟨-, hs⟩
    · obtain rfl := Strand.finished.inj hs
      refine ⟨?_, hlocation⟩
      rw [← hpath]
      exact .single hphase
    · nomatch hs
  | @joins above t t₁ t₂ first last parts es fork kids weaves _ leave ih =>
    obtain ⟨hfirst, -, hlocation, hs⟩ := fork.waiting_event
    rcases hs with hs | ⟨henter, hs⟩
    · nomatch hs
    obtain ⟨rfl, -⟩ := Strand.forked.inj hs
    obtain ⟨hlast, hleave, hlocation', hs', -⟩ := leave.leave_event
    obtain rfl := Strand.finished.inj hs'
    have hbase := path_way_congr above hlocation
    rw [hbase] at hlast
    refine ⟨?_, hlocation'.trans hlocation⟩
    have hkeys : (first :: es ++ [last]).map Event.key
        = ((t.way above).path, .enter) :: es.map Event.key ++ [((t.way above).path, .leave)] := by
      simp [Event.key, hfirst, henter, hlast, hleave]
    rw [hkeys, ← hbase]
    have hkid : ∀ part ∈ parts, part.task ∈ w.kids first.after := fun part hpart =>
      kids ▸ List.mem_map_of_mem hpart
    refine Nested.enclose (parts.map fun part =>
      ((part.task.way (first.after :: above)).path, part.events.map Event.key)) ?_ ?_ ?_ ?_
    · intro _ hmem
      obtain ⟨part, hpart, rfl⟩ := List.mem_map.1 hmem
      obtain ⟨l, -, hpath⟩ := exists_location_of_mem_kids above (hkid part hpart)
      exact ⟨l, hpath⟩
    · have hdistinct := w.nodup_paths_kids above first.after
      rw [← kids, List.map_map] at hdistinct
      rwa [List.map_map]
    · intro _ hmem
      obtain ⟨part, hpart, rfl⟩ := List.mem_map.1 hmem
      exact (ih part hpart).1
    · have hwoven := weaves.map Event.key
      rw [List.map_map] at hwoven ⊢
      exact hwoven

/-! ## What is joined -/

/-- What the last callback at a path has left of the task there. -/
def lastAt (es : List (Event N D)) (path : List Location) : Option (Task N D) :=
  (es.filter fun e => e.path = path).getLast?.map Event.after

/-- The event leaves a node whose children were forked by `entering`.  It joins the children
in order, one for each location, as their own last callbacks have left them.  What they hand
over is merged in this order into the node as `entering` has left it. -/
structure JoinsInOrder (w : ForkJoin N D) (es : List (Event N D)) (e entering : Event N D) :
    Prop where
  entered : entering ∈ es
  key : entering.key = (e.path, .enter)
  children : List.Forall₂ (fun kid done => ∃ l, kid.frame.location = some l
      ∧ done.frame.location = some l ∧ lastAt es (l :: e.path) = some done)
    (w.kids entering.after) e.joined
  merged : ∃ t, w.complete e.context.above entering.after (e.joined.flatMap Task.toChildEdits)
      = .ok (t, e.copies) ∧ e.context.task = inPhase .leave t

/-- A task's own last callback leaves it as it is in the end. -/
theorem Completes.leaves_final (h : w.Completes above t es t') :
    lastAt es (t.way above).path = some t' := by
  cases h with
  | stops step =>
    obtain ⟨hpath, -, -, hs⟩ := step.waiting_event
    rcases hs with hs | ⟨-, hs⟩
    · obtain rfl := Strand.finished.inj hs
      simp [lastAt, hpath]
    · nomatch hs
  | @joins _ _ t₁ _ first last parts es fork kids weaves completes leave =>
    obtain ⟨-, -, hlocation, hs⟩ := fork.waiting_event
    rcases hs with hs | ⟨-, hs⟩
    · nomatch hs
    obtain ⟨rfl, -⟩ := Strand.forked.inj hs
    obtain ⟨hlast, -, -, hs', -⟩ := leave.leave_event
    obtain rfl := Strand.finished.inj hs'
    rw [path_way_congr above hlocation] at hlast
    rw [lastAt, List.filter_append, List.filter_singleton, decide_eq_true hlast]
    simp

omit [Identified N] in
/-- The callbacks at a path within one child are those of this child. -/
theorem filter_path_of_weaves {parts : List (Part N D)} (kids : parts.map Part.task = w.kids t)
    (weaves : Weaves (parts.map Part.events) es)
    (hnested : ∀ part ∈ parts,
      Nested (part.task.way (t :: above)).path (part.events.map Event.key))
    {part : Part N D} (hpart : part ∈ parts) {path : List Location}
    (hpath : (part.task.way (t :: above)).path <:+ path) :
    (es.filter fun e => e.path = path) = part.events.filter fun e => e.path = path := by
  obtain ⟨before, after, rfl⟩ := List.append_of_mem hpart
  rw [List.map_append, List.map_cons] at weaves
  refine weaves.filter_eq fun _ hmem e he => decide_eq_false fun heq => ?_
  rw [← List.map_append, List.mem_map] at hmem
  obtain ⟨other, hother, rfl⟩ := hmem
  have hmem : other ∈ before ++ part :: after := by
    rcases List.mem_append.1 hother with h | h
    · exact List.mem_append_left _ h
    · exact List.mem_append_right _ (List.mem_cons_of_mem _ h)
  have hsuffix := (hnested other hmem).below _ (List.mem_map_of_mem he)
  rw [show e.key.1 = path from heq] at hsuffix
  have hkid : ∀ other ∈ before ++ part :: after, other.task ∈ w.kids t := fun other hother =>
    kids ▸ List.mem_map_of_mem hother
  obtain ⟨l, -, hl⟩ := exists_location_of_mem_kids above (hkid part hpart)
  obtain ⟨l', -, hl'⟩ := exists_location_of_mem_kids above (hkid other hmem)
  rw [hl] at hpath
  rw [hl'] at hsuffix
  have hdistinct := w.nodup_paths_kids above t
  rw [← kids, List.map_map, List.map_append, List.map_cons] at hdistinct
  have hnot := (List.nodup_middle.1 hdistinct)
  rw [List.nodup_cons, ← List.map_append] at hnot
  refine hnot.1 (List.mem_map.2 ⟨other, hother, ?_⟩)
  show (other.task.way (t :: above)).path = (part.task.way (t :: above)).path
  rw [hl, hl', location_unique hpath hsuffix]

/-- Whenever a node is left, its children are joined in order. -/
theorem Completes.joins_in_order (h : w.Completes above t es t') :
    ∀ e ∈ es, e.phase = .leave → ∃ entering, w.JoinsInOrder es e entering := by
  induction h with
  | @stops above t t' e step =>
    intro e he hleave
    obtain rfl := List.mem_singleton.1 he
    exact absurd hleave step.waiting_event.2.1
  | @joins above t t₁ t₂ first last parts es fork kids weaves completes leave ih =>
    obtain ⟨hfirst, -, hlocation, hs⟩ := fork.waiting_event
    rcases hs with hs | ⟨henter, hs⟩
    · nomatch hs
    obtain ⟨rfl, -⟩ := Strand.forked.inj hs
    obtain ⟨hlast, hleave, -, -, hjoined, habove, hmerged⟩ := leave.leave_event
    rw [path_way_congr above hlocation] at hlast
    have hkid : ∀ part ∈ parts, part.task ∈ w.kids first.after := fun part hpart =>
      kids ▸ List.mem_map_of_mem hpart
    have hbase := path_way_congr above hlocation
    have hlift : ∀ part ∈ parts, ∀ path, (part.task.way (first.after :: above)).path <:+ path →
        lastAt (first :: es ++ [last]) path = lastAt part.events path := by
      intro part hpart path hpath
      obtain ⟨l, -, hl⟩ := exists_location_of_mem_kids above (hkid part hpart)
      have hne : (t.way above).path ≠ path := by
        rintro rfl
        have hlength := hpath.length_le
        rw [hl, hbase, List.length_cons] at hlength
        exact absurd hlength (Nat.not_succ_le_self _)
      have hwhole : ((first :: es ++ [last]).filter fun e => e.path = path)
          = es.filter fun e => e.path = path := by
        simp [hfirst, hlast, hne]
      rw [lastAt, hwhole, filter_path_of_weaves kids weaves
        (fun part hpart => (completes part hpart).nested.1) hpart hpath, lastAt]
    intro e he heleave
    rw [List.cons_append, List.mem_cons, List.mem_append, List.mem_singleton] at he
    rcases he with rfl | he | rfl
    · exact absurd (henter.symm.trans heleave) (by simp)
    · obtain ⟨_, hmem, he⟩ := weaves.mem_iff.1 he
      obtain ⟨part, hpart, rfl⟩ := List.mem_map.1 hmem
      obtain ⟨entering, hentered, hkey, hchildren, hmerged⟩ := ih part hpart e he heleave
      have hbelow := (completes part hpart).nested.1.below _ (List.mem_map_of_mem he)
      refine ⟨entering, ?_, hkey, hchildren.imp ?_, hmerged⟩
      · have hin := weaves.mem_iff.2 ⟨_, hmem, hentered⟩
        exact List.mem_append_left _ (List.mem_cons_of_mem _ hin)
      · rintro kid done ⟨l, hl, hl', hdone⟩
        exact ⟨l, hl, hl', (hlift part hpart _ (hbelow.trans (List.suffix_cons l _))).trans hdone⟩
    · refine ⟨first, by simp, ?_, ?_, ?_⟩
      · rw [Event.key, hfirst, henter, hlast]
      · rw [hjoined, ← kids, List.forall₂_map_left_iff, List.forall₂_map_right_iff,
          List.forall₂_same]
        intro part hpart
        obtain ⟨l, hl, hpath⟩ := exists_location_of_mem_kids above (hkid part hpart)
        obtain ⟨-, hfinal⟩ := (completes part hpart).nested
        refine ⟨l, hl, hfinal.trans hl, ?_⟩
        have hdone := (completes part hpart).leaves_final
        rw [hpath, hbase] at hdone
        rw [hlast, hlift part hpart _ (by simp [hpath, hbase]), hdone]
      · rw [hjoined, habove]
        exact hmerged

end ForkJoin

/-! ## Whole walks -/

namespace ForkJoin

variable [Identified N]

/-- An interleaving of a walk from a root: its callbacks in the order in which they were
made, and the root's task as it is in the end. -/
def Interleaving (w : ForkJoin N D) (root : N) (es : List (Event N D)) (final : Task N D) : Prop :=
  w.Runs [] (.waiting (.ofFrame (.root root w.fresh))) es (.finished final)

end ForkJoin

variable [Identified N]

/-- The order in which the tasks of a fork-join walk run makes no difference.  If the walk
from left to right comes to an end, it does so in some interleaving.  A walk that comes to
an end in one interleaving comes to the same end in every other one, however far that has
got, with the same callbacks, and this is what the walk from left to right tells: the same
task and so the same tree, the same number of entered nodes, the same callbacks with the
same contexts, the same copies.  In each interleaving no callback is made twice, every node
is entered before and left after all that happens below it, and whenever a node is left,
what its children hand over is merged in the order of the children, each once. -/
theorem interleavings_agree (w : ForkJoin N D) (root : N) :
    (∀ levels v, w.walk levels root = .done v → ∃ es, w.Interleaving root es v.task)
    ∧ ∀ es final, w.Interleaving root es final →
      (∃ v, Run.Settles (fun levels => w.walk levels root) (.done v) ∧ v.Tells es final
          ∧ v.tree = final.frame.node)
      ∧ (∀ made s, w.Runs [] (.waiting (.ofFrame (.root root w.fresh))) made s →
          w.Resumes [] s made es final)
      ∧ (∀ es' final', w.Interleaving root es' final' → final' = final ∧ es'.Perm es)
      ∧ Nested [] (es.map Event.key)
      ∧ ∀ e ∈ es, e.phase = .leave → ∃ entering, w.JoinsInOrder es e entering := by
  refine ⟨fun levels v hv => ?_, fun es final h => ?_⟩
  · obtain ⟨es, hes⟩ := ForkJoin.exists_completes hv
    obtain ⟨more, hmore, -⟩ := hes.resumes [] _ (.refl _)
    exact ⟨more, hmore⟩
  have hcompletes := ForkJoin.Runs.completes h
  refine ⟨?_, hcompletes.resumes, fun es' final' h' => ?_, hcompletes.nested.1,
    hcompletes.joins_in_order⟩
  · obtain ⟨v, hv, htells⟩ := hcompletes.tells
    exact ⟨v, hv.settles, htells, congrArg (fun t => t.frame.node) htells.task⟩
  · obtain ⟨more, hmore, hperm⟩ := hcompletes.resumes _ _ h'
    obtain ⟨rfl, hfinal⟩ := hmore.of_finished
    rw [List.append_nil] at hperm
    exact ⟨(Strand.finished.inj hfinal).symm, hperm⟩

/-- Puts a node after each node without children, when it leaves it. -/
def TaskVisitor.budding : TaskVisitor Tree Unit := fun c =>
  .ok ⟨.proceed,
    if c.task.frame.phase = .leave ∧ c.task.frame.node.isLeaf then
      [.insertAfter (.node (.given 9) "x" [])]
    else [], ()⟩

/-- The hedge buds in the same places in whatever order its nodes are visited. -/
theorem budding_interleavings_agree :
    ∃ es final, (ForkJoin.transforming Tree.adapter .budding 0 () ()).Interleaving Tree.hedge es final
      ∧ final.frame.node.render = "a(b(d,x,e,x),c(d,x))"
      ∧ ∀ es' final', (ForkJoin.transforming Tree.adapter .budding 0 () ()).Interleaving
          Tree.hedge es' final' → final' = final ∧ es'.Perm es := by
  have hwalk : (fun v : Visit Tree Unit => v.task.frame.node.render) <$>
      (ForkJoin.transforming Tree.adapter .budding 0 () ()).walk 4 Tree.hedge
        = .done "a(b(d,x,e,x),c(d,x))" := by cbv
  obtain ⟨v, hv, hrender⟩ := (Run.map_eq_done_iff _ _ _).1 hwalk
  obtain ⟨hexists, hagree⟩ :=
    interleavings_agree (ForkJoin.transforming Tree.adapter .budding 0 () ()) Tree.hedge
  obtain ⟨es, hes⟩ := hexists 4 v hv
  exact ⟨es, v.task, hes, hrender, (hagree es v.task hes).2.2.1⟩

end

end Topiary
