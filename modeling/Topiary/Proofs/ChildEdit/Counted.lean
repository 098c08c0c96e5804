/-
Topiary.Proofs.ChildEdit.Counted — groups that words can count.

Positions in words are right as long as no group outgrows the words.  A list in
memory never does: it holds fewer than `2 ^ 63` nodes, unless they take no room
at all.  The lists here may be of any length, so that the bound is a condition,
on all groups and at every point of a batch.  Integers count everything.

* `word_eq` — the word that an integer gives, by remainder.
* `Reckoning.Counts`, `NamedChildren.CountedBy`, `EditPass.StaysCounted` — the
  condition; `EditPass.staysCounted_start` — it holds of all batches that are short
  enough.
* `Reckoning.locate_child` — a child that exists is found where it stands.
* `Reckoning.locate_beyond`, `Reckoning.locate_around`, `Reckoning.locate_overflow`
  — an index past the end is out of bounds, but for two cases.
-/
import Mathlib.Algebra.Group.Int.Defs
import Mathlib.Algebra.Group.Nat.Defs
import Topiary.ChildEdit
import Topiary.Proofs.Children.Spread

namespace Topiary

/-! ## Words -/

theorem word_eq (x : Int) : word x = (x + 2 ^ 63) % 2 ^ 64 - 2 ^ 63 := by
  rw [word, Int64.toInt_ofInt, Int.bmod_def]
  unfold Int64.size
  split <;> omega

theorem word_of_lt {x : Int} (hlow : -2 ^ 63 ≤ x) (hhigh : x < 2 ^ 63) : word x = x := by
  rw [word_eq]
  omega

theorem word_of_le {x : Int} (hlow : 2 ^ 63 ≤ x) (hhigh : x < 2 ^ 64) :
    word x = x - 2 ^ 64 := by
  rw [word_eq]
  omega

/-- A word is kept. -/
theorem Overflow.settle_of_word (o : Overflow) (operation : Operation) {x : Int}
    (hlow : -2 ^ 63 ≤ x) (hhigh : x < 2 ^ 63) : o.settle operation x = .ok x := by
  cases o <;> simp [settle, word_of_lt hlow hhigh]

/-! ## Numbers of children -/

/-- The reckoning has `n` among its numbers. -/
def Reckoning.Counts (n : Nat) : Reckoning → Prop
  | words _ => n < 2 ^ 63
  | integers => True

instance (r : Reckoning) (n : Nat) : Decidable (r.Counts n) :=
  match r with
  | .words _ => inferInstanceAs (Decidable (n < 2 ^ 63))
  | .integers => inferInstanceAs (Decidable True)

theorem Reckoning.Counts.mono {r : Reckoning} {m n : Nat} (h : r.Counts n) (hmn : m ≤ n) :
    r.Counts m := by
  cases r with
  | words o => exact Nat.lt_of_le_of_lt hmn h
  | integers => trivial

/-- The reckoning counts the children of every group. -/
def NamedChildren.CountedBy {N : Type} (r : Reckoning) (c : NamedChildren N) : Prop :=
  ∀ g ∈ c.groups, r.Counts g.2.length

theorem NamedChildren.countedBy_integers {N : Type} (c : NamedChildren N) :
    c.CountedBy .integers :=
  fun _ _ => trivial

/-! ## Positions -/

namespace Reckoning

variable {r : Reckoning} {l : Location} {n length position : Nat} {shift : Int}

theorem sizeBefore_eq (hlength : (length : Int) = n + shift) (hbefore : r.Counts n)
    (hnow : r.Counts length) : r.sizeBefore length shift = .ok n := by
  have hsize : (length - shift : Int) = n := by omega
  cases r with
  | words o =>
    have hn : n < 2 ^ 63 := hbefore
    have hl : length < 2 ^ 63 := hnow
    rw [sizeBefore, word_of_lt (by omega) (by omega), hsize,
      o.settle_of_word .subtract (by omega) (by omega)]
    rfl
  | integers =>
    rw [sizeBefore, hsize]
    rfl

theorem locate_inside (h : r.position length l.index shift = .ok position)
    (hin : position < length) : r.locate l length shift = .ok position := by
  have hin' : (0 : Int) ≤ position ∧ (position : Int) < length := by omega
  rw [locate, h]
  simp [bind, Except.bind, pure, Except.pure, hin']

theorem locate_outside {x : Int} (hlength : (length : Int) = n + shift) (hbefore : r.Counts n)
    (hnow : r.Counts length) (h : r.position length l.index shift = .ok x)
    (hout : ¬ (0 ≤ x ∧ x < length)) :
    r.locate l length shift = .error (.failure (.childOutOfBounds l.group l.index n)) := by
  rw [locate, h, sizeBefore_eq hlength hbefore hnow]
  simp only [bind, Except.bind, if_neg hout]
  rfl

/-- What is found lies in the group. -/
theorem lt_of_locate (h : r.locate l length shift = .ok position) : position < length := by
  obtain ⟨x, -, h⟩ := bind_eq_ok_iff.1 h
  split at h
  · obtain rfl := Except.ok.inj h
    omega
  · obtain ⟨size, -, h⟩ := bind_eq_ok_iff.1 h
    cases h

/-- A child that the group had before is found where it stands. -/
theorem locate_child (hlength : (length : Int) = n + shift) (hbefore : r.Counts n)
    (hnow : r.Counts length) (hindex : l.index < n) (hposition : (position : Int) = l.index + shift)
    (hin : position < length) : r.locate l length shift = .ok position := by
  refine locate_inside ?_ hin
  cases r with
  | words o =>
    have hn : n < 2 ^ 63 := hbefore
    have hl : length < 2 ^ 63 := hnow
    rw [Reckoning.position, word_of_lt (by omega) (by omega), ← hposition,
      o.settle_of_word .add (by omega) (by omega)]
  | integers =>
    rw [Reckoning.position, if_pos (by omega), hposition]

/-- An index past the end that reads as a negative number, in a group that has grown
so much that the sum is none: the position has come around. -/
theorem locate_around (hlength : (length : Int) = n + shift) (hbefore : r.Counts n)
    (hnow : r.Counts length) (hbeyond : n ≤ l.index) (hword : l.index < 2 ^ 64)
    (hhigh : 2 ^ 63 ≤ l.index) (hposition : (position : Int) = l.index + shift - 2 ^ 64) :
    r.locate l length shift = .ok position := by
  refine locate_inside ?_ (by omega)
  cases r with
  | words o =>
    have hn : n < 2 ^ 63 := hbefore
    have hl : length < 2 ^ 63 := hnow
    rw [Reckoning.position, word_of_le (by omega) (by omega),
      o.settle_of_word .add (by omega) (by omega)]
    exact congrArg Except.ok (by omega)
  | integers =>
    rw [Reckoning.position, if_neg (by omega), word_of_le (by omega) (by omega)]
    exact congrArg Except.ok (by omega)

/-- The sum of the index, read as a word, and the shift is held by no word if the sum
of the two numbers is on the other side of the middle.  Words that stop are at their
end. -/
theorem locate_overflow (hlength : (length : Int) = n + shift)
    (hbefore : (words .stops).Counts n) (hbeyond : n ≤ l.index) (hword : l.index < 2 ^ 64)
    (hcross : l.index < 2 ^ 63 ↔ (2 ^ 63 : Int) ≤ l.index + shift) :
    (words .stops).locate l length shift = .error (.misuse (.overflow .add)) := by
  have hn : n < 2 ^ 63 := hbefore
  have hsum : word (word l.index + shift) ≠ word l.index + shift := by
    rw [word_eq, word_eq]
    omega
  rw [locate, position, Overflow.settle, if_neg hsum]
  rfl

/-- Any other index past the end is out of bounds. -/
theorem locate_beyond (hlength : (length : Int) = n + shift) (hbefore : r.Counts n)
    (hnow : r.Counts length) (hbeyond : n ≤ l.index) (hword : l.index < 2 ^ 64)
    (hround : ¬ (2 ^ 63 ≤ l.index ∧ (2 ^ 64 : Int) ≤ l.index + shift))
    (hstays : r = words .stops → ¬ (l.index < 2 ^ 63 ↔ (2 ^ 63 : Int) ≤ l.index + shift)) :
    r.locate l length shift = .error (.failure (.childOutOfBounds l.group l.index n)) := by
  have hindex : (l.index < 2 ^ 63 ∧ word l.index = l.index)
      ∨ (2 ^ 63 ≤ l.index ∧ word l.index = l.index - 2 ^ 64) := by
    rw [word_eq]
    omega
  cases r with
  | integers =>
    refine locate_outside hlength hbefore hnow (x := word l.index + shift) ?_ (by omega)
    rw [position, if_neg (by omega)]
  | words o =>
    have hn : n < 2 ^ 63 := hbefore
    have hl : length < 2 ^ 63 := hnow
    cases o with
    | stops =>
      have hcross := hstays rfl
      refine locate_outside hlength hbefore hnow (x := word l.index + shift) ?_ (by omega)
      rw [position, Overflow.settle_of_word _ _ (by omega) (by omega)]
    | wraps =>
      have hwrap := word_eq (word l.index + shift)
      refine locate_outside hlength hbefore hnow (x := word (word l.index + shift)) ?_ (by omega)
      rw [position, Overflow.settle]

end Reckoning

/-! ## Batches -/

/-- An edit inside of a list changes its length by its growth. -/
theorem EditKind.length_perform {N : Type} (kind : EditKind) (node : N) {nodes : List N}
    {position : Nat} (h : position < nodes.length) :
    ((kind.perform position node nodes).length : Int) = nodes.length + kind.growth := by
  cases kind with
  | replace => simp [perform, growth]
  | delete =>
    rw [perform, List.length_eraseIdx_of_lt h, growth]
    omega
  | insertBefore =>
    rw [perform, List.length_insertIdx_of_le_length (Nat.le_of_lt h), growth]
    omega
  | insertAfter =>
    rw [perform, List.length_insertIdx_of_le_length h, growth]
    omega

namespace EditPass

variable {N : Type} {r : Reckoning} {p q : EditPass N} {edits : List (ChildEdit N)}
  {e : ChildEdit N}

/-- An edit that is carried out is carried out inside of its group. -/
theorem exists_of_step (h : p.step r e = .ok q) :
    ∃ nodes position, p.children.get? e.location.group = some nodes ∧ position < nodes.length
      ∧ q = p.perform e position := by
  unfold step at h
  split at h
  · cases h
  · cases hget : p.children.get? e.location.group with
    | none =>
      rw [hget] at h
      cases h
    | some nodes =>
      simp only [hget, map_eq_ok_iff] at h
      obtain ⟨position, hlocate, rfl⟩ := h
      exact ⟨nodes, position, rfl, Reckoning.lt_of_locate hlocate, rfl⟩

/-- The reckoning counts every group at every point of a run, up to its end or the first
fault. -/
def StaysCounted (r : Reckoning) : EditPass N → List (ChildEdit N) → Prop
  | p, [] => p.children.CountedBy r
  | p, e :: es => p.children.CountedBy r ∧ ∀ q, p.step r e = .ok q → StaysCounted r q es

theorem StaysCounted.counted (h : p.StaysCounted r edits) : p.children.CountedBy r := by
  cases edits with
  | nil => exact h
  | cons e es => exact h.1

/-- Integers count all groups. -/
theorem staysCounted_integers (p : EditPass N) (edits : List (ChildEdit N)) :
    p.StaysCounted .integers edits := by
  induction edits generalizing p with
  | nil => exact p.children.countedBy_integers
  | cons e es ih => exact ⟨p.children.countedBy_integers, fun q _ => ih q⟩

/-- An edit makes its group longer by its growth and leaves the other groups. -/
theorem exists_group_of_step (h : p.step r e = .ok q) {g : GroupName × List N}
    (hg : g ∈ q.children.groups) : ∃ nodes, (g.1, nodes) ∈ p.children.groups
      ∧ (g.2.length : Int) = nodes.length
        + if e.location.group = g.1 then e.kind.growth else 0 := by
  obtain ⟨nodes, position, hget, hin, rfl⟩ := exists_of_step h
  obtain ⟨⟨group, nodes'⟩, hg', rfl⟩ := List.mem_map.1 hg
  refine ⟨nodes', ?_⟩
  by_cases hname : group = e.location.group
  · subst hname
    obtain rfl : nodes' = nodes :=
      p.children.eq_of_mem_groups hg' ((p.children.get?_eq_some_iff _ _).1 hget)
    rw [if_pos rfl, if_pos rfl]
    exact ⟨hg', e.kind.length_perform e.node hin⟩
  · rw [if_neg hname, if_neg (Ne.symm hname), Int.add_zero]
    exact ⟨hg', rfl⟩

/-- It is enough that every group is short enough to take in one node for each edit. -/
theorem staysCounted_of_length
    (h : ∀ g ∈ p.children.groups, r.Counts (g.2.length + edits.length)) :
    p.StaysCounted r edits := by
  induction edits generalizing p with
  | nil => exact h
  | cons e es ih =>
    refine ⟨fun g hg => (h g hg).mono (Nat.le_add_right _ _), fun q hstep => ih fun g hg => ?_⟩
    obtain ⟨nodes, hnodes, hlength⟩ := exists_group_of_step hstep hg
    have hgrowth : e.kind.growth ≤ 1 := by cases e.kind <;> decide
    have hroom : r.Counts (nodes.length + (es.length + 1)) := h _ hnodes
    refine hroom.mono ?_
    split at hlength <;> omega

theorem staysCounted_start {c : NamedChildren N}
    (h : ∀ g ∈ c.groups, r.Counts (g.2.length + edits.length)) :
    (start c).StaysCounted r (ChildEdit.inOrder edits) := by
  refine staysCounted_of_length fun g hg => ?_
  rw [ChildEdit.inOrder, List.length_mergeSort]
  exact h g hg

end EditPass

end Topiary
