/-
Topiary.Text.CodeRange — sets of characters given by ranges of code points.

Properties of characters are listed as closed ranges.  The ranges of a
property ascend and do not touch, so each property has one list.
-/

namespace Topiary.Text

/-- Closed ranges of code points. -/
abbrev CodeRanges := List (Nat × Nat)

namespace CodeRanges

/-- The ranges ascend from `start` on, and between two of them something is
left out. -/
def ascendsFrom (start : Nat) : CodeRanges → Bool
  | [] => true
  | (first, last) :: rest =>
    decide (start ≤ first ∧ first ≤ last) && ascendsFrom (last + 2) rest

/-- The code point of a character lies in a range. -/
def contains (ranges : CodeRanges) (c : Char) : Bool :=
  ranges.any fun r => r.1 ≤ c.toNat && c.toNat ≤ r.2

/-- Nothing in front of ascending ranges is in them. -/
theorem contains_eq_false_of_lt {ranges : CodeRanges} {start : Nat} {c : Char}
    (h : ranges.ascendsFrom start) (hc : c.toNat < start) :
    ranges.contains c = false := by
  induction ranges generalizing start with
  | nil => rfl
  | cons r rest ih =>
    obtain ⟨first, last⟩ := r
    simp only [ascendsFrom, Bool.and_eq_true, decide_eq_true_eq] at h
    have hrest : contains rest c = false := ih h.2 (by omega)
    have hfirst : ¬first ≤ c.toNat := by omega
    simpa [contains, hfirst] using hrest

end CodeRanges

end Topiary.Text
