/-
Topiary.Text.Line — the first line of a text.

A line ends at a line feed; a carriage return in front of the line feed
belongs to the line's end, one anywhere else to the line itself.
-/

namespace Topiary.Text

/-- The characters in front of the first line end. -/
def untilLineEnd : List Char → List Char
  | [] => []
  | '\n' :: _ => []
  | '\r' :: '\n' :: _ => []
  | c :: rest => c :: untilLineEnd rest

/-- The first line of a text, without its end. -/
def firstLine (s : String) : String := String.ofList (untilLineEnd s.toList)

/-- A first line holds no line feed. -/
theorem lineFeed_notMem_untilLineEnd (cs : List Char) : '\n' ∉ untilLineEnd cs := by
  fun_induction untilLineEnd cs with
  | case1 => simp
  | case2 => simp
  | case3 => simp
  | case4 c rest hfeed _ ih =>
    have hc : '\n' ≠ c := fun h => hfeed h.symm
    simp [hc, ih]

/-- A text without line feeds is its own first line. -/
theorem untilLineEnd_eq_self (cs : List Char) (h : '\n' ∉ cs) : untilLineEnd cs = cs := by
  fun_induction untilLineEnd cs with
  | case1 => rfl
  | case2 => simp at h
  | case3 => simp at h
  | case4 c rest _ _ ih =>
    simp only [List.mem_cons, not_or] at h
    rw [ih h.2]

end Topiary.Text
