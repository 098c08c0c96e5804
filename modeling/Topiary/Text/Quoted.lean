/-
Topiary.Text.Quoted — texts in quotes, on one line and without surprises.

A quoted text shows every character so that it can be told from any other:
quotes and backslashes stand behind a backslash, four control characters
have a letter, and a character that cannot be seen by itself is shown by
its number in hexadecimal.
-/
import Topiary.Text.Extending
import Topiary.Text.Ignorable
import Topiary.Text.Unprintable

namespace Topiary.Text

/-- The letter that stands for a character behind a backslash. -/
def escapeLetter? (c : Char) : Option Char :=
  if c = '"' ∨ c = '\\' then some c
  else if c = '\n' then some 'n'
  else if c = '\r' then some 'r'
  else if c = '\t' then some 't'
  else if c.toNat = 0 then some '0'
  else none

/-- A character cannot be seen by itself: it joins the character before it,
is ignored, or shows nothing. -/
def needsNumber (c : Char) : Bool := isExtending c || isIgnorable c || isUnprintable c

/-- A character of a quoted text. -/
def escapeChar (c : Char) : List Char :=
  match escapeLetter? c with
  | some letter => ['\\', letter]
  | none =>
    if needsNumber c then
      '\\' :: 'u' :: '\x7b' :: Nat.toDigits 16 c.toNat ++ ['\x7d']
    else [c]

/-- A text in quotes. -/
def quote (s : String) : String :=
  String.ofList ('"' :: s.toList.flatMap escapeChar ++ ['"'])

/-- The visible characters of ASCII show themselves. -/
theorem needsNumber_ascii (c : Char) (h : 32 ≤ c.toNat ∧ c.toNat < 127) :
    needsNumber c = false := by
  rw [needsNumber, isExtending_ascii c (by omega), isIgnorable_ascii c (by omega),
    isUnprintable_ascii c h]
  rfl

end Topiary.Text
