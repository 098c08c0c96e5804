/-
Topiary.Reckoning — the numbers with which positions are reckoned.

A batch of edits names children by the places they had before it, and moves
them as it goes.  Where a child stands by then is a sum that can be negative,
so an index, which is a 64-bit word without a sign, is read as one with a sign.

* `word` — the word with a sign; an index from `2 ^ 63` on is a negative one.
* `Overflow` — what becomes of a sum that no word holds: the program stops, or
  the sum wraps around.
* `Reckoning` — words, with one or the other, or integers.  Integers are for
  trees as mathematical objects, whose groups may be of any length: a child of
  the group keeps its own index and no sum overflows.  Below `2 ^ 63` children
  both are the same.
* `Reckoning.locate` — where the child of a location stands by now.
-/
import Topiary.Fault

namespace Topiary

/-- The word of 64 bits with a sign that equals `x` modulo `2 ^ 64`. -/
def word (x : Int) : Int := (Int64.ofInt x).toInt

/-- What becomes of a result that no word holds. -/
inductive Overflow where
  /-- The program stops. -/
  | stops
  /-- The result wraps around. -/
  | wraps
deriving DecidableEq, Repr

/-- The word for the result `x` of an operation. -/
def Overflow.settle (operation : Operation) (x : Int) : Overflow → Except Fault Int
  | stops => if word x = x then .ok x else .error (.misuse (.overflow operation))
  | wraps => .ok (word x)

/-- How positions are reckoned. -/
inductive Reckoning where
  /-- In words of 64 bits with a sign. -/
  | words (overflow : Overflow)
  /-- In integers of any size. -/
  | integers
deriving DecidableEq, Repr

namespace Reckoning

/-- The position that an index stands for in a group of `length` children which
have moved by `shift`. -/
def position (length index : Nat) (shift : Int) : Reckoning → Except Fault Int
  | words o => o.settle .add (word index + shift)
  | integers =>
    .ok ((if (index : Int) < length - shift then (index : Int) else word index) + shift)

/-- The size of the group before it has moved. -/
def sizeBefore (length : Nat) (shift : Int) : Reckoning → Except Fault Nat
  | words o => (o.settle .subtract (word length - shift)).map Int.toNat
  | integers => .ok (length - shift : Int).toNat

/-- Where the child of a location stands in a group of `length` children which
have moved by `shift`.  A position out of bounds is reported with the size of
the group before. -/
def locate (r : Reckoning) (l : Location) (length : Nat) (shift : Int) : Except Fault Nat := do
  let position ← r.position length l.index shift
  if 0 ≤ position ∧ position < length then
    return position.toNat
  else
    throw (.failure (.childOutOfBounds l.group l.index (← r.sizeBefore length shift)))

end Reckoning

end Topiary
