/-
Topiary.Record — self-describing data and how values are read from it.

`Datum` is the data that options and small values are stored as.  Reading
follows three rules:

* a structure is a record of its fields, of which unknown ones are passed
  over, or a list of its fields in order; a field with a default may be
  missing, in a list only from the end;
* a choice without content is its name, or a record of its name with
  nothing in it; a choice with content is a record of its name with the
  content;
* numbers that count are whole and have 64 bits.

`none` means that the data are refused.
-/
import Topiary.Location

namespace Topiary

/-- Self-describing data. -/
inductive Datum where
  | nothing
  | bool (value : Bool)
  | int (value : Int)
  /-- A number that is not written as a whole number. -/
  | fraction
  | text (value : String)
  | list (items : List Datum)
  | record (fields : List (String × Datum))
deriving Repr, Inhabited

namespace Datum

/-- A truth value. -/
def bool? : Datum → Option Bool
  | bool value => some value
  | _ => none

/-- A text. -/
def text? : Datum → Option String
  | text value => some value
  | _ => none

/-- A number that counts: whole, not negative, of 64 bits. -/
def count? : Datum → Option Nat
  | int value =>
    if 0 ≤ value ∧ value < 0x10000000000000000 then some value.toNat else none
  | _ => none

/-- Nothing, or what `read` makes of the data. -/
def optional? {α : Type} (read : Datum → Option α) : Datum → Option (Option α)
  | nothing => some none
  | d => (read d).map some

/-- The fields of a structure by name, from a record or from a list. -/
def fields? (names : List String) : Datum → Option (List (String × Datum))
  | record fields => some fields
  | list items =>
    if items.length ≤ names.length then some (names.zip items) else none
  | _ => none

/-- A field that may be missing. -/
def fieldOr? {α : Type} (name : String) (default : α) (read : Datum → Option α)
    (fields : List (String × Datum)) : Option α :=
  match fields.lookup name with
  | none => some default
  | some d => read d

/-- A field that must be there. -/
def field? {α : Type} (name : String) (read : Datum → Option α)
    (fields : List (String × Datum)) : Option α :=
  (fields.lookup name).bind read

/-- A choice by its name, with its content if it has one. -/
def choice? : Datum → Option (String × Option Datum)
  | text name => some (name, none)
  | record [(name, content)] => some (name, some content)
  | _ => none

/-- A choice without content. -/
def plainChoice? (d : Datum) : Option String :=
  match d.choice? with
  | some (name, none) => some name
  | some (name, some nothing) => some name
  | _ => none

end Datum

/-! ## Group names and locations -/

namespace GroupName

/-- A group name from data. -/
def ofDatum? (d : Datum) : Option GroupName :=
  match d.plainChoice?, d.choice? with
  | some "Unnamed", _ => some .unnamed
  | _, some ("Named", some (.text name)) => some (.named name)
  | _, _ => none

/-- A group name as data. -/
def toDatum : GroupName → Datum
  | unnamed => .text "Unnamed"
  | named name => .record [("Named", .text name)]

end GroupName

namespace Location

/-- A location from data; both fields are needed. -/
def ofDatum? (d : Datum) : Option Location := do
  let fields ← d.fields? ["group", "index"]
  let group ← Datum.field? "group" GroupName.ofDatum? fields
  let index ← Datum.field? "index" Datum.count? fields
  return ⟨group, index⟩

/-- A location as data. -/
def toDatum (l : Location) : Datum :=
  .record [("group", l.group.toDatum), ("index", .int l.index)]

end Location

end Topiary
