/-
Topiary.Vars — at most one value of each kind.

Visitors leave values on the contexts of a walk for later callbacks.  A
value is stored under its kind, so kinds never shadow each other.
-/

namespace Topiary

/-- The kinds of values that can be stored. -/
inductive VarKind where
  | int
  | str
  | bool
deriving DecidableEq, Repr

/-- The values of a kind.  Integers have 64 bits. -/
def VarKind.Carrier : VarKind → Type
  | int => Int
  | str => String
  | bool => Bool

/-- A value together with its kind. -/
inductive VarValue where
  | int (value : Int)
  | str (value : String)
  | bool (value : Bool)
deriving DecidableEq, Repr

namespace VarValue

/-- The kind of a value. -/
def kind : VarValue → VarKind
  | int _ => .int
  | str _ => .str
  | bool _ => .bool

/-- The value without its kind. -/
def content : (v : VarValue) → v.kind.Carrier
  | int value => value
  | str value => value
  | bool value => value

/-- A value of a known kind. -/
def ofContent : (kind : VarKind) → kind.Carrier → VarValue
  | .int, value => .int value
  | .str, value => .str value
  | .bool, value => .bool value

end VarValue

/-- One optional value of each kind. -/
structure Vars where
  get? : (kind : VarKind) → Option kind.Carrier

namespace Vars

/-- Nothing stored. -/
def empty : Vars := ⟨fun _ => none⟩

instance : Inhabited Vars := ⟨empty⟩

/-- Store or remove the value of one kind. -/
def put (vars : Vars) (kind : VarKind) (value : Option kind.Carrier) : Vars where
  get? := fun k => if h : kind = k then h ▸ value else vars.get? k

/-- Store a value. -/
def insert (vars : Vars) (value : VarValue) : Vars :=
  vars.put value.kind (some value.content)

/-- Remove the value of a kind. -/
def erase (vars : Vars) (kind : VarKind) : Vars := vars.put kind none

/-- The value of a kind, with its kind. -/
def find? (vars : Vars) (kind : VarKind) : Option VarValue :=
  (vars.get? kind).map (VarValue.ofContent kind)

/-- A value of this kind is stored. -/
def contains (vars : Vars) (kind : VarKind) : Bool := (vars.get? kind).isSome

/-- The number of values stored. -/
def size (vars : Vars) : Nat := [VarKind.int, .str, .bool].countP vars.contains

/-- Add to the stored integer, wrapping around at 64 bits; without one
nothing happens. -/
def increase (vars : Vars) (amount : Int) : Vars :=
  match vars.get? .int with
  | none => vars
  | some (value : Int) => vars.insert (.int (Int.bmod (value + amount) 0x10000000000000000))

/-- Add a text at the end of the stored one; without one nothing happens. -/
def extendText (vars : Vars) (text : String) : Vars :=
  match vars.get? .str with
  | none => vars
  | some (value : String) => vars.insert (.str (value ++ text))

theorem get?_put_self (vars : Vars) (kind : VarKind) (value : Option kind.Carrier) :
    (vars.put kind value).get? kind = value := by
  simp [put]

theorem get?_put_of_ne (vars : Vars) {kind k : VarKind} (value : Option kind.Carrier)
    (h : kind ≠ k) : (vars.put kind value).get? k = vars.get? k := by
  simp [put, h]

end Vars

end Topiary
