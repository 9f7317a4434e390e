/-!
# JSON values

The tree that a JSON text stands for. Numbers are natural: nothing this library writes as JSON needs
a sign, a fraction or an exponent. Members of an object keep the order in which they were given.

Besides look-ups there are *edits at a place*: they change one element or one member, and give
nothing where that place does not exist.
-/

namespace MinedChain.Json

/-- A JSON value. -/
inductive Value where
  | null
  | bool (b : Bool)
  | num (n : Nat)
  | str (s : String)
  | arr (items : List Value)
  | obj (members : List (String × Value))

namespace Value

/-- The member of that name, if the value is an object that has one. -/
def member? (name : String) : Value → Option Value
  | obj members => members.lookup name
  | _ => none

/-- The elements, if the value is an array. -/
def items? : Value → Option (List Value)
  | arr items => some items
  | _ => none

/-- The number, if the value is one. -/
def num? : Value → Option Nat
  | num n => some n
  | _ => none

/-- Changes the element at a position; nothing if the value is no array, has no such element, or the
change gives nothing. -/
def modifyItem? (i : Nat) (f : Value → Option Value) : Value → Option Value
  | arr items => do
    let item ← items[i]?
    let item ← f item
    return arr (items.set i item)
  | _ => none

/-- Replaces the value of the first member of that name. -/
def setMember (name : String) (v : Value) : List (String × Value) → List (String × Value)
  | [] => []
  | (k, w) :: rest => if k = name then (k, v) :: rest else (k, w) :: setMember name v rest

/-- Changes the member of that name; nothing if the value is no object, has no such member, or the
change gives nothing. -/
def modifyMember? (name : String) (f : Value → Option Value) : Value → Option Value
  | obj members => do
    let v ← members.lookup name
    let v ← f v
    return obj (setMember name v members)
  | _ => none

end Value

end MinedChain.Json
