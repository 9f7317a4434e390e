import MinedChain.Json.Value
import MinedChain.Text.Hex
import MinedChain.Text.Decimal

/-!
# Writing JSON

Two layouts of the same tokens. The compact one has no blanks. The indented one puts each element and
each member on a line of its own, two blanks deeper than its container, and one blank after a colon;
an empty container stays on its line.

In a string, the quotation mark, the reverse solidus and the controls below U+0020 are escaped, by a
letter where JSON has one and by four hexadecimal digits otherwise. Every other character stands for
itself.
-/

namespace MinedChain.Json

/-! ## Strings -/

/-- The characters that write one character inside a string. -/
def escape (c : Char) : List Char :=
  if c = '"' then ['\\', '"']
  else if c = '\\' then ['\\', '\\']
  else if c = '\x08' then ['\\', 'b']
  else if c = '\x0c' then ['\\', 'f']
  else if c = '\n' then ['\\', 'n']
  else if c = '\r' then ['\\', 'r']
  else if c = '\t' then ['\\', 't']
  else if c.toNat < 0x20 then
    ['\\', 'u', '0', '0', Hex.digit (c.toNat / 16), Hex.digit (c.toNat % 16)]
  else [c]

/-- A string between quotation marks. -/
def quote (s : String) : List Char := '"' :: (s.toList.flatMap escape ++ ['"'])

/-! ## Compact layout -/

namespace Value

mutual

/-- The value without blanks. -/
def compact : Value → List Char
  | null => "null".toList
  | bool true => "true".toList
  | bool false => "false".toList
  | num n => Decimal.encode n
  | str s => quote s
  | arr items => '[' :: (compactItems items ++ [']'])
  | obj members => '{' :: (compactMembers members ++ ['}'])

/-- The elements with commas between them. -/
def compactItems : List Value → List Char
  | [] => []
  | [v] => compact v
  | v :: w :: rest => compact v ++ ',' :: compactItems (w :: rest)

/-- The members with commas between them. -/
def compactMembers : List (String × Value) → List Char
  | [] => []
  | [(k, v)] => quote k ++ ':' :: compact v
  | (k, v) :: m :: rest => quote k ++ ':' :: (compact v ++ ',' :: compactMembers (m :: rest))

end

/-! ## Indented layout -/

/-- A line end and the blanks of a depth. -/
def newline (depth : Nat) : List Char := '\n' :: List.replicate (2 * depth) ' '

mutual

/-- The value with its container at the given depth. -/
def indented (depth : Nat) : Value → List Char
  | null => "null".toList
  | bool true => "true".toList
  | bool false => "false".toList
  | num n => Decimal.encode n
  | str s => quote s
  | arr [] => "[]".toList
  | arr (v :: rest) => '[' :: (indentedItems (depth + 1) (v :: rest) ++ (newline depth ++ [']']))
  | obj [] => ['{', '}']
  | obj (m :: rest) => '{' :: (indentedMembers (depth + 1) (m :: rest) ++ (newline depth ++ ['}']))

/-- The elements, each on a line of the given depth, with commas between them. -/
def indentedItems (depth : Nat) : List Value → List Char
  | [] => []
  | [v] => newline depth ++ indented depth v
  | v :: w :: rest => newline depth ++ (indented depth v ++ ',' :: indentedItems depth (w :: rest))

/-- The members, each on a line of the given depth, with commas between them. -/
def indentedMembers (depth : Nat) : List (String × Value) → List Char
  | [] => []
  | [(k, v)] => newline depth ++ (quote k ++ ':' :: ' ' :: indented depth v)
  | (k, v) :: m :: rest =>
    newline depth ++ (quote k ++ ':' :: ' ' :: (indented depth v
      ++ ',' :: indentedMembers depth (m :: rest)))

end

end Value

end MinedChain.Json
