import MinedChain.Bytes

/-!
# UTF-8

Text is written by the encoding of its characters, one after another. Reading cuts the octets into
*parts*: a part is either a well-formed character or the longest run of octets that could have begun
one. Strict reading refuses any ill-formed part, lenient reading puts the replacement character in
the place of each.
-/

namespace MinedChain.Utf8

/-- The octets of a text. -/
def encode (s : String) : Bytes := s.toList.flatMap String.utf8EncodeChar

/-- An octet that only continues a character. -/
def isTail (b : UInt8) : Bool := 0x80 ≤ b && b ≤ 0xBF

/-- An octet that may follow the given first octet of a three-octet character: surrogates and
numbers that need fewer octets are left out. -/
def isSecondOfThree (first b : UInt8) : Bool :=
  (if first = 0xE0 then 0xA0 else 0x80) ≤ b && b ≤ (if first = 0xED then 0x9F else 0xBF)

/-- An octet that may follow the given first octet of a four-octet character: numbers above
`0x10FFFF` and those that need fewer octets are left out. -/
def isSecondOfFour (first b : UInt8) : Bool :=
  (if first = 0xF0 then 0x90 else 0x80) ≤ b && b ≤ (if first = 0xF4 then 0x8F else 0xBF)

/-- The character whose number has the given groups of bits: `first` after its length marker is
removed, then six bits of each continuing octet. -/
def assemble (first : Nat) (tails : List UInt8) : Char :=
  Char.ofNat (tails.foldl (fun n b => n * 64 + b.toNat % 64) first)

/-- The parts of an octet string: `some c` for a well-formed character, `none` for an ill-formed
part. -/
def parts : Bytes → List (Option Char)
  | [] => []
  | a :: rest =>
    if a < 0x80 then some (Char.ofNat a.toNat) :: parts rest
    else if 0xC2 ≤ a ∧ a ≤ 0xDF then
      match rest with
      | b :: rest' =>
        if isTail b then some (assemble (a.toNat % 32) [b]) :: parts rest'
        else none :: parts (b :: rest')
      | [] => [none]
    else if 0xE0 ≤ a ∧ a ≤ 0xEF then
      match rest with
      | b :: rest' =>
        if isSecondOfThree a b then
          match rest' with
          | c :: rest'' =>
            if isTail c then some (assemble (a.toNat % 16) [b, c]) :: parts rest''
            else none :: parts (c :: rest'')
          | [] => [none]
        else none :: parts (b :: rest')
      | [] => [none]
    else if 0xF0 ≤ a ∧ a ≤ 0xF4 then
      match rest with
      | b :: rest' =>
        if isSecondOfFour a b then
          match rest' with
          | c :: rest'' =>
            if isTail c then
              match rest'' with
              | d :: rest''' =>
                if isTail d then some (assemble (a.toNat % 8) [b, c, d]) :: parts rest'''
                else none :: parts (d :: rest''')
              | [] => [none]
            else none :: parts (c :: rest'')
          | [] => [none]
        else none :: parts (b :: rest')
      | [] => [none]
    else none :: parts rest

/-- The text of well-formed octets. -/
def decode? (bs : Bytes) : Option String :=
  ((parts bs).mapM id).map String.ofList

/-- The text of any octets, with a replacement character for each ill-formed part. -/
def decodeLenient (bs : Bytes) : String :=
  String.ofList ((parts bs).map (·.getD '\uFFFD'))

end MinedChain.Utf8
