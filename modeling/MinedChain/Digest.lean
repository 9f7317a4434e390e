import MinedChain.Text.Hex

/-!
# Digests

A digest is thirty-two octets. Read as a numeral, most significant octet first, it has a number of
leading zero bits, and it meets a difficulty when it has at least that many. Difficulties above the
width of a digest are met by none.
-/

namespace MinedChain

/-- The octets in a digest. -/
def digestSize : Nat := 32

/-- The bits in an octet. -/
def octetBits : Nat := 8

/-- The bits in a digest. -/
def digestBits : Nat := digestSize * octetBits

/-- The hexadecimal digits that write a digest. -/
def digestHexSize : Nat := digestSize * 2

/-- Thirty-two octets. -/
structure Digest where
  bytes : Bytes
  length_bytes : bytes.length = digestSize
deriving DecidableEq

namespace Digest

/-- The digest with the given octets, if there are thirty-two of them. -/
def ofBytes? (bs : Bytes) : Option Digest :=
  if h : bs.length = digestSize then some ⟨bs, h⟩ else none

/-- The digest of zero octets only. -/
def zero : Digest := ⟨List.replicate digestSize 0, rfl⟩

instance : Inhabited Digest := ⟨zero⟩

/-- The number that the octets denote, the most significant first. -/
def toNat (d : Digest) : Nat := Bytes.toNat d.bytes

/-- Sixty-four lower-case hexadecimal digits. -/
def toHex (d : Digest) : String := String.ofList (Hex.encode d.bytes)

/-- The digest that a hexadecimal text writes. -/
def ofHex? (s : String) : Option Digest := (Hex.decode? s.toList).bind ofBytes?

/-! ## Leading zero bits -/

/-- The zero bits before the first one bit of an octet. -/
def octetLeadingZeros (b : UInt8) : Nat :=
  if b = 0 then octetBits else octetBits - 1 - b.toNat.log2

/-- The zero bits before the first one bit of a string of octets: zero octets count in full, the
first other octet counts its own leading zeros and ends the count. -/
def countLeadingZeros : Bytes → Nat
  | [] => 0
  | b :: bs => if b = 0 then octetBits + countLeadingZeros bs else octetLeadingZeros b

/-- The zero bits before the first one bit. -/
def leadingZeroBits (d : Digest) : Nat := countLeadingZeros d.bytes

/-- The digest begins with at least `difficulty` zero bits, and the difficulty is not wider than the
digest. -/
def Meets (d : Digest) (difficulty : UInt32) : Prop :=
  difficulty.toNat ≤ digestBits ∧ difficulty.toNat ≤ d.leadingZeroBits

instance (d : Digest) (difficulty : UInt32) : Decidable (d.Meets difficulty) :=
  inferInstanceAs (Decidable (_ ∧ _))

end Digest

end MinedChain
