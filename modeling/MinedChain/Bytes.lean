/-!
# Octet strings

Everything that is hashed is a list of octets. A 64-bit word is written as eight of them, the most
significant first; `toNat` reads such a numeral back, whatever its length.
-/

namespace MinedChain

/-- A finite string of octets. -/
abbrev Bytes := List UInt8

namespace Bytes

/-- The eight octets of a word, the most significant first. -/
def ofWord (w : UInt64) : Bytes :=
  [(w >>> 56).toUInt8, (w >>> 48).toUInt8, (w >>> 40).toUInt8, (w >>> 32).toUInt8,
    (w >>> 24).toUInt8, (w >>> 16).toUInt8, (w >>> 8).toUInt8, w.toUInt8]

/-- The number whose base-256 digits are the octets, the most significant first. -/
def toNat (bs : Bytes) : Nat :=
  bs.foldl (fun n b => n * 256 + b.toNat) 0

@[simp] theorem length_ofWord (w : UInt64) : (ofWord w).length = 8 := rfl

/-- Reading back what was written gives the word. -/
theorem toNat_ofWord (w : UInt64) : toNat (ofWord w) = w.toNat := by
  have hlt := w.toNat_lt
  simp only [toNat, ofWord, List.foldl_cons, List.foldl_nil, UInt64.toNat_toUInt8,
    UInt64.toNat_shiftRight, Nat.shiftRight_eq_div_pow, UInt64.reduceToNat, Nat.reduceMod,
    Nat.reducePow] at hlt ⊢
  omega

end Bytes

end MinedChain
