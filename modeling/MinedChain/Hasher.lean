import MinedChain.Digest

/-!
# Hashers

A chain is pinned to one hasher: a function from octets to digests together with the identifier by
which a configuration names it. Nothing else is asked of the function, so the theory of chains holds
for every hasher; `constant` and `onSuffix` are two that need no cryptography.
-/

namespace MinedChain

/-- A digest function with the identifier that names it. -/
structure Hasher where
  id : String
  digest : Bytes → Digest

namespace Hasher

/-- The same digests under another identifier. -/
def withId (h : Hasher) (id : String) : Hasher := { h with id }

/-- Every message has the same digest. -/
def constant (d : Digest) : Hasher := ⟨"const", fun _ => d⟩

/-- Messages that end with the octets of `word` have the digest `hit`, all others `miss`. -/
def onSuffix (word : UInt64) (hit miss : Digest) : Hasher :=
  ⟨"target", fun message => if Bytes.ofWord word <:+ message then hit else miss⟩

end Hasher

end MinedChain
