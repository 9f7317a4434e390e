import MinedChain.Hash.Sha256
import MinedChain.Hasher

/-!
# Built-in algorithms

The algorithms that a configuration can select by identifier alone. Each has one identifier of its
own and one other spelling; both are recognised whatever the case of their ASCII letters.
-/

namespace MinedChain

/-- A text with its ASCII capitals made small. -/
def foldCase (s : String) : List Char := s.toList.map Char.toLower

/-- A hash algorithm that needs no injected hasher. -/
inductive Algorithm where
  | sha256
  | doubleSha256
deriving DecidableEq, Repr

namespace Algorithm

/-- The identifier under which the algorithm is written. -/
def id : Algorithm → String
  | sha256 => "sha256"
  | doubleSha256 => "sha256d"

/-- The identifiers under which the algorithm is recognised. -/
def spellings : Algorithm → List String
  | sha256 => ["sha256", "sha-256"]
  | doubleSha256 => ["sha256d", "double-sha256"]

/-- The algorithm that a text names, up to the case of ASCII letters. -/
def ofId? (s : String) : Option Algorithm :=
  [sha256, doubleSha256].find? fun a => a.spellings.any (·.toList == foldCase s)

/-- The algorithm's digest function under its own identifier. -/
def hasher : Algorithm → Hasher
  | sha256 => ⟨sha256.id, Sha256.digest⟩
  | doubleSha256 => ⟨doubleSha256.id, Sha256.doubleDigest⟩

theorem id_hasher (a : Algorithm) : a.hasher.id = a.id := by cases a <;> rfl

/-- Every algorithm is recognised under its own identifier. -/
theorem ofId?_id (a : Algorithm) : ofId? a.id = some a := by cases a <;> decide

theorem id_injective {a b : Algorithm} (h : a.id = b.id) : a = b := by
  have hnamed : ofId? a.id = some b := h ▸ ofId?_id b
  rw [ofId?_id] at hnamed
  injection hnamed

/-- Case makes no difference to what a text names. -/
theorem ofId?_congr {s t : String} (h : foldCase s = foldCase t) : ofId? s = ofId? t := by
  rw [ofId?, h, ← ofId?]

theorem foldCase_of_mem_spellings {a : Algorithm} {t : String} (h : t ∈ a.spellings) :
    foldCase t = t.toList := by
  have hall : ∀ t ∈ a.spellings, foldCase t = t.toList := by cases a <;> decide
  exact hall t h

/-- A text names the algorithm of which it is a spelling, up to case. -/
theorem ofId?_eq_some_iff {s : String} {a : Algorithm} :
    ofId? s = some a ↔ ∃ t ∈ a.spellings, foldCase t = foldCase s := by
  constructor
  · intro h
    have hany := List.find?_some h
    obtain ⟨t, ht, hs⟩ := List.any_eq_true.mp hany
    exact ⟨t, ht, (foldCase_of_mem_spellings ht).trans (eq_of_beq hs)⟩
  · rintro ⟨t, ht, hs⟩
    have hall : ∀ t ∈ a.spellings, ofId? t = some a := by cases a <;> decide
    rw [← ofId?_congr hs]
    exact hall t ht

end Algorithm

end MinedChain
