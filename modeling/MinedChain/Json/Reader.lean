import MinedChain.Json.Fault

/-!
# Readers

A reader takes the characters that are left of a text and gives a value and the characters after it,
or a fault. It always uses up at least one character, and says so in its result: the loops over
elements and members end by that. Where it does not matter whether anything was used up, the rest of a
text is a `Tail`. The operations on the two keep their bounds, so that readers can be put together
without proofs of their own.
-/

namespace MinedChain.Json

/-- A value that was read, and the text after it, which is shorter than `bound`. -/
structure Read (α : Type) (bound : Nat) where
  value : α
  rest : List Char
  shorter : rest.length < bound

/-- A text that is no longer than `bound`. -/
structure Tail (bound : Nat) where
  rest : List Char
  le : rest.length ≤ bound

/-- A reader of values of type `α`. -/
abbrev Reader (α : Type) := (text : List Char) → Except Fault (Read α text.length)

namespace Tail

variable {n : Nat}

/-- All of a text. -/
@[inline] def all (text : List Char) : Tail text.length := ⟨text, Nat.le_refl _⟩

/-- What is left of a tail. -/
@[inline] def followed (t : Tail n) (u : Tail t.rest.length) : Tail n :=
  ⟨u.rest, Nat.le_trans u.le t.le⟩

/-- A value with the text after it, where one character stood before the tail. -/
@[inline] def read {α : Type} (t : Tail n) (value : α) : Read α (n + 1) :=
  ⟨value, t.rest, Nat.lt_succ_of_le t.le⟩

end Tail

namespace Read

variable {α β : Type} {m n : Nat}

/-- The same value and rest under a larger bound. -/
@[inline] def widen (r : Read α m) (h : m ≤ n) : Read α n :=
  ⟨r.value, r.rest, Nat.lt_of_lt_of_le r.shorter h⟩

/-- The same, where one character stood before. -/
@[inline] def succ (r : Read α n) : Read α (n + 1) := r.widen (Nat.le_succ n)

/-- The value changed. -/
@[inline] def map (f : α → β) (r : Read α n) : Read β n := ⟨f r.value, r.rest, r.shorter⟩

/-- The text after the value. -/
@[inline] def tail (r : Read α n) : Tail n := ⟨r.rest, Nat.le_of_lt r.shorter⟩

/-- The value, and what is left of the text after it. -/
@[inline] def followed (r : Read α n) (t : Tail r.rest.length) : Read α n :=
  ⟨r.value, t.rest, Nat.lt_of_le_of_lt t.le r.shorter⟩

/-- The value that was read after this one. -/
@[inline] def andThen (r : Read α n) (s : Read β r.rest.length) : Read β n :=
  s.widen (Nat.le_of_lt r.shorter)

/-- The value that was read after this character had been put back. -/
@[inline] def putBack (c : Read Char n) (r : Read α (c.value :: c.rest).length) : Read α n :=
  r.widen c.shorter

/-- The text with this character put back. -/
@[inline] def whole (c : Read Char n) : Tail n := ⟨c.value :: c.rest, c.shorter⟩

end Read

namespace Tail

variable {α : Type} {n : Nat}

/-- The value that was read from the tail. -/
@[inline] def andThen (t : Tail n) (r : Read α t.rest.length) : Read α n := r.widen t.le

end Tail

/-! ## Blanks and words -/

/-- Space, tab, line feed and carriage return. -/
def isBlank (c : Char) : Bool := c = ' ' || c = '\t' || c = '\n' || c = '\r'

/-- The text after its leading blanks. -/
def skipBlanks (text : List Char) : List Char := text.dropWhile isBlank

theorem length_skipBlanks_le (text : List Char) : (skipBlanks text).length ≤ text.length :=
  (List.dropWhile_sublist isBlank).length_le

/-- The first character that is no blank. -/
def solid : Reader Char := fun text =>
  match h : skipBlanks text with
  | [] => .error .truncated
  | c :: rest => .ok ⟨c, rest, by
      have := length_skipBlanks_le text
      rw [h] at this
      exact this⟩

/-- A given character, after blanks. -/
def mark (m : Char) : Reader Unit := fun text => do
  let c ← solid text
  if c.value = m then return c.map fun _ => () else .error .malformed

/-- The text after a word. A text that ends inside the word is truncated, one that goes on otherwise
is malformed. -/
def expect : (word text : List Char) → Except Fault (Tail text.length)
  | [], text => .ok (Tail.all text)
  | _ :: _, [] => .error .truncated
  | w :: word, c :: text =>
    if c = w then
      match expect word text with
      | .ok t => .ok (t.read ()).tail
      | .error e => .error e
    else .error .malformed

/-- Nothing but blanks follows. -/
def expectEnd (text : List Char) : Except Fault Unit :=
  match skipBlanks text with
  | [] => .ok ()
  | _ => .error .malformed

/-- The value of a whole text: one value between blanks. -/
def Reader.whole {α : Type} (read : Reader α) (text : List Char) : Except Fault α := do
  let r ← read text
  expectEnd r.rest
  return r.value

end MinedChain.Json
