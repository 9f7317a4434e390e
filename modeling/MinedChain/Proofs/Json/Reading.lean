import MinedChain.Json.Reader

/-!
# What a reader reads

A reader is judged by the texts that it takes off the front of a longer one. It skips blanks before a
value, and where the value is a number only what follows tells that the number is over. So `Reads` says
of a reader, a value and a text: behind any blanks, and before anything that may follow a value, the
reader takes exactly the text and gives the value. Readers that are put together from others are judged
from this alone.
-/

namespace MinedChain.Json

/-! ## Blanks -/

/-- Blanks only. -/
def Blanks (w : List Char) : Prop := ∀ c ∈ w, isBlank c = true

instance (w : List Char) : Decidable (Blanks w) :=
  decidable_of_iff (w.all isBlank = true) List.all_eq_true

theorem blanks_nil : Blanks [] := fun _ h => nomatch h

theorem skipBlanks_append {w : List Char} (hw : Blanks w) (text : List Char) :
    skipBlanks (w ++ text) = skipBlanks text := by
  rw [skipBlanks, List.dropWhile_append_of_pos hw, skipBlanks]

theorem skipBlanks_cons {c : Char} (hc : isBlank c = false) (text : List Char) :
    skipBlanks (c :: text) = c :: text := by
  rw [skipBlanks, List.dropWhile_cons, hc]
  rfl

/-- The first character behind some blanks. -/
theorem solid_append {w : List Char} (hw : Blanks w) {c : Char} (hc : isBlank c = false)
    (text : List Char) : ∃ h, solid (w ++ c :: text) = .ok ⟨c, text, h⟩ := by
  have hskip : skipBlanks (w ++ c :: text) = c :: text := by
    rw [skipBlanks_append hw, skipBlanks_cons hc]
  -- the match carries the equation along, so it is taken apart and not rewritten
  unfold solid
  split
  next h => exact nomatch hskip.symm.trans h
  next c' rest h =>
    obtain ⟨rfl, rfl⟩ : c = c' ∧ text = rest := by
      rw [hskip] at h
      exact List.cons.inj h
    refine ⟨?_, rfl⟩
    rw [List.length_append, List.length_cons]
    omega

theorem mark_append {w : List Char} (hw : Blanks w) {m : Char} (hm : isBlank m = false)
    (text : List Char) : ∃ h, mark m (w ++ m :: text) = .ok ⟨(), text, h⟩ := by
  obtain ⟨h, hsolid⟩ := solid_append hw hm text
  refine ⟨h, ?_⟩
  rw [mark, hsolid]
  exact if_pos rfl

theorem expect_append (word text : List Char) :
    ∃ h, expect word (word ++ text) = .ok ⟨text, h⟩ := by
  induction word with
  | nil => exact ⟨_, rfl⟩
  | cons c word ih =>
    obtain ⟨h, hword⟩ := ih
    refine ⟨Nat.le_succ_of_le h, ?_⟩
    show expect (c :: word) (c :: (word ++ text)) = _
    rw [expect, if_pos rfl, hword]
    rfl

theorem expectEnd_of_blanks {w : List Char} (hw : Blanks w) : expectEnd w = .ok () := by
  have hskip : skipBlanks w = [] := by
    rw [← List.append_nil w, skipBlanks_append hw]
    rfl
  rw [expectEnd, hskip]

/-! ## Where a value begins and what follows it -/

/-- The character may follow a value: it is a blank, a comma or a closing bracket. -/
def isDelimiter (c : Char) : Bool := isBlank c || c = ',' || c = ']' || c = '}'

/-- Nothing follows, or something that may follow a value. -/
def Delimited (rest : List Char) : Prop := ∀ c, rest.head? = some c → isDelimiter c = true

theorem delimited_cons {c : Char} (hc : isDelimiter c = true) (rest : List Char) :
    Delimited (c :: rest) := by
  intro d hd
  obtain rfl : c = d := by injection hd
  exact hc

theorem isDelimiter_of_isBlank {c : Char} (h : isBlank c = true) : isDelimiter c = true := by
  rw [isDelimiter, h]
  rfl

theorem isBlank_of_isDelimiter_eq_false {c : Char} (h : isDelimiter c = false) :
    isBlank c = false := by
  rw [← Bool.not_eq_true] at h ⊢
  exact fun hc => h (isDelimiter_of_isBlank hc)

theorem Blanks.delimited {w : List Char} (hw : Blanks w) : Delimited w := by
  intro c hc
  exact isDelimiter_of_isBlank (hw c (List.mem_of_mem_head? hc))

theorem Blanks.delimited_append {w rest : List Char} (hw : Blanks w) (hrest : Delimited rest) :
    Delimited (w ++ rest) := by
  cases w with
  | nil => exact hrest
  | cons c w => exact delimited_cons (isDelimiter_of_isBlank (hw c List.mem_cons_self)) _

/-- The text begins with a character that cannot follow a value, as every value does. -/
def Begun (text : List Char) : Prop := ∃ c rest, text = c :: rest ∧ isDelimiter c = false

theorem begun_cons {c : Char} (hc : isDelimiter c = false) (rest : List Char) : Begun (c :: rest) :=
  ⟨c, rest, rfl, hc⟩

/-! ## Readers -/

/-- The reader takes the text off the front of what it is given, and gives the value. -/
structure Reads {α : Type} (read : Reader α) (a : α) (text : List Char) : Prop where
  begun : Begun text
  reads : ∀ w rest, Blanks w → Delimited rest →
    ∃ h, read (w ++ (text ++ rest)) = .ok ⟨a, rest, h⟩

variable {α β : Type} {read : Reader α} {a : α} {text : List Char}

theorem Reads.reads_front (h : Reads read a text) {rest : List Char} (hrest : Delimited rest) :
    ∃ h, read (text ++ rest) = .ok ⟨a, rest, h⟩ := h.reads [] rest blanks_nil hrest

theorem Reads.map (h : Reads read a text) (f : α → β) :
    Reads (fun text => (read text).map (Read.map f)) (f a) text := by
  refine ⟨h.begun, ?_⟩
  intro w rest hw hrest
  obtain ⟨hlt, hread⟩ := h.reads w rest hw hrest
  refine ⟨hlt, ?_⟩
  rw [hread]
  rfl

/-- A value between blanks is the value of the whole text. -/
theorem Reads.whole (h : Reads read a text) {w w' : List Char} (hw : Blanks w) (hw' : Blanks w') :
    Reader.whole read (w ++ (text ++ w')) = .ok a := by
  obtain ⟨hlt, hread⟩ := h.reads w w' hw hw'.delimited
  have hend := expectEnd_of_blanks hw'
  rw [Reader.whole, hread]
  show (expectEnd w' >>= fun _ => pure a) = _
  rw [hend]
  rfl

theorem Reads.whole_self (h : Reads read a text) : Reader.whole read text = .ok a := by
  have hwhole := h.whole blanks_nil blanks_nil
  rwa [List.nil_append, List.append_nil] at hwhole

end MinedChain.Json
