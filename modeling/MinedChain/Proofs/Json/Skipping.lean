import MinedChain.Json.Skip
import MinedChain.Proofs.Json.Listings
import MinedChain.Proofs.Json.Numbers
import MinedChain.Proofs.Json.Strings

/-!
# Values that are skipped

A value of any kind, nested to any depth, is skipped in full and nothing behind it is. The reader holds
the open containers in a list. So what is proved by induction over a value is what reading it does under
any open containers: they are open as before when the value has been passed.
-/

namespace MinedChain.Json

/-! ## The grammar -/

/-- The parts of a member's text. -/
structure MemberText where
  name : List Char
  before : List Char
  after : List Char
  value : List Char

namespace MemberText

/-- The member's name, a colon with blanks around it, and the value. -/
def text (m : MemberText) : List Char := m.name ++ (m.before ++ ':' :: (m.after ++ m.value))

/-- There are only blanks around the colon. -/
structure IsSpaced (m : MemberText) : Prop where
  before : Blanks m.before
  after : Blanks m.after

end MemberText

/-- A value of any kind. -/
inductive IsValue : List Char → Prop
  | ofNull : IsValue ['n', 'u', 'l', 'l']
  | ofTrue : IsValue ['t', 'r', 'u', 'e']
  | ofFalse : IsValue ['f', 'a', 'l', 's', 'e']
  | number {t : List Char} (h : IsNumber t) : IsValue t
  | string {t : List Char} (h : IsSkippedString t) : IsValue t
  | array {ts : List (List Char)} {text : List Char} (hvalue : ∀ t ∈ ts, IsValue t)
      (h : Listed ts text) : IsValue ('[' :: (text ++ [']']))
  | object {ms : List MemberText} {text : List Char} (hspaced : ∀ m ∈ ms, m.IsSpaced)
      (hname : ∀ m ∈ ms, IsSkippedString m.name) (hvalue : ∀ m ∈ ms, IsValue m.value)
      (h : Listed (ms.map MemberText.text) text) : IsValue ('{' :: (text ++ ['}']))

theorem IsValue.begun {t : List Char} (h : IsValue t) : Begun t := by
  cases h with
  | ofNull | ofTrue | ofFalse => exact begun_cons (by decide) _
  | number h => exact h.begun
  | string h => exact List.append_nil t ▸ h.begun_append []
  | array | object => exact begun_cons (by decide) _

namespace Skip

/-! ## Scalars -/

theorem ofOpener?_of_ne {c : Char} (h : c ≠ '[') (h' : c ≠ '{') : Container.ofOpener? c = none := by
  rw [Container.ofOpener?, if_neg h, if_neg h']

/-- The text is that of a value that opens no container. -/
structure IsScalar (t : List Char) : Prop where
  begun : ∃ c rest, t = c :: rest ∧ isDelimiter c = false ∧ Container.ofOpener? c = none
  scalar : ∀ rest, Delimited rest → ∃ h, scalar (t ++ rest) = .ok ⟨(), rest, h⟩

theorem isScalar_word {c : Char} {word : List Char} (hc : isDelimiter c = false)
    (hopener : Container.ofOpener? c = none)
    (hscalar : ∀ text, scalar (c :: text) = do return (← expect word text).read ()) :
    IsScalar (c :: word) := by
  refine ⟨⟨c, word, rfl, hc, hopener⟩, ?_⟩
  intro rest _
  obtain ⟨h, hexpect⟩ := expect_append word rest
  refine ⟨Nat.lt_succ_of_le h, ?_⟩
  show Skip.scalar (c :: (word ++ rest)) = _
  rw [hscalar, hexpect]
  rfl

theorem isScalar_string {t : List Char} (ht : IsSkippedString t) : IsScalar t := by
  obtain ⟨ht⟩ := ht
  refine ⟨⟨_, _, rfl, by decide, by decide⟩, ?_⟩
  intro rest _
  obtain ⟨h, hskip⟩ := Quoted.skip_append ht rest
  rw [List.cons_append, List.append_assoc]
  refine ⟨Nat.lt_succ_of_lt h, ?_⟩
  show Skip.scalar ('"' :: (_ ++ '"' :: rest)) = _
  simp only [Skip.scalar, hskip]
  rfl

/-- A sign or a digit begins a number, and no other value. -/
theorem scalar_of_number {c : Char} (hc : c = '-' ∨ Decimal.isDigit c = true) (text : List Char) :
    scalar (c :: text) = Number.skip (c :: text) := by
  have hne : ∀ d : Char, d ≠ '-' → Decimal.isDigit d = false → c ≠ d := by
    rintro d hd hdigit rfl
    exact hc.elim hd fun h => Bool.false_ne_true (hdigit.symm.trans h)
  rw [scalar.eq_6 _ _ (hne 'n' (by decide) (by decide)) (hne 't' (by decide) (by decide))
    (hne 'f' (by decide) (by decide)) (hne '"' (by decide) (by decide))]
  exact if_pos hc

theorem isScalar_number {t : List Char} (ht : IsNumber t) : IsScalar t := by
  obtain ⟨c, t', rfl, hc⟩ := ht.exists_cons
  have hdelimiter : isDelimiter c = false ∧ Container.ofOpener? c = none := by
    rcases hc with rfl | hc
    · decide
    · refine ⟨isDelimiter_of_isDigit hc, ofOpener?_of_ne ?_ ?_⟩ <;> (rintro rfl; exact nomatch hc)
  refine ⟨⟨c, t', rfl, hdelimiter⟩, ?_⟩
  intro rest hrest
  obtain ⟨h, hskip⟩ := skip_number ht hrest
  exact ⟨h, (scalar_of_number hc (t' ++ rest)).trans hskip⟩

/-! ## Steps -/

/-- Reading on from the first state and text comes to reading on from the second. -/
def Passes (s : State) (text : List Char) (s' : State) (rest : List Char) : Prop :=
  ∀ (bound : Nat) (h : text.length ≤ bound),
    ∃ h' : rest.length ≤ bound, finish s text h = finish s' rest h'

theorem Passes.refl (s : State) (text : List Char) : Passes s text s text := fun _ h => ⟨h, rfl⟩

theorem Passes.trans {s s' s'' : State} {text text' text'' : List Char}
    (h : Passes s text s' text') (h' : Passes s' text' s'' text'') : Passes s text s'' text'' := by
  intro bound hle
  obtain ⟨hle', hfinish⟩ := h bound hle
  obtain ⟨hle'', hfinish'⟩ := h' bound hle'
  exact ⟨hle'', hfinish.trans hfinish'⟩

/-- A value is due, and when it has been read the same containers are open as before. -/
def Skips (opened : List Container) (text rest : List Char) : Prop :=
  ∃ s text' h, value opened text = .ok ⟨s, text', h⟩ ∧ Passes s text' ⟨false, opened⟩ rest

variable {opened : List Container} {text rest w : List Char}

theorem Skips.passes (h : Skips opened text rest) :
    Passes ⟨true, opened⟩ text ⟨false, opened⟩ rest := by
  obtain ⟨s, text', hlt, hvalue, hpasses⟩ := h
  intro bound hle
  obtain ⟨hle', hfinish⟩ := hpasses bound (Nat.le_trans (Nat.le_of_lt hlt) hle)
  refine ⟨hle', ?_⟩
  rw [finish, hvalue]
  exact hfinish

/-- One step where a value has ended inside a container. -/
theorem passes_of_separator {container : Container} {s : State} {text' : List Char}
    {h : text'.length < text.length} (hstep : separator container opened text = .ok ⟨s, text', h⟩) :
    Passes ⟨false, container :: opened⟩ text s text' := by
  intro bound hle
  refine ⟨Nat.le_trans (Nat.le_of_lt h) hle, ?_⟩
  rw [finish, hstep]

theorem IsScalar.skips {t : List Char} (ht : IsScalar t) (opened : List Container) (hw : Blanks w)
    (hrest : Delimited rest) : Skips opened (w ++ (t ++ rest)) rest := by
  obtain ⟨h, hscalar⟩ := ht.scalar rest hrest
  obtain ⟨c, t', rfl, hc, hopener⟩ := ht.begun
  obtain ⟨h', hsolid⟩ := solid_append hw (isBlank_of_isDelimiter_eq_false hc) (t' ++ rest)
  have hscalar' : Skip.scalar (c :: (t' ++ rest)) = .ok ⟨(), rest, h⟩ := hscalar
  have hvalue : value opened (w ++ c :: (t' ++ rest)) =
      .ok ⟨⟨false, opened⟩, rest, Nat.lt_of_lt_of_le h h'⟩ := by
    simp only [value, hsolid, hopener, hscalar', bind, Except.bind]
    rfl
  exact ⟨_, _, _, hvalue, Passes.refl _ rest⟩

/-! ## Containers -/

/-- An item of a container: behind its name, if it has one, its value is passed. -/
structure PassesItem (container : Container) (u : List Char) : Prop where
  begun : Begun u
  passes : ∀ (opened : List Container) (w rest : List Char), Blanks w → Delimited rest →
    ∃ text h, item container opened (w ++ (u ++ rest)) = .ok (⟨true, container :: opened⟩, ⟨text, h⟩) ∧
      Passes ⟨true, container :: opened⟩ text ⟨false, container :: opened⟩ rest

theorem isCloser_closer (container : Container) : IsCloser container.closer := by
  cases container
  · exact .inl rfl
  · exact .inr rfl

/-- The rest of a container, where an item has ended. -/
theorem passes_continued {container : Container} {us : List (List Char)}
    (hitem : ∀ u ∈ us, PassesItem container u) (h : Continued us text) (opened : List Container)
    (rest : List Char) :
    Passes ⟨false, container :: opened⟩ (text ++ container.closer :: rest) ⟨false, opened⟩ rest := by
  have hcloser := isCloser_closer container
  -- the container stays open while there are further items, and the last step closes it
  induction h with
  | @done w hw =>
    obtain ⟨h, hsolid⟩ := solid_append hw hcloser.isBlank rest
    have hstep : separator container opened (w ++ container.closer :: rest) =
        .ok ⟨⟨false, opened⟩, rest, h⟩ := by
      rw [separator, hsolid]
      exact if_pos rfl
    exact passes_of_separator hstep
  | @more w w' u text us hw hw' h ih =>
    have hu := hitem u List.mem_cons_self
    obtain ⟨text', hle, hread, hpasses⟩ := hu.passes opened w' _ hw' (h.delimited_append hcloser rest)
    obtain ⟨h', hsolid⟩ := solid_append hw (c := ',') (by decide)
      (w' ++ (u ++ (text ++ container.closer :: rest)))
    have hstep : separator container opened
        (w ++ ',' :: (w' ++ (u ++ (text ++ container.closer :: rest)))) =
        .ok ⟨⟨true, container :: opened⟩, text', Nat.lt_of_le_of_lt hle h'⟩ := by
      have hcomma : ',' ≠ container.closer := hcloser.ne_comma.symm
      simp only [separator, hsolid, hread, bind, Except.bind, if_neg hcomma, if_true]
      rfl
    rw [comma_append]
    exact ((passes_of_separator hstep).trans hpasses).trans
      (ih fun u hu => hitem u (List.mem_cons_of_mem _ hu))

/-- A container is skipped when its items are passed. -/
theorem skips_listed {container : Container} {opener : Char} (hopener :
    Container.ofOpener? opener = some container) (hblank : isBlank opener = false)
    {us : List (List Char)} (hitem : ∀ u ∈ us, PassesItem container u) (h : Listed us text)
    (opened : List Container) (hw : Blanks w) (rest : List Char) :
    Skips opened (w ++ opener :: (text ++ container.closer :: rest)) rest := by
  have hcloser := isCloser_closer container
  cases h with
  | @empty w' hw' =>
    obtain ⟨hlt, hsolid⟩ := solid_append hw hblank (text ++ container.closer :: rest)
    obtain ⟨hlt', hsolid'⟩ := solid_append hw' hcloser.isBlank rest
    have hvalue : value opened (w ++ opener :: (text ++ container.closer :: rest)) =
        .ok ⟨⟨false, opened⟩, rest, Nat.lt_trans hlt' hlt⟩ := by
      simp only [value, hsolid, hopener, first, hsolid', bind, Except.bind, if_true]
      rfl
    exact ⟨_, _, _, hvalue, Passes.refl _ rest⟩
  | @items w' u text us hw' h =>
    have hu := hitem u List.mem_cons_self
    obtain ⟨text', hle, hread, hpasses⟩ := hu.passes opened w' _ hw' (h.delimited_append hcloser rest)
    have hfirst : first container opened (w' ++ (u ++ (text ++ container.closer :: rest))) =
        .ok (⟨true, container :: opened⟩, ⟨text', hle⟩) := by
      obtain ⟨c, u', rfl, hc⟩ := hu.begun
      obtain ⟨_, hsolid⟩ := solid_append hw' (isBlank_of_isDelimiter_eq_false hc)
        (u' ++ (text ++ container.closer :: rest))
      have hne : c ≠ container.closer := hcloser.ne_of_isDelimiter_eq_false hc
      show first container opened (w' ++ c :: (u' ++ (text ++ container.closer :: rest))) = _
      rw [first, hsolid]
      exact (if_neg hne).trans hread
    obtain ⟨hlt, hsolid⟩ :=
      solid_append hw hblank (w' ++ (u ++ (text ++ container.closer :: rest)))
    have hvalue : value opened (w ++ opener :: (w' ++ (u ++ (text ++ container.closer :: rest)))) =
        .ok ⟨⟨true, container :: opened⟩, text', Nat.lt_of_le_of_lt hle hlt⟩ := by
      simp only [value, hsolid, hopener, hfirst, bind, Except.bind]
      rfl
    rw [item_append]
    exact ⟨_, _, _, hvalue, hpasses.trans
      (passes_continued (fun u hu => hitem u (List.mem_cons_of_mem _ hu)) h opened rest)⟩

/-- An element has nothing in front of its value. -/
theorem passesItem_element {t : List Char} (ht : Begun t)
    (hskips : ∀ opened w rest, Blanks w → Delimited rest → Skips opened (w ++ (t ++ rest)) rest) :
    PassesItem .array t where
  begun := ht
  passes opened w rest hw hrest :=
    ⟨w ++ (t ++ rest), Nat.le_refl _, rfl, (hskips (.array :: opened) w rest hw hrest).passes⟩

theorem name_append {n w' : List Char} (hname : IsSkippedString n) (hw : Blanks w)
    (hw' : Blanks w') (rest : List Char) :
    ∃ h, name (w ++ (n ++ (w' ++ ':' :: rest))) = .ok ⟨(), rest, h⟩ := by
  obtain @⟨cs, text, hname⟩ := hname
  obtain ⟨h₁, hquote⟩ := mark_append hw (m := '"') (by decide) (text ++ '"' :: (w' ++ ':' :: rest))
  obtain ⟨h₂, hskip⟩ := Quoted.skip_append hname (w' ++ ':' :: rest)
  obtain ⟨h₃, hcolon⟩ := mark_append hw' (m := ':') (by decide) rest
  rw [bracketed_append]
  refine ⟨Nat.lt_trans h₃ (Nat.lt_trans h₂ h₁), ?_⟩
  simp only [name, hquote, hskip, hcolon, bind, Except.bind]
  rfl

/-- A member has its name and a colon in front of its value. -/
theorem passesItem_member {m : MemberText} (hspaced : m.IsSpaced) (hname : IsSkippedString m.name)
    (hskips : ∀ opened w rest, Blanks w → Delimited rest →
      Skips opened (w ++ (m.value ++ rest)) rest) :
    PassesItem .object m.text where
  begun := hname.begun_append _
  passes opened w rest hw hrest := by
    obtain ⟨h, hread⟩ := name_append hname hw hspaced.before (m.after ++ (m.value ++ rest))
    have htext : w ++ (m.text ++ rest) =
        w ++ (m.name ++ (m.before ++ ':' :: (m.after ++ (m.value ++ rest)))) := by
      simp only [MemberText.text, List.append_assoc, List.cons_append]
    have hitem : item .object opened
        (w ++ (m.name ++ (m.before ++ ':' :: (m.after ++ (m.value ++ rest))))) =
        .ok (⟨true, .object :: opened⟩, ⟨m.after ++ (m.value ++ rest), Nat.le_of_lt h⟩) := by
      rw [item, hread]
      rfl
    rw [htext]
    exact ⟨_, _, hitem, (hskips (.object :: opened) m.after rest hspaced.after hrest).passes⟩

/-! ## Values -/

/-- A value of any kind is skipped under any open containers. -/
theorem skips_value {t : List Char} (ht : IsValue t) (opened : List Container) (w rest : List Char)
    (hw : Blanks w) (hrest : Delimited rest) : Skips opened (w ++ (t ++ rest)) rest := by
  -- a value inside a container is skipped with that container on top of the ones already open, so the
  -- induction is for any of them
  induction ht generalizing opened w rest with
  | ofNull =>
    exact (isScalar_word (by decide) (by decide) fun _ => rfl).skips opened hw hrest
  | ofTrue =>
    exact (isScalar_word (by decide) (by decide) fun _ => rfl).skips opened hw hrest
  | ofFalse =>
    exact (isScalar_word (by decide) (by decide) fun _ => rfl).skips opened hw hrest
  | number h => exact (isScalar_number h).skips opened hw hrest
  | string h => exact (isScalar_string h).skips opened hw hrest
  | @array ts text hvalue h ih =>
    have hitem : ∀ t ∈ ts, PassesItem .array t :=
      fun t ht => passesItem_element (hvalue t ht).begun (ih t ht)
    rw [bracketed_append]
    have hopener : Container.ofOpener? '[' = some .array := by decide
    exact skips_listed hopener (by decide) hitem h opened hw rest
  | @object ms text hspaced hname hvalue h ih =>
    have hitem : ∀ u ∈ ms.map MemberText.text, PassesItem .object u := by
      intro u hu
      obtain ⟨m, hm, rfl⟩ := List.mem_map.mp hu
      exact passesItem_member (hspaced m hm) (hname m hm) (ih m hm)
    rw [bracketed_append]
    have hopener : Container.ofOpener? '{' = some .object := by decide
    exact skips_listed hopener (by decide) hitem h opened hw rest

/-- A value of any kind is taken off the front of a text. -/
theorem reads_value {t : List Char} (ht : IsValue t) : Reads read () t := by
  refine ⟨ht.begun, ?_⟩
  intro w rest hw hrest
  obtain ⟨s, text, hlt, hvalue, hpasses⟩ := skips_value ht [] w rest hw hrest
  obtain ⟨hle, hfinish⟩ := hpasses text.length (Nat.le_refl _)
  have hdone : finish ⟨false, []⟩ rest hle = .ok ⟨rest, hle⟩ := by rw [finish]
  refine ⟨Nat.lt_of_le_of_lt hle hlt, ?_⟩
  simp only [read, hvalue, hfinish, hdone, bind, Except.bind]
  rfl

end Skip

end MinedChain.Json
