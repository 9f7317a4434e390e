import MinedChain.Json.Scalar
import MinedChain.Json.Printer
import MinedChain.Proofs.HexText
import MinedChain.Proofs.Json.Reading

/-!
# Strings in JSON texts

A character of a string may be written as it is, by a letter behind a reverse solidus, or by its number.
How texts spell strings is given here as a grammar. Of a string that is used, the numbers must be those
of characters, where a pair of surrogates makes one; a string that is skipped may hold any numbers. What
the library writes is one of the spellings.
-/

namespace MinedChain.Json

/-! ## The grammar -/

/-- Four hexadecimal digits of either case and the number that they make. -/
inductive IsHexWord : Nat → List Char → Prop
  | mk {a b c d : Char} {x y z t : Nat} (ha : Hex.value? a = some x) (hb : Hex.value? b = some y)
      (hc : Hex.value? c = some z) (hd : Hex.value? d = some t) :
      IsHexWord (((x * 16 + y) * 16 + z) * 16 + t) [a, b, c, d]

/-- What may follow `\u` where the string is used: the number of a character, or two that are a pair of
surrogates. -/
inductive IsUnicode : Char → List Char → Prop
  | word {n : Nat} {w : List Char} (hw : IsHexWord n w) (hlow : Quoted.isLowSurrogate n = false)
      (hhigh : Quoted.isHighSurrogate n = false) : IsUnicode (Char.ofNat n) w
  | pair {high low : Nat} {w w' : List Char} (hw : IsHexWord high w) (hw' : IsHexWord low w')
      (hhigh : Quoted.isHighSurrogate high = true) (hlow : Quoted.isLowSurrogate low = true) :
      IsUnicode (Quoted.ofSurrogates high low) (w ++ '\\' :: 'u' :: w')

/-- What may follow `\u` where the string is skipped: any number, for which a blank is put. -/
inductive IsAnyWord : Char → List Char → Prop
  | mk {n : Nat} {w : List Char} (hw : IsHexWord n w) : IsAnyWord ' ' w

/-- The text between quotation marks spells the characters, with `unicode` saying what may follow
`\u`. -/
inductive Spells (unicode : Char → List Char → Prop) : List Char → List Char → Prop
  | nil : Spells unicode [] []
  | raw {c : Char} {cs text : List Char} (hquote : c ≠ '"') (hsolidus : c ≠ '\\')
      (hcontrol : 0x20 ≤ c.toNat) (h : Spells unicode cs text) : Spells unicode (c :: cs) (c :: text)
  | letter {l c : Char} {cs text : List Char} (hl : Quoted.ofLetter? l = some c)
      (h : Spells unicode cs text) : Spells unicode (c :: cs) ('\\' :: l :: text)
  | number {c : Char} {w cs text : List Char} (hw : unicode c w) (h : Spells unicode cs text) :
      Spells unicode (c :: cs) ('\\' :: 'u' :: (w ++ text))

/-- The text of a string, with its quotation marks. -/
inductive IsString (s : String) : List Char → Prop
  | mk {text : List Char} (h : Spells IsUnicode s.toList text) : IsString s ('"' :: (text ++ ['"']))

/-- The text of a string that is skipped, with its quotation marks. -/
inductive IsSkippedString : List Char → Prop
  | mk {cs text : List Char} (h : Spells IsAnyWord cs text) : IsSkippedString ('"' :: (text ++ ['"']))

theorem IsSkippedString.begun_append {t : List Char} (h : IsSkippedString t) (rest : List Char) :
    Begun (t ++ rest) := by
  obtain ⟨h⟩ := h
  exact begun_cons (by decide) _

/-- What may be used may be skipped: a pair of surrogates is two numbers then. -/
theorem Spells.exists_skipped {cs text : List Char} (h : Spells IsUnicode cs text) :
    ∃ cs', Spells IsAnyWord cs' text := by
  induction h with
  | nil => exact ⟨[], .nil⟩
  | raw hquote hsolidus hcontrol _ ih =>
    obtain ⟨cs', ih⟩ := ih
    exact ⟨_, .raw hquote hsolidus hcontrol ih⟩
  | letter hl _ ih =>
    obtain ⟨cs', ih⟩ := ih
    exact ⟨_, .letter hl ih⟩
  | number hw _ ih =>
    obtain ⟨cs', ih⟩ := ih
    cases hw with
    | word hw => exact ⟨_, .number (.mk hw) ih⟩
    | pair hw hw' =>
      rw [List.append_assoc]
      exact ⟨_, .number (.mk hw) (.number (.mk hw') ih)⟩

theorem IsString.isSkippedString {s : String} {t : List Char} (h : IsString s t) :
    IsSkippedString t := by
  obtain ⟨h⟩ := h
  obtain ⟨cs, h⟩ := h.exists_skipped
  exact .mk h

/-! ## Escapes -/

theorem hexWord_append {n : Nat} {w : List Char} (hw : IsHexWord n w) (rest : List Char) :
    ∃ h, Quoted.hexWord (w ++ rest) = .ok ⟨n, rest, h⟩ := by
  obtain ⟨ha, hb, hc, hd⟩ := hw
  refine ⟨?_, ?_⟩
  · simp only [List.length_append, List.length_cons]
    omega
  · simp only [List.cons_append, List.nil_append, Quoted.hexWord, ha, hb, hc, hd]

theorem lowSurrogate_append {n : Nat} {w : List Char} (hw : IsHexWord n w)
    (hlow : Quoted.isLowSurrogate n = true) (rest : List Char) :
    ∃ h, Quoted.lowSurrogate ('\\' :: 'u' :: (w ++ rest)) = .ok ⟨n, rest, h⟩ := by
  obtain ⟨h, hword⟩ := hexWord_append hw rest
  refine ⟨Nat.lt_succ_of_lt (Nat.lt_succ_of_lt h), ?_⟩
  rw [Quoted.lowSurrogate, hword]
  exact if_pos hlow

/-- A number is not that of both halves of a pair. -/
theorem isLowSurrogate_of_isHighSurrogate {n : Nat} (h : Quoted.isHighSurrogate n = true) :
    Quoted.isLowSurrogate n = false := by
  simp only [Quoted.isHighSurrogate, Quoted.isLowSurrogate, Bool.and_eq_true, decide_eq_true_eq,
    Bool.and_eq_false_iff, decide_eq_false_iff_not] at h ⊢
  omega

theorem unicodeEscape_append {c : Char} {w : List Char} (hw : IsUnicode c w) (rest : List Char) :
    ∃ h, Quoted.unicodeEscape (w ++ rest) = .ok ⟨c, rest, h⟩ := by
  cases hw with
  | @word n w hw hlow hhigh =>
    obtain ⟨h, hword⟩ := hexWord_append hw rest
    refine ⟨h, ?_⟩
    simp only [Quoted.unicodeEscape, hword, bind, Except.bind, hlow, hhigh]
    rfl
  | @pair high low w w' hw hw' hhigh hlow =>
    obtain ⟨h, hword⟩ := hexWord_append hw ('\\' :: 'u' :: (w' ++ rest))
    obtain ⟨h', hsecond⟩ := lowSurrogate_append hw' hlow rest
    rw [List.append_assoc]
    refine ⟨Nat.lt_trans h' h, ?_⟩
    show Quoted.unicodeEscape (w ++ '\\' :: 'u' :: (w' ++ rest)) = _
    simp only [Quoted.unicodeEscape, hword, bind, Except.bind, hhigh,
      isLowSurrogate_of_isHighSurrogate hhigh, hsecond]
    rfl

/-- The letter `u` stands for no character. -/
theorem ne_u_of_ofLetter? {l c : Char} (h : Quoted.ofLetter? l = some c) : l ≠ 'u' := by
  rintro rfl
  exact nomatch h

theorem escaped_letter (unicode : Reader Char) {l c : Char} (hl : Quoted.ofLetter? l = some c)
    (rest : List Char) : ∃ h, Quoted.escaped unicode (l :: rest) = .ok ⟨c, rest, h⟩ := by
  refine ⟨Nat.lt_succ_self _, ?_⟩
  rw [Quoted.escaped.eq_3 unicode l rest (ne_u_of_ofLetter? hl), hl]
  rfl

/-! ## Strings -/

namespace Quoted

/-- The characters that the text before a quotation mark spells. -/
theorem body_append {unicode : Reader Char} {isUnicode : Char → List Char → Prop}
    (hunicode : ∀ c w, isUnicode c w → ∀ rest, ∃ h, unicode (w ++ rest) = .ok ⟨c, rest, h⟩)
    {cs text : List Char} (h : Spells isUnicode cs text) (front rest : List Char) {bound : Nat}
    (hle : (text ++ '"' :: rest).length ≤ bound) :
    ∃ hlt, body unicode front (text ++ '"' :: rest) hle = .ok ⟨front.reverse ++ cs, rest, hlt⟩ := by
  -- what has been read so far is held in reverse, so the induction is for any such front
  induction h generalizing front bound with
  | nil =>
    have hread : body unicode front ('"' :: rest) hle = .ok ⟨front.reverse, rest, hle⟩ := by
      rw [body]
      rfl
    rw [List.append_nil]
    exact ⟨_, hread⟩
  | @raw c cs text hquote hsolidus hcontrol h ih =>
    obtain ⟨hlt, hrest⟩ := ih (c :: front) (Nat.le_of_lt hle)
    refine ⟨hlt, ?_⟩
    show body unicode front (c :: (text ++ '"' :: rest)) hle = _
    rw [body, if_neg hquote, if_neg hsolidus, if_neg (Nat.not_lt.mpr hcontrol), hrest,
      List.reverse_cons, List.append_assoc]
    rfl
  | @letter l c cs text hl h ih =>
    obtain ⟨hlt', hescaped⟩ := escaped_letter unicode hl (text ++ '"' :: rest)
    obtain ⟨hlt, hrest⟩ := ih (c :: front) (Nat.le_of_lt (Nat.lt_trans hlt' hle))
    refine ⟨hlt, ?_⟩
    show body unicode front ('\\' :: (l :: (text ++ '"' :: rest))) hle = _
    rw [body, if_neg (by decide), if_pos rfl]
    simp only [hescaped]
    rw [hrest, List.reverse_cons, List.append_assoc]
    rfl
  | @number c w cs text hw h ih =>
    obtain ⟨hlt', hword⟩ := hunicode c w hw (text ++ '"' :: rest)
    have hescaped : escaped unicode ('u' :: (w ++ (text ++ '"' :: rest))) =
        .ok ⟨c, text ++ '"' :: rest, Nat.lt_succ_of_lt hlt'⟩ := by
      rw [escaped, hword]
      rfl
    have htext : '\\' :: 'u' :: (w ++ text) ++ '"' :: rest =
        '\\' :: ('u' :: (w ++ (text ++ '"' :: rest))) := by
      rw [List.cons_append, List.cons_append, List.append_assoc]
    simp only [htext] at hle ⊢
    obtain ⟨hlt, hrest⟩ := ih (c :: front) (Nat.le_of_lt (Nat.lt_trans (Nat.lt_succ_of_lt hlt') hle))
    refine ⟨hlt, ?_⟩
    rw [body, if_neg (by decide), if_pos rfl]
    simp only [hescaped]
    rw [hrest, List.reverse_cons, List.append_assoc]
    rfl

theorem read_append {s : String} {text : List Char} (h : Spells IsUnicode s.toList text)
    (rest : List Char) : ∃ h, read (text ++ '"' :: rest) = .ok ⟨s, rest, h⟩ := by
  obtain ⟨hlt, hbody⟩ := body_append (fun _ _ => unicodeEscape_append) h [] rest (Nat.le_refl _)
  refine ⟨hlt, ?_⟩
  rw [read, hbody]
  show Except.ok (Read.mk (String.ofList s.toList) rest hlt) = _
  rw [String.ofList_toList]

theorem skip_append {cs text : List Char} (h : Spells IsAnyWord cs text) (rest : List Char) :
    ∃ h, skip (text ++ '"' :: rest) = .ok ⟨(), rest, h⟩ := by
  let anyWord : Reader Char := fun text => (hexWord text).map (Read.map fun _ => ' ')
  have hunicode : ∀ c w, IsAnyWord c w → ∀ rest, ∃ h, anyWord (w ++ rest) = .ok ⟨c, rest, h⟩ := by
    rintro c w ⟨hw⟩ rest
    obtain ⟨hlt, hword⟩ := hexWord_append hw rest
    refine ⟨hlt, ?_⟩
    show (hexWord (w ++ rest)).map _ = _
    rw [hword]
    rfl
  obtain ⟨hlt, hbody⟩ := body_append hunicode h [] rest (Nat.le_refl _)
  refine ⟨hlt, ?_⟩
  rw [skip, hbody]
  rfl

end Quoted

theorem reads_string {s : String} {text : List Char} (h : IsString s text) : Reads string s text := by
  obtain ⟨h⟩ := h
  refine ⟨begun_cons (by decide) _, ?_⟩
  intro w rest hw hrest
  obtain ⟨hlt, hsolid⟩ := solid_append hw (c := '"') (by decide) (_ ++ '"' :: rest)
  obtain ⟨hlt', hread⟩ := Quoted.read_append h rest
  rw [List.cons_append, List.append_assoc]
  refine ⟨Nat.lt_trans hlt' hlt, ?_⟩
  simp only [List.cons_append, List.nil_append, string, hsolid, bind, Except.bind, hread]
  rfl

/-! ## What the library writes -/

/-- Every character is spelled by what is written for it. -/
theorem Spells.escape_append {cs text : List Char} (h : Spells IsUnicode cs text) (c : Char) :
    Spells IsUnicode (c :: cs) (escape c ++ text) := by
  unfold escape
  split
  next hc => rw [hc]; exact .letter (by decide) h
  split
  next hc => rw [hc]; exact .letter (by decide) h
  split
  next hc => rw [hc]; exact .letter (by decide) h
  split
  next hc => rw [hc]; exact .letter (by decide) h
  split
  next hc => rw [hc]; exact .letter (by decide) h
  split
  next hc => rw [hc]; exact .letter (by decide) h
  split
  next hc => rw [hc]; exact .letter (by decide) h
  split
  next hcontrol =>
    have hword : IsHexWord (((0 * 16 + 0) * 16 + c.toNat / 16) * 16 + c.toNat % 16)
        ['0', '0', Hex.digit (c.toNat / 16), Hex.digit (c.toNat % 16)] :=
      .mk (by decide) (by decide) (Hex.value?_digit (by omega)) (Hex.value?_digit (by omega))
    have hvalue : ((0 * 16 + 0) * 16 + c.toNat / 16) * 16 + c.toNat % 16 = c.toNat := by omega
    rw [hvalue] at hword
    have hlow : Quoted.isLowSurrogate c.toNat = false := by
      simp only [Quoted.isLowSurrogate, Bool.and_eq_false_iff, decide_eq_false_iff_not]
      omega
    have hhigh : Quoted.isHighSurrogate c.toNat = false := by
      simp only [Quoted.isHighSurrogate, Bool.and_eq_false_iff, decide_eq_false_iff_not]
      omega
    have hunicode : IsUnicode (Char.ofNat c.toNat) _ := .word hword hlow hhigh
    rw [Char.ofNat_toNat] at hunicode
    exact .number hunicode h
  next hquote hsolidus _ _ _ _ _ hcontrol => exact .raw hquote hsolidus (Nat.not_lt.mp hcontrol) h

theorem spells_flatMap_escape (cs : List Char) : Spells IsUnicode cs (cs.flatMap escape) := by
  induction cs with
  | nil => exact .nil
  | cons c cs ih => exact ih.escape_append c

theorem isString_quote (s : String) : IsString s (quote s) := .mk (spells_flatMap_escape s.toList)

end MinedChain.Json
