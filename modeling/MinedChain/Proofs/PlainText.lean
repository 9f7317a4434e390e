import MinedChain.Text.Utf8

/-!
# Text that is written and read

The octets of a text are cut into its characters again: what is written for a character is one part, and
that part is the character. So a text that is written as octets is read as itself, and neither strict nor
lenient reading finds a fault in it.
-/

namespace MinedChain.Utf8

/-! ## Octets -/

variable {a b c d : UInt8} {rest : Bytes}

theorem isTail_iff : isTail b = true ↔ 0x80 ≤ b.toNat ∧ b.toNat ≤ 0xBF := by
  simp only [isTail, Bool.and_eq_true, decide_eq_true_eq, UInt8.le_iff_toNat_le]
  rfl

/-- What a second octet of three has to be. -/
structure IsSecondOfThree (a b : UInt8) : Prop where
  lower : 0x80 ≤ b.toNat
  upper : b.toNat ≤ 0xBF
  noShorter : a.toNat = 0xE0 → 0xA0 ≤ b.toNat
  noSurrogate : a.toNat = 0xED → b.toNat ≤ 0x9F

theorem IsSecondOfThree.isSecondOfThree (h : IsSecondOfThree a b) : isSecondOfThree a b = true := by
  obtain ⟨hlower, hupper, hnoShorter, hnoSurrogate⟩ := h
  simp only [Utf8.isSecondOfThree, Bool.and_eq_true, decide_eq_true_eq, UInt8.le_iff_toNat_le,
    ← UInt8.toNat_inj]
  constructor
  · split
    next h => exact hnoShorter h
    next => exact hlower
  · split
    next h => exact hnoSurrogate h
    next => exact hupper

/-- What a second octet of four has to be. -/
structure IsSecondOfFour (a b : UInt8) : Prop where
  lower : 0x80 ≤ b.toNat
  upper : b.toNat ≤ 0xBF
  noShorter : a.toNat = 0xF0 → 0x90 ≤ b.toNat
  noGreater : a.toNat = 0xF4 → b.toNat ≤ 0x8F

theorem IsSecondOfFour.isSecondOfFour (h : IsSecondOfFour a b) : isSecondOfFour a b = true := by
  obtain ⟨hlower, hupper, hnoShorter, hnoGreater⟩ := h
  simp only [Utf8.isSecondOfFour, Bool.and_eq_true, decide_eq_true_eq, UInt8.le_iff_toNat_le,
    ← UInt8.toNat_inj]
  constructor
  · split
    next h => exact hnoShorter h
    next => exact hlower
  · split
    next h => exact hnoGreater h
    next => exact hupper

/-! ## Parts -/

theorem not_lt_of_le_toNat {first : UInt8} (h : first.toNat ≤ a.toNat) : ¬a < first := by
  rw [UInt8.lt_iff_toNat_lt]
  exact Nat.not_lt.mpr h

theorem between_of_toNat {first last : UInt8} (h : first.toNat ≤ a.toNat)
    (h' : a.toNat ≤ last.toNat) : first ≤ a ∧ a ≤ last := by
  rw [UInt8.le_iff_toNat_le, UInt8.le_iff_toNat_le]
  exact ⟨h, h'⟩

theorem not_between_of_lt_toNat {first last : UInt8} (h : last.toNat < a.toNat) :
    ¬(first ≤ a ∧ a ≤ last) := by
  rw [UInt8.le_iff_toNat_le, UInt8.le_iff_toNat_le]
  exact fun h' => Nat.not_le.mpr h h'.2

theorem parts_one (ha : a.toNat < 0x80) :
    parts (a :: rest) = some (Char.ofNat a.toNat) :: parts rest := by
  have h : a < 0x80 := UInt8.lt_iff_toNat_lt.mpr ha
  rw [parts.eq_def]
  exact if_pos h

theorem parts_two (ha : 0xC2 ≤ a.toNat) (ha' : a.toNat ≤ 0xDF) (hb : isTail b = true) :
    parts (a :: b :: rest) = some (assemble (a.toNat % 32) [b]) :: parts rest := by
  have h₁ : ¬a < 0x80 := not_lt_of_le_toNat (Nat.le_trans (by decide) ha)
  have h₂ : 0xC2 ≤ a ∧ a ≤ 0xDF := between_of_toNat ha ha'
  rw [parts.eq_def]
  exact (if_neg h₁).trans ((if_pos h₂).trans (if_pos hb))

theorem parts_three (ha : 0xE0 ≤ a.toNat) (ha' : a.toNat ≤ 0xEF) (hb : IsSecondOfThree a b)
    (hc : isTail c = true) :
    parts (a :: b :: c :: rest) = some (assemble (a.toNat % 16) [b, c]) :: parts rest := by
  -- the ranges of first octets are looked at in their order, and those before this one are missed
  have h₁ : ¬a < 0x80 := not_lt_of_le_toNat (Nat.le_trans (by decide) ha)
  have h₂ : ¬(0xC2 ≤ a ∧ a ≤ 0xDF) := not_between_of_lt_toNat (Nat.lt_of_lt_of_le (by decide) ha)
  have h₃ : 0xE0 ≤ a ∧ a ≤ 0xEF := between_of_toNat ha ha'
  rw [parts.eq_def]
  exact (if_neg h₁).trans ((if_neg h₂).trans ((if_pos h₃).trans
    ((if_pos hb.isSecondOfThree).trans (if_pos hc))))

theorem parts_four (ha : 0xF0 ≤ a.toNat) (ha' : a.toNat ≤ 0xF4) (hb : IsSecondOfFour a b)
    (hc : isTail c = true) (hd : isTail d = true) :
    parts (a :: b :: c :: d :: rest) = some (assemble (a.toNat % 8) [b, c, d]) :: parts rest := by
  have h₁ : ¬a < 0x80 := not_lt_of_le_toNat (Nat.le_trans (by decide) ha)
  have h₂ : ¬(0xC2 ≤ a ∧ a ≤ 0xDF) := not_between_of_lt_toNat (Nat.lt_of_lt_of_le (by decide) ha)
  have h₃ : ¬(0xE0 ≤ a ∧ a ≤ 0xEF) := not_between_of_lt_toNat (Nat.lt_of_lt_of_le (by decide) ha)
  have h₄ : 0xF0 ≤ a ∧ a ≤ 0xF4 := between_of_toNat ha ha'
  rw [parts, if_neg h₁, if_neg h₂, if_neg h₃, if_pos h₄]
  exact (if_pos hb.isSecondOfFour).trans ((if_pos hc).trans (if_pos hd))

/-! ## Characters -/

theorem toNat_ofNat_octet {n : Nat} (h : n < 256) : (UInt8.ofNat n).toNat = n :=
  Nat.mod_eq_of_lt h

theorem toNat_tail (n : Nat) : (UInt8.ofNat (n % 64 + 128)).toNat = n % 64 + 128 :=
  toNat_ofNat_octet (by omega)

theorem isTail_tail (n : Nat) : isTail (UInt8.ofNat (n % 64 + 128)) = true := by
  rw [isTail_iff, toNat_tail]
  omega

variable {v : Nat}

theorem parts_number_one (h : v ≤ 0x7F) :
    parts (UInt8.ofNat v :: rest) = some (Char.ofNat v) :: parts rest := by
  have ha : (UInt8.ofNat v).toNat = v := toNat_ofNat_octet (by omega)
  rw [parts_one (by omega), ha]

theorem parts_number_two (h : 0x7F < v) (h' : v ≤ 0x7FF) :
    parts (UInt8.ofNat (v / 64 % 32 + 192) :: UInt8.ofNat (v % 64 + 128) :: rest) =
      some (Char.ofNat v) :: parts rest := by
  have ha : (UInt8.ofNat (v / 64 % 32 + 192)).toNat = v / 64 % 32 + 192 :=
    toNat_ofNat_octet (by omega)
  have hv : ((v / 64 % 32 + 192) % 32) * 64 + (v % 64 + 128) % 64 = v := by omega
  rw [parts_two (by omega) (by omega) (isTail_tail v), assemble, ha]
  simp only [List.foldl_cons, List.foldl_nil, toNat_tail, hv]

theorem parts_number_three (h : 0x7FF < v) (h' : v ≤ 0xFFFF) (hsurrogate : v < 0xD800 ∨ 0xDFFF < v) :
    parts (UInt8.ofNat (v / 4096 % 16 + 224) :: UInt8.ofNat (v / 64 % 64 + 128) ::
      UInt8.ofNat (v % 64 + 128) :: rest) = some (Char.ofNat v) :: parts rest := by
  have ha : (UInt8.ofNat (v / 4096 % 16 + 224)).toNat = v / 4096 % 16 + 224 :=
    toNat_ofNat_octet (by omega)
  have hb := toNat_tail (v / 64)
  have hsecond : IsSecondOfThree (UInt8.ofNat (v / 4096 % 16 + 224))
      (UInt8.ofNat (v / 64 % 64 + 128)) := by
    constructor <;> omega
  have hv : (((v / 4096 % 16 + 224) % 16) * 64 + (v / 64 % 64 + 128) % 64) * 64 +
      (v % 64 + 128) % 64 = v := by omega
  rw [parts_three (by omega) (by omega) hsecond (isTail_tail v), assemble, ha]
  simp only [List.foldl_cons, List.foldl_nil, toNat_tail, hv]

theorem parts_number_four (h : 0xFFFF < v) (h' : v < 0x110000) :
    parts (UInt8.ofNat (v / 262144 % 8 + 240) :: UInt8.ofNat (v / 4096 % 64 + 128) ::
      UInt8.ofNat (v / 64 % 64 + 128) :: UInt8.ofNat (v % 64 + 128) :: rest) =
      some (Char.ofNat v) :: parts rest := by
  have ha : (UInt8.ofNat (v / 262144 % 8 + 240)).toNat = v / 262144 % 8 + 240 :=
    toNat_ofNat_octet (by omega)
  have hb := toNat_tail (v / 4096)
  have hsecond : IsSecondOfFour (UInt8.ofNat (v / 262144 % 8 + 240))
      (UInt8.ofNat (v / 4096 % 64 + 128)) := by
    constructor <;> omega
  have hv : ((((v / 262144 % 8 + 240) % 8) * 64 + (v / 4096 % 64 + 128) % 64) * 64 +
      (v / 64 % 64 + 128) % 64) * 64 + (v % 64 + 128) % 64 = v := by omega
  rw [parts_four (by omega) (by omega) hsecond (isTail_tail (v / 64)) (isTail_tail v), assemble, ha]
  simp only [List.foldl_cons, List.foldl_nil, toNat_tail, hv]

/-- What is written for a character is one part. -/
theorem parts_utf8EncodeChar_append (c : Char) (rest : Bytes) :
    parts (String.utf8EncodeChar c ++ rest) = some c :: parts rest := by
  -- the number of a character is in range, and no surrogate's
  have hvalid : c.val.toNat < 0xD800 ∨ (0xDFFF < c.val.toNat ∧ c.val.toNat < 0x110000) := c.valid
  have hc : Char.ofNat c.val.toNat = c := c.ofNat_toNat
  have hpart : parts (String.utf8EncodeChar c ++ rest) =
      some (Char.ofNat c.val.toNat) :: parts rest := by
    rw [String.utf8EncodeChar]
    split
    next h => exact parts_number_one h
    next h =>
      split
      next h' => exact parts_number_two (Nat.not_le.mp h) h'
      next h' =>
        split
        next h'' => exact parts_number_three (Nat.not_le.mp h') h'' (hvalid.imp_right And.left)
        next h'' => exact parts_number_four (Nat.not_le.mp h'') (by omega)
  rw [hpart, hc]

/-- The octets of a text are cut into its characters. -/
theorem parts_encode (s : String) : parts (encode s) = s.toList.map some := by
  rw [encode]
  induction s.toList with
  | nil => rfl
  | cons c cs ih => rw [List.flatMap_cons, parts_utf8EncodeChar_append, ih, List.map_cons]

theorem decodeLenient_encode (s : String) : decodeLenient (encode s) = s := by
  rw [decodeLenient, parts_encode, List.map_map]
  have hid : ((·.getD '\uFFFD') ∘ some : Char → Char) = id := rfl
  rw [hid, List.map_id, String.ofList_toList]

/-- Text that was written is read strictly, too. -/
theorem decode?_encode (s : String) : decode? (encode s) = some s := by
  have hread : (s.toList.map some).mapM id = some s.toList := by
    rw [List.mapM_map]
    exact (List.mapM_pure (m := Option)).trans (congrArg some (List.map_id _))
  rw [decode?, parts_encode, hread, Option.map_some, String.ofList_toList]

end MinedChain.Utf8
