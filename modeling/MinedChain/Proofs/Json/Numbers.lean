import Mathlib.Algebra.Group.Nat.Defs
import MinedChain.Json.Scalar
import MinedChain.Proofs.DecimalText
import MinedChain.Proofs.Json.Reading

/-!
# Numbers in JSON texts

The form of a number is given here as a grammar, apart from any reader: an optional minus sign, an
integer, and optionally a fraction and an exponent. A number that is skipped may have any such form; one
that is used as a natural number is an integer alone, and is read as the number that its digits denote.
Where the digits end is seen from what follows, which is no digit, no point and no letter.
-/

namespace MinedChain.Json

/-! ## The grammar -/

/-- A run of digits, of which there is at least one. -/
structure IsDigits (ds : List Char) : Prop where
  ne_nil : ds ≠ []
  isDigit : ∀ c ∈ ds, Decimal.isDigit c = true

/-- An integer: a run of digits with no zero before another digit. -/
structure IsInteger (ds : List Char) : Prop extends IsDigits ds where
  no_leading_zero : ∀ d rest, ds ≠ '0' :: d :: rest

/-- An optional fraction. -/
inductive IsFraction : List Char → Prop
  | absent : IsFraction []
  | present {ds : List Char} (h : IsDigits ds) : IsFraction ('.' :: ds)

/-- The sign that may stand in an exponent. -/
inductive IsSign : List Char → Prop
  | absent : IsSign []
  | minus : IsSign ['-']
  | plus : IsSign ['+']

/-- An optional exponent. -/
inductive IsExponent : List Char → Prop
  | absent : IsExponent []
  | present {e : Char} {sign ds : List Char} (he : e = 'e' ∨ e = 'E') (hs : IsSign sign)
      (hd : IsDigits ds) : IsExponent (e :: (sign ++ ds))

/-- A number. -/
inductive IsNumber : List Char → Prop
  | unsigned {i f e : List Char} (hi : IsInteger i) (hf : IsFraction f) (he : IsExponent e) :
      IsNumber (i ++ (f ++ e))
  | negative {i f e : List Char} (hi : IsInteger i) (hf : IsFraction f) (he : IsExponent e) :
      IsNumber ('-' :: (i ++ (f ++ e)))

/-- The digits of a natural number. -/
structure IsNumeral (n : Nat) (ds : List Char) : Prop extends IsInteger ds where
  value : Decimal.value ds = n

/-- A number is written by the digits of a numeral. -/
theorem isNumeral_encode (n : Nat) : IsNumeral n (Decimal.encode n) where
  ne_nil := Decimal.encode_ne_nil n
  isDigit _ hc := Decimal.isDigit_of_mem_encode hc
  no_leading_zero := Decimal.encode_ne_zero_cons n
  value := Decimal.value_encode n

/-! ## Digits -/

theorem isDelimiter_of_isDigit {c : Char} (h : Decimal.isDigit c = true) :
    isDelimiter c = false := by
  rw [Decimal.isDigit, Bool.and_eq_true, decide_eq_true_eq, decide_eq_true_eq] at h
  obtain ⟨hle, hle'⟩ := h
  have hne : ∀ d : Char, d < '0' ∨ '9' < d → c ≠ d := by
    rintro d (hd | hd) rfl
    · exact absurd hle (Char.not_le.mpr hd)
    · exact absurd hle' (Char.not_le.mpr hd)
  simp [isDelimiter, isBlank, hne ' ' (by decide), hne '\t' (by decide), hne '\n' (by decide),
    hne '\r' (by decide), hne ',' (by decide), hne ']' (by decide), hne '}' (by decide)]

theorem IsDigits.exists_cons {ds : List Char} (h : IsDigits ds) :
    ∃ d rest, ds = d :: rest ∧ Decimal.isDigit d = true := by
  cases ds with
  | nil => exact absurd rfl h.ne_nil
  | cons d rest => exact ⟨d, rest, rfl, h.isDigit d List.mem_cons_self⟩

theorem IsDigits.begun {ds : List Char} (h : IsDigits ds) (rest : List Char) : Begun (ds ++ rest) := by
  obtain ⟨d, ds', rfl, hd⟩ := h.exists_cons
  exact begun_cons (isDelimiter_of_isDigit hd) (ds' ++ rest)

theorem IsDigits.head?_append_ne {ds : List Char} (h : IsDigits ds) {c : Char}
    (hc : Decimal.isDigit c = false) (rest : List Char) : (ds ++ rest).head? ≠ some c := by
  obtain ⟨d, ds', rfl, hd⟩ := h.exists_cons
  intro heq
  obtain rfl : d = c := by injection heq
  exact Bool.false_ne_true (hc.symm.trans hd)

/-- A number begins with a sign or a digit. -/
theorem IsNumber.exists_cons {t : List Char} (h : IsNumber t) :
    ∃ c rest, t = c :: rest ∧ (c = '-' ∨ Decimal.isDigit c = true) := by
  cases h with
  | unsigned hi hf he =>
    obtain ⟨d, ds, rfl, hd⟩ := hi.toIsDigits.exists_cons
    exact ⟨d, _, List.cons_append, .inr hd⟩
  | negative hi hf he => exact ⟨'-', _, rfl, .inl rfl⟩

theorem IsNumber.begun {t : List Char} (h : IsNumber t) : Begun t := by
  cases h with
  | unsigned hi hf he => exact hi.toIsDigits.begun _
  | negative hi hf he => exact begun_cons (by decide) _

/-- What follows a run of digits and is not of it. -/
def NoDigit (rest : List Char) : Prop := ∀ c, rest.head? = some c → Decimal.isDigit c = false

theorem noDigit_cons {c : Char} (hc : Decimal.isDigit c = false) (rest : List Char) :
    NoDigit (c :: rest) := by
  intro d hd
  obtain rfl : c = d := by injection hd
  exact hc

theorem Delimited.noDigit {rest : List Char} (h : Delimited rest) : NoDigit rest := by
  intro c hc
  cases hd : Decimal.isDigit c with
  | false => rfl
  | true => exact absurd ((isDelimiter_of_isDigit hd).symm.trans (h c hc)) Bool.false_ne_true

/-- What follows a number does not begin with one of these. -/
theorem Delimited.head?_ne {rest : List Char} (h : Delimited rest) {c : Char}
    (hc : isDelimiter c = false) : rest.head? ≠ some c := by
  intro hd
  exact Bool.false_ne_true (hc.symm.trans (h c hd))

theorem spanDigits_append {ds rest : List Char} (hds : ∀ c ∈ ds, Decimal.isDigit c = true)
    (hrest : NoDigit rest) : Number.spanDigits (ds ++ rest) = (ds, rest) := by
  have hnone : rest.takeWhile Decimal.isDigit = [] ∧ rest.dropWhile Decimal.isDigit = rest := by
    cases rest with
    | nil => exact ⟨rfl, rfl⟩
    | cons c rest =>
      have hc := hrest c rfl
      rw [List.takeWhile_cons, List.dropWhile_cons, hc]
      exact ⟨rfl, rfl⟩
  rw [Number.spanDigits, List.takeWhile_append_of_pos hds, List.dropWhile_append_of_pos hds, hnone.1,
    hnone.2, List.append_nil]

theorem digits_append (missing : Fault) {ds rest : List Char} (hds : IsDigits ds)
    (hrest : NoDigit rest) : ∃ h, Number.digits missing (ds ++ rest) = .ok ⟨ds, rest, h⟩ := by
  obtain ⟨d, ds', rfl, hd⟩ := hds.exists_cons
  have hspan := spanDigits_append (fun c hc => hds.isDigit c (List.mem_cons_of_mem d hc)) hrest
  have hlt : rest.length < (d :: ds' ++ rest).length := by
    rw [List.length_append, List.length_cons]
    omega
  refine ⟨hlt, ?_⟩
  show Number.digits missing (d :: (ds' ++ rest)) = _
  rw [Number.digits, if_pos hd]
  simp only [hspan]

theorem integer_append (missing : Fault) {ds rest : List Char} (hds : IsInteger ds)
    (hrest : NoDigit rest) : ∃ h, Number.integer missing (ds ++ rest) = .ok ⟨ds, rest, h⟩ := by
  obtain ⟨h, hdigits⟩ := digits_append missing hds.toIsDigits hrest
  refine ⟨h, ?_⟩
  rw [Number.integer, hdigits]
  simp only [bind, Except.bind]
  -- only a zero with a digit behind it is refused
  split
  next d rest' => exact absurd rfl (hds.no_leading_zero d rest')
  next => rfl

/-! ## Fractions and exponents -/

theorem fraction_of_none (missing : Fault) {rest : List Char} (h : rest.head? ≠ some '.') :
    Number.fraction missing rest = .ok ([], Tail.all rest) := by
  unfold Number.fraction
  split
  next text => exact absurd rfl h
  next => rfl

theorem exponent_of_none (missing : Fault) {rest : List Char} (h : rest.head? ≠ some 'e')
    (h' : rest.head? ≠ some 'E') : Number.exponent missing rest = .ok (none, Tail.all rest) := by
  cases rest with
  | nil => rfl
  | cons c rest =>
    have hc : ¬ (c = 'e' ∨ c = 'E') := by
      rintro (rfl | rfl)
      · exact h rfl
      · exact h' rfl
    rw [Number.exponent, if_neg hc]
    rfl

theorem fraction_append (missing : Fault) {f rest : List Char} (hf : IsFraction f)
    (hrest : NoDigit rest) (hpoint : rest.head? ≠ some '.') :
    ∃ ds h, Number.fraction missing (f ++ rest) = .ok (ds, ⟨rest, h⟩) := by
  cases hf with
  | absent => exact ⟨_, _, fraction_of_none missing hpoint⟩
  | @present ds hds =>
    obtain ⟨h, hdigits⟩ := digits_append missing hds hrest
    refine ⟨ds, Nat.le_of_lt (Nat.lt_succ_of_lt h), ?_⟩
    show Number.fraction missing ('.' :: (ds ++ rest)) = _
    rw [Number.fraction, hdigits]
    rfl

theorem signedDigits_of_head?_ne (missing : Fault) {text : List Char} (h : text.head? ≠ some '-')
    (h' : text.head? ≠ some '+') :
    Number.signedDigits missing text = (Number.digits missing text).map
      (Read.map fun ds => (Decimal.valueUpTo Number.maxExponent ds : Int)) := by
  unfold Number.signedDigits
  split
  next => exact absurd rfl h
  next => exact absurd rfl h'
  next => cases Number.digits missing text <;> rfl

theorem signedDigits_append (missing : Fault) {sign ds rest : List Char} (hsign : IsSign sign)
    (hds : IsDigits ds) (hrest : NoDigit rest) :
    ∃ x h, Number.signedDigits missing (sign ++ (ds ++ rest)) = .ok ⟨x, rest, h⟩ := by
  obtain ⟨h, hdigits⟩ := digits_append missing hds hrest
  cases hsign with
  | absent =>
    have hread : Number.signedDigits missing (ds ++ rest) =
        .ok ⟨(Decimal.valueUpTo Number.maxExponent ds : Int), rest, h⟩ := by
      rw [signedDigits_of_head?_ne missing (hds.head?_append_ne (by decide) rest)
        (hds.head?_append_ne (by decide) rest), hdigits]
      rfl
    exact ⟨_, _, hread⟩
  | minus =>
    have hread : Number.signedDigits missing ('-' :: (ds ++ rest)) =
        .ok ⟨-(Decimal.valueUpTo Number.maxExponent ds : Int), rest, Nat.lt_succ_of_lt h⟩ := by
      rw [Number.signedDigits, hdigits]
      rfl
    exact ⟨_, _, hread⟩
  | plus =>
    have hread : Number.signedDigits missing ('+' :: (ds ++ rest)) =
        .ok ⟨(Decimal.valueUpTo Number.maxExponent ds : Int), rest, Nat.lt_succ_of_lt h⟩ := by
      rw [Number.signedDigits, hdigits]
      rfl
    exact ⟨_, _, hread⟩

theorem exponent_append (missing : Fault) {e rest : List Char} (he : IsExponent e)
    (hrest : Delimited rest) :
    ∃ x h, Number.exponent missing (e ++ rest) = .ok (x, ⟨rest, h⟩) := by
  cases he with
  | absent =>
    exact ⟨_, _, exponent_of_none missing (hrest.head?_ne (by decide)) (hrest.head?_ne (by decide))⟩
  | @present c sign ds hc hsign hds =>
    obtain ⟨x, h, hsigned⟩ := signedDigits_append missing hsign hds hrest.noDigit
    have hle : rest.length ≤ (c :: (sign ++ (ds ++ rest))).length :=
      Nat.le_of_lt (Nat.lt_succ_of_lt h)
    have hread : Number.exponent missing (c :: (sign ++ (ds ++ rest))) = .ok (some x, ⟨rest, hle⟩) := by
      rw [Number.exponent, if_pos hc, hsigned]
      rfl
    rw [List.cons_append, List.append_assoc]
    exact ⟨_, _, hread⟩

/-! ## Whole numbers and numbers that are skipped -/

/-- What an exponent and all that follows it begin with is no digit and no point. -/
theorem IsExponent.noDigit_append {e rest : List Char} (he : IsExponent e) (hrest : Delimited rest) :
    NoDigit (e ++ rest) ∧ (e ++ rest).head? ≠ some '.' := by
  cases he with
  | absent => exact ⟨hrest.noDigit, hrest.head?_ne (by decide)⟩
  | @present c sign ds hc hsign hds =>
    rcases hc with rfl | rfl
    · exact ⟨noDigit_cons (by decide) _, by simp⟩
    · exact ⟨noDigit_cons (by decide) _, by simp⟩

theorem IsFraction.noDigit_append {f rest : List Char} (hf : IsFraction f) (hrest : NoDigit rest) :
    NoDigit (f ++ rest) := by
  cases hf with
  | absent => exact hrest
  | present hds => exact noDigit_cons (by decide) _

theorem unsignedParts_append (missing : Fault) {i f e rest : List Char} (hi : IsInteger i)
    (hf : IsFraction f) (he : IsExponent e) (hrest : Delimited rest) :
    ∃ x h, Number.unsignedParts missing (i ++ (f ++ (e ++ rest))) = .ok ⟨x, rest, h⟩ := by
  obtain ⟨hdigit, hpoint⟩ := he.noDigit_append hrest
  obtain ⟨h₁, hinteger⟩ := integer_append missing hi (hf.noDigit_append hdigit)
  obtain ⟨ds, h₂, hfraction⟩ := fraction_append missing hf hdigit hpoint
  obtain ⟨x, h₃, hexponent⟩ := exponent_append missing he hrest
  have hlt : rest.length < (i ++ (f ++ (e ++ rest))).length :=
    Nat.lt_of_le_of_lt (Nat.le_trans h₃ h₂) h₁
  have hread : Number.unsignedParts missing (i ++ (f ++ (e ++ rest))) =
      .ok ⟨(⟨i, ds, x.getD 0⟩, ds.isEmpty && x.isNone), rest, hlt⟩ := by
    simp only [Number.unsignedParts, hinteger, hfraction, hexponent, bind, Except.bind]
    rfl
  exact ⟨_, _, hread⟩

theorem skip_of_head?_ne {text : List Char} (h : text.head? ≠ some '-') :
    Number.skip text =
      (Number.unsignedParts .malformed text).map (Read.map fun _ => ()) := by
  unfold Number.skip
  split
  next => exact absurd rfl h
  next => cases Number.unsignedParts .malformed text <;> rfl

theorem skip_number {t rest : List Char} (ht : IsNumber t) (hrest : Delimited rest) :
    ∃ h, Number.skip (t ++ rest) = .ok ⟨(), rest, h⟩ := by
  cases ht with
  | @unsigned i f e hi hf he =>
    obtain ⟨x, h, hparts⟩ := unsignedParts_append .malformed hi hf he hrest
    rw [List.append_assoc, List.append_assoc,
      skip_of_head?_ne (hi.toIsDigits.head?_append_ne (by decide) _), hparts]
    exact ⟨h, rfl⟩
  | @negative i f e hi hf he =>
    obtain ⟨x, h, hparts⟩ := unsignedParts_append .malformed hi hf he hrest
    rw [List.cons_append, List.append_assoc, List.append_assoc]
    refine ⟨Nat.lt_succ_of_lt h, ?_⟩
    rw [Number.skip, hparts]
    rfl

/-! ## Natural numbers that are used -/

theorem unsignedParts_integer (missing : Fault) {ds rest : List Char} (hds : IsInteger ds)
    (hrest : Delimited rest) :
    ∃ h, Number.unsignedParts missing (ds ++ rest) = .ok ⟨(⟨ds, [], 0⟩, true), rest, h⟩ := by
  obtain ⟨h, hinteger⟩ := integer_append missing hds hrest.noDigit
  have hfraction := fraction_of_none missing (hrest.head?_ne (c := '.') (by decide))
  have hexponent := exponent_of_none missing (hrest.head?_ne (c := 'e') (by decide))
    (hrest.head?_ne (c := 'E') (by decide))
  have hexponent' : Number.exponent missing (Tail.all rest).rest = .ok (none, Tail.all rest) :=
    hexponent
  refine ⟨h, ?_⟩
  simp only [Number.unsignedParts, hinteger, hfraction, hexponent', bind, Except.bind]
  rfl

theorem read_of_word {text rest : List Char} {parts : Number.Parts} {isWhole : Bool} {n : Nat}
    {h : rest.length < text.length} (hsign : text.head? ≠ some '-')
    (hparts : Number.unsignedParts .truncated text = .ok ⟨(parts, isWhole), rest, h⟩)
    (hword : parts.word? isWhole = some n) : Number.read text = .ok ⟨some n, rest, h⟩ := by
  unfold Number.read
  split
  next => exact absurd rfl hsign
  next =>
    rw [hparts]
    simp only [bind, Except.bind, hword]
    rfl

theorem read_numeral {n : Nat} {ds rest : List Char} (hds : IsNumeral n ds) (hlt : n < 2 ^ 64)
    (hrest : Delimited rest) : ∃ h, Number.read (ds ++ rest) = .ok ⟨some n, rest, h⟩ := by
  obtain ⟨h, hparts⟩ := unsignedParts_integer .truncated hds.toIsInteger hrest
  have hword : (Number.Parts.mk ds [] 0).word? true = some n := by
    rw [Number.Parts.word?, if_pos rfl, Decimal.valueBelow?_eq _ (by decide), hds.value]
    exact if_pos hlt
  exact ⟨h, read_of_word (hds.toIsDigits.head?_append_ne (by decide) rest) hparts hword⟩

/-- The digits of a number below the limit are read as the number. -/
theorem reads_natural {limit n : Nat} {ds : List Char} (hlimit : limit ≤ 2 ^ 64)
    (hds : IsNumeral n ds) (hn : n < limit) : Reads (natural limit) n ds := by
  obtain ⟨d, ds', rfl, hd⟩ := hds.toIsDigits.exists_cons
  refine ⟨begun_cons (isDelimiter_of_isDigit hd) ds', ?_⟩
  intro w rest hw hrest
  have hblank : isBlank d = false := isBlank_of_isDelimiter_eq_false (isDelimiter_of_isDigit hd)
  -- the first digit is seen twice: where the blanks end, and as a part of the number
  obtain ⟨h, hsolid⟩ := solid_append hw hblank (ds' ++ rest)
  obtain ⟨h', hread⟩ := read_numeral hds (Nat.lt_of_lt_of_le hn hlimit) hrest
  have hread' : Number.read (d :: (ds' ++ rest)) = .ok ⟨some n, rest, h'⟩ := hread
  refine ⟨Nat.lt_of_lt_of_le h' h, ?_⟩
  show natural limit (w ++ d :: (ds' ++ rest)) = _
  simp only [natural, hsolid, bind, Except.bind]
  rw [if_pos (.inr hd), hread']
  exact if_pos hn

theorem reads_octet {b : UInt8} {ds : List Char} (hds : IsNumeral b.toNat ds) : Reads octet b ds := by
  have h := (reads_natural (by decide) hds b.toNat_lt).map UInt8.ofNat
  rwa [UInt8.ofNat_toNat] at h

theorem reads_word32 {w : UInt32} {ds : List Char} (hds : IsNumeral w.toNat ds) :
    Reads word32 w ds := by
  have h := (reads_natural (by decide) hds w.toNat_lt).map UInt32.ofNat
  rwa [UInt32.ofNat_toNat] at h

theorem reads_word64 {w : UInt64} {ds : List Char} (hds : IsNumeral w.toNat ds) :
    Reads word64 w ds := by
  have h := (reads_natural (by decide) hds w.toNat_lt).map UInt64.ofNat
  rwa [UInt64.ofNat_toNat] at h

end MinedChain.Json
