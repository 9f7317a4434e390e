import MinedChain.Json.Record
import MinedChain.Proofs.Json.Skipping

/-!
# Records in JSON texts

An object is read entry by entry. An entry of a name that the record has changes what has been read so
far, and one of any other name does nothing; so what an object holds is the composition of its entries,
in the order in which they stand. This needs that no name of the record is given twice, and nothing of
the other names.
-/

namespace MinedChain.Json

theorem reads_member {ρ α : Type} (name : String) {read : Reader α} (set : α → ρ → ρ) {a : α}
    {t : List Char} (h : Reads read a t) : Reads (Member.of name read set).read (set a) t :=
  h.map set

/-- An entry of an object: its text, the name that is spelled there, and what it changes. -/
structure Entry (ρ : Type) where
  text : MemberText
  name : String
  update : ρ → ρ

/-- An entry as it is written, with `after` between the colon and the value. -/
def Entry.written {ρ : Type} (after : List Char) (name : String) (update : ρ → ρ)
    (value : List Char) : Entry ρ := ⟨⟨quote name, [], after, value⟩, name, update⟩

namespace Record

variable {ρ α : Type} (record : Record ρ α)

/-- The member of the record that has this name. -/
def find? (name : String) : Option (Member ρ) := record.members.find? (·.name = name)

/-- The record understands the entry: it has a member of the name that reads the value, or it has none
and the value is skipped. -/
structure Understands (e : Entry ρ) : Prop where
  spaced : e.text.IsSpaced
  name : IsString e.name e.text.name
  value : (∃ m, record.find? e.name = some m ∧ Reads m.read e.update e.text.value) ∨
    (record.find? e.name = none ∧ IsValue e.text.value ∧ e.update = id)

/-- No entry of a name that the record has comes after one of the same name. -/
def Once (es : List (Entry ρ)) : Prop :=
  es.Pairwise fun e e' => record.find? e'.name = none ∨ e'.name ≠ e.name

/-- What the entries make of what has been read before, one after another. -/
def hold (held : ρ) (es : List (Entry ρ)) : ρ := es.foldl (fun held e => e.update held) held

variable {record} {e : Entry ρ} {es : List (Entry ρ)} {seen : List String} {text : List Char}

/-! ## Entries -/

theorem Understands.begun (he : record.Understands e) : Begun e.text.text :=
  he.name.isSkippedString.begun_append _

theorem member_append (he : record.Understands e)
    (hseen : record.find? e.name = none ∨ e.name ∉ seen) {rest : List Char} (hrest : Delimited rest) :
    ∃ h, record.member seen e.name
      (e.text.before ++ ':' :: (e.text.after ++ (e.text.value ++ rest))) = .ok ⟨e.update, rest, h⟩ := by
  obtain ⟨h, hcolon⟩ := mark_append he.spaced.before (m := ':') (by decide)
    (e.text.after ++ (e.text.value ++ rest))
  rcases he.value with ⟨m, hfind, hread⟩ | ⟨hfind, hvalue, hupdate⟩
  · have hnew : e.name ∉ seen := hseen.resolve_left fun hnone => nomatch hfind.symm.trans hnone
    obtain ⟨h', hread⟩ := hread.reads _ rest he.spaced.after hrest
    refine ⟨Nat.lt_trans h' h, ?_⟩
    rw [find?] at hfind
    simp only [member, hfind, if_neg hnew, hcolon, hread, bind, Except.bind]
    rfl
  · obtain ⟨h', hskip⟩ := (Skip.reads_value hvalue).reads _ rest he.spaced.after hrest
    refine ⟨Nat.lt_trans h' h, ?_⟩
    rw [find?] at hfind
    simp only [member, hfind, hcolon, hskip, hupdate, bind, Except.bind]
    rfl

/-- The three pieces in which an entry is read. -/
theorem entry_append (he : record.Understands e)
    (hseen : record.find? e.name = none ∨ e.name ∉ seen) {rest : List Char} (hrest : Delimited rest) :
    ∃ text text' h h' h'', mark '"' (e.text.text ++ rest) = .ok ⟨(), text, h⟩ ∧
      Quoted.read text = .ok ⟨e.name, text', h'⟩ ∧
      record.member seen e.name text' = .ok ⟨e.update, rest, h''⟩ := by
  obtain ⟨h'', hmember⟩ := member_append he hseen hrest
  obtain @⟨t, hname⟩ : ∃ t, e.text.name = '"' :: (t ++ ['"']) ∧ Spells IsUnicode e.name.toList t := by
    have hname := he.name
    generalize e.text.name = n at hname
    obtain ⟨h⟩ := hname
    exact ⟨_, rfl, h⟩
  obtain ⟨h, hmark⟩ := mark_append blanks_nil (m := '"') (by decide)
    (t ++ '"' :: (e.text.before ++ ':' :: (e.text.after ++ (e.text.value ++ rest))))
  obtain ⟨h', hread⟩ := Quoted.read_append hname.2
    (e.text.before ++ ':' :: (e.text.after ++ (e.text.value ++ rest)))
  have htext : e.text.text ++ rest =
      '"' :: (t ++ '"' :: (e.text.before ++ ':' :: (e.text.after ++ (e.text.value ++ rest)))) := by
    simp only [MemberText.text, hname.1, List.append_assoc, List.cons_append, List.nil_append]
  rw [htext]
  exact ⟨_, _, h, h', h'', hmark, hread, hmember⟩

/-! ## Objects -/

/-- One step of reading an object: an entry is next. -/
theorem named_item {isFirst : Bool} {rest : List Char} (he : record.Understands e)
    (hseen : record.find? e.name = none ∨ e.name ∉ seen) (hrest : Delimited rest)
    {h : (e.text.text ++ rest).length ≤ text.length}
    (hnext : nextItem '}' isFirst text = .ok (.item ⟨e.text.text ++ rest, h⟩)) (held : ρ) {bound : Nat}
    (hle : text.length ≤ bound) :
    ∃ hle', record.named isFirst seen held text hle =
      record.named false (e.name :: seen) (e.update held) rest hle' := by
  obtain ⟨t, t', h₁, h₂, h₃, hmark, hname, hmember⟩ := entry_append he hseen hrest
  have hlt : rest.length < (e.text.text ++ rest).length := Nat.lt_trans h₃ (Nat.lt_trans h₂ h₁)
  refine ⟨Nat.le_of_lt (Nat.lt_of_lt_of_le hlt (Nat.le_trans h hle)), ?_⟩
  rw [named]
  simp only [hnext, hmark, hname, hmember]

theorem named_done {isFirst : Bool} {w : List Char} (hw : Blanks w) (seen : List String) (held : ρ)
    (rest : List Char) {bound : Nat} (hle : (w ++ '}' :: rest).length ≤ bound) :
    ∃ hlt, record.named isFirst seen held (w ++ '}' :: rest) hle = record.close held rest hlt := by
  obtain ⟨hlt, hnext⟩ := nextItem_done (.inr rfl) isFirst hw rest
  refine ⟨Nat.lt_of_lt_of_le hlt hle, ?_⟩
  rw [named]
  simp only [hnext]

/-- The object from behind an entry on. -/
theorem named_append (hes : ∀ e ∈ es, record.Understands e) (honce : record.Once es)
    (hseen : ∀ e ∈ es, record.find? e.name = none ∨ e.name ∉ seen)
    (h : Continued (es.map (·.text.text)) text) (held : ρ) (rest : List Char) {bound : Nat}
    (hle : (text ++ '}' :: rest).length ≤ bound) :
    ∃ hlt, record.named false seen held (text ++ '}' :: rest) hle =
      record.close (hold held es) rest hlt := by
  induction es generalizing held seen text with
  | nil =>
    cases h with
    | done hw => exact named_done hw seen held rest hle
  | cons e es ih =>
    cases h with
    | @more w w' _ text _ hw hw' h =>
      have he := hes e List.mem_cons_self
      obtain ⟨hfirst, honce⟩ := List.pairwise_cons.mp honce
      -- the name that is read now joins the ones that must not come again
      have hseen' : ∀ e' ∈ es, record.find? e'.name = none ∨ e'.name ∉ e.name :: seen := by
        intro e' he'
        rcases hseen e' (List.mem_cons_of_mem e he') with hnone | hnew
        · exact .inl hnone
        · exact (hfirst e' he').imp_right fun hne hmem => (List.mem_cons.mp hmem).elim hne hnew
      obtain ⟨_, hnext⟩ := nextItem_comma (.inr rfl) hw hw' he.begun (text ++ '}' :: rest)
      simp only [comma_append] at hle ⊢
      obtain ⟨hle', hitem⟩ := named_item he (hseen e List.mem_cons_self)
        (h.delimited_append (.inr rfl) rest) hnext held hle
      rw [hitem]
      exact ih (fun e' he' => hes e' (List.mem_cons_of_mem e he')) honce hseen' h (e.update held) hle'

/-- The object from its opening on. -/
theorem named_listed (hes : ∀ e ∈ es, record.Understands e) (honce : record.Once es)
    (h : Listed (es.map (·.text.text)) text) (held : ρ) (rest : List Char) {bound : Nat}
    (hle : (text ++ '}' :: rest).length ≤ bound) :
    ∃ hlt, record.named true [] held (text ++ '}' :: rest) hle =
      record.close (hold held es) rest hlt := by
  cases es with
  | nil =>
    cases h with
    | empty hw => exact named_done hw [] held rest hle
  | cons e es =>
    cases h with
    | @items w _ text _ hw h =>
      have he := hes e List.mem_cons_self
      obtain ⟨hfirst, honce⟩ := List.pairwise_cons.mp honce
      have hnew : e.name ∉ ([] : List String) := List.not_mem_nil
      have hseen : ∀ e' ∈ es, record.find? e'.name = none ∨ e'.name ∉ [e.name] :=
        fun e' he' => (hfirst e' he').imp_right fun hne hmem => hne (List.mem_singleton.mp hmem)
      obtain ⟨_, hnext⟩ := nextItem_first (.inr rfl) hw he.begun (text ++ '}' :: rest)
      simp only [item_append] at hle ⊢
      obtain ⟨hle', hitem⟩ := named_item he (.inr hnew) (h.delimited_append (.inr rfl) rest) hnext held
        hle
      rw [hitem]
      exact named_append (fun e' he' => hes e' (List.mem_cons_of_mem e he')) honce hseen h
        (e.update held) rest hle'

/-- An object of entries that the record understands, none of its names given twice, is read as what
the entries hold, if that is complete. -/
theorem reads_object (hes : ∀ e ∈ es, record.Understands e) (honce : record.Once es)
    (h : Listed (es.map (·.text.text)) text) {a : α}
    (hcomplete : record.complete (hold record.start es) = some a) :
    Reads record.read a ('{' :: (text ++ ['}'])) := by
  refine ⟨begun_cons (by decide) _, ?_⟩
  intro w rest hw hrest
  obtain ⟨hlt, hsolid⟩ := solid_append hw (c := '{') (by decide) (text ++ '}' :: rest)
  obtain ⟨hlt', hnamed⟩ := named_listed hes honce h record.start rest (Nat.le_of_lt hlt)
  have hclose : record.close (hold record.start es) rest hlt' = .ok ⟨a, rest, hlt'⟩ := by
    rw [close, hcomplete]
  rw [bracketed_append]
  refine ⟨hlt', ?_⟩
  simp only [read, hsolid, bind, Except.bind]
  exact (if_neg (by decide)).trans ((if_pos trivial).trans (hnamed.trans hclose))

/-! ## What the library writes -/

theorem understands_written {after : List Char} (hafter : Blanks after) {name : String}
    {m : Member ρ} (hfind : record.find? name = some m) {update : ρ → ρ} {value : List Char}
    (hread : Reads m.read update value) : record.Understands (.written after name update value) where
  spaced := ⟨blanks_nil, hafter⟩
  name := isString_quote name
  value := .inl ⟨m, hfind, hread⟩

theorem once_of_nodup (h : (es.map (·.name)).Nodup) : record.Once es := by
  refine (List.pairwise_map.mp h).imp ?_
  intro e e' hne
  exact .inr hne.symm

end Record

end MinedChain.Json
