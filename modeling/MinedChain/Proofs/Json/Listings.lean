import MinedChain.Json.Printer
import MinedChain.Json.Record
import MinedChain.Proofs.Json.Reading

/-!
# Listings in JSON texts

What stands between the brackets of an array or an object is a listing: items with commas between them,
and blanks before and behind each. Both layouts in which values are written are listings of the written
items, and readers of arrays read every listing of items that their elements' reader reads.
-/

namespace MinedChain.Json

/-! ## The grammar -/

/-- What stands behind an item: blanks, or a comma and further items, each with blanks around it. -/
inductive Continued : List (List Char) → List Char → Prop
  | done {w : List Char} (hw : Blanks w) : Continued [] w
  | more {w w' t text : List Char} {ts : List (List Char)} (hw : Blanks w) (hw' : Blanks w')
      (h : Continued ts text) : Continued (t :: ts) (w ++ ',' :: (w' ++ (t ++ text)))

/-- The items with commas between them, and blanks around each. -/
inductive Listed : List (List Char) → List Char → Prop
  | empty {w : List Char} (hw : Blanks w) : Listed [] w
  | items {w t text : List Char} {ts : List (List Char)} (hw : Blanks w) (h : Continued ts text) :
      Listed (t :: ts) (w ++ (t ++ text))

/-- One of the two characters that end a container. -/
def IsCloser (c : Char) : Prop := c = ']' ∨ c = '}'

namespace IsCloser

variable {closer : Char}

theorem isDelimiter (h : IsCloser closer) : isDelimiter closer = true := by
  rcases h with rfl | rfl <;> decide

theorem isBlank (h : IsCloser closer) : isBlank closer = false := by
  rcases h with rfl | rfl <;> decide

theorem ne_comma (h : IsCloser closer) : closer ≠ ',' := by
  rcases h with rfl | rfl <;> decide

theorem ne_of_isDelimiter_eq_false (h : IsCloser closer) {c : Char}
    (hc : Json.isDelimiter c = false) : c ≠ closer := by
  rintro rfl
  exact Bool.false_ne_true (hc.symm.trans h.isDelimiter)

end IsCloser

/-- What stands behind an item, and the end of the container, may follow a value. -/
theorem Continued.delimited_append {ts : List (List Char)} {text : List Char} (h : Continued ts text)
    {closer : Char} (hcloser : IsCloser closer) (rest : List Char) :
    Delimited (text ++ closer :: rest) := by
  cases h with
  | done hw => exact hw.delimited_append (delimited_cons hcloser.isDelimiter _)
  | more hw hw' h =>
    rw [List.append_assoc]
    exact hw.delimited_append (delimited_cons (by decide) _)

/-! ## Where the parts of a text stand -/

theorem bracketed_append (opener closer : Char) (w text rest : List Char) :
    w ++ (opener :: (text ++ [closer]) ++ rest) = w ++ opener :: (text ++ closer :: rest) := by
  rw [List.cons_append, List.append_assoc, List.singleton_append]

theorem item_append (w t text rest : List Char) :
    w ++ (t ++ text) ++ rest = w ++ (t ++ (text ++ rest)) := by
  rw [List.append_assoc, List.append_assoc]

theorem comma_append (w w' t text rest : List Char) :
    w ++ ',' :: (w' ++ (t ++ text)) ++ rest = w ++ ',' :: (w' ++ (t ++ (text ++ rest))) := by
  rw [List.append_assoc, List.cons_append, item_append]

/-! ## The next item -/

section

variable {closer : Char} {w w' t : List Char}

theorem nextItem_done (hcloser : IsCloser closer) (isFirst : Bool) (hw : Blanks w)
    (rest : List Char) : ∃ h, nextItem closer isFirst (w ++ closer :: rest) = .ok (.done rest h) := by
  obtain ⟨h, hsolid⟩ := solid_append hw hcloser.isBlank rest
  refine ⟨h, ?_⟩
  rw [nextItem, hsolid]
  exact if_pos rfl

theorem nextItem_first (hcloser : IsCloser closer) (hw : Blanks w) (ht : Begun t)
    (rest : List Char) :
    ∃ h, nextItem closer true (w ++ (t ++ rest)) = .ok (.item ⟨t ++ rest, h⟩) := by
  obtain ⟨c, t', rfl, hc⟩ := ht
  obtain ⟨h, hsolid⟩ := solid_append hw (isBlank_of_isDelimiter_eq_false hc) (t' ++ rest)
  refine ⟨h, ?_⟩
  show nextItem closer true (w ++ c :: (t' ++ rest)) = _
  rw [nextItem, hsolid]
  exact if_neg (hcloser.ne_of_isDelimiter_eq_false hc)

theorem nextItem_comma (hcloser : IsCloser closer) (hw : Blanks w) (hw' : Blanks w') (ht : Begun t)
    (rest : List Char) :
    ∃ h, nextItem closer false (w ++ ',' :: (w' ++ (t ++ rest))) = .ok (.item ⟨t ++ rest, h⟩) := by
  obtain ⟨c, t', rfl, hc⟩ := ht
  obtain ⟨h, hsolid⟩ := solid_append hw (c := ',') (by decide) (w' ++ (c :: t' ++ rest))
  obtain ⟨h', hsolid'⟩ := solid_append hw' (isBlank_of_isDelimiter_eq_false hc) (t' ++ rest)
  have hsolid'' : solid (w' ++ (c :: t' ++ rest)) = .ok ⟨c, t' ++ rest, h'⟩ := hsolid'
  refine ⟨Nat.le_of_lt (Nat.lt_of_le_of_lt h' h), ?_⟩
  have hcomma : ',' ≠ closer := hcloser.ne_comma.symm
  have hitem : c ≠ closer := hcloser.ne_of_isDelimiter_eq_false hc
  simp only [nextItem, hsolid, hsolid'', bind, Except.bind, if_neg hcomma, if_neg hitem,
    Bool.false_eq_true, if_false, if_true]
  rfl

end

/-! ## Arrays -/

section

variable {α : Type} {read : Reader α} {print : α → List Char} {values : List α} {text : List Char}

/-- One step of reading an array: an element is next. -/
theorem items_item (front : List α) {a : α} {t rest : List Char} (ha : Reads read a t)
    (hrest : Delimited rest) {h : (t ++ rest).length ≤ text.length}
    (hnext : nextItem ']' front.isEmpty text = .ok (.item ⟨t ++ rest, h⟩)) {bound : Nat}
    (hle : text.length ≤ bound) :
    ∃ hle', items read front text hle = items read (a :: front) rest hle' := by
  obtain ⟨hlt, hreads⟩ := ha.reads_front hrest
  refine ⟨Nat.le_of_lt (Nat.lt_of_lt_of_le hlt (Nat.le_trans h hle)), ?_⟩
  rw [items]
  simp only [hnext, hreads]

theorem items_done {w : List Char} (hw : Blanks w) (front : List α) (rest : List Char) {bound : Nat}
    (hle : (w ++ ']' :: rest).length ≤ bound) :
    ∃ hlt, items read front (w ++ ']' :: rest) hle = .ok ⟨front.reverse, rest, hlt⟩ := by
  obtain ⟨hlt, hnext⟩ := nextItem_done (.inl rfl) front.isEmpty hw rest
  refine ⟨Nat.lt_of_lt_of_le hlt hle, ?_⟩
  rw [items]
  simp only [hnext]

/-- The elements that are left when one has been read. -/
theorem items_append (hread : ∀ a ∈ values, Reads read a (print a))
    (h : Continued (values.map print) text) {front : List α} (hfront : front ≠ [])
    (rest : List Char) {bound : Nat} (hle : (text ++ ']' :: rest).length ≤ bound) :
    ∃ hlt, items read front (text ++ ']' :: rest) hle = .ok ⟨front.reverse ++ values, rest, hlt⟩ := by
  -- an element has been read, so a comma is due before each further one
  have hfirst : front.isEmpty = false := List.isEmpty_eq_false_iff.mpr hfront
  induction values generalizing front text with
  | nil =>
    cases h with
    | done hw =>
      rw [List.append_nil]
      exact items_done hw front rest hle
  | cons a values ih =>
    cases h with
    | @more w w' _ text _ hw hw' h =>
      have ha := hread a List.mem_cons_self
      obtain ⟨_, hnext⟩ := nextItem_comma (.inl rfl) hw hw' ha.begun (text ++ ']' :: rest)
      simp only [comma_append] at hle ⊢
      rw [← hfirst] at hnext
      obtain ⟨hle', hitem⟩ := items_item front ha (h.delimited_append (.inl rfl) rest) hnext hle
      obtain ⟨hlt, hitems⟩ := ih (fun b hb => hread b (List.mem_cons_of_mem a hb)) h
        (List.cons_ne_nil a front) hle' rfl
      rw [List.reverse_cons, List.append_assoc] at hitems
      exact ⟨hlt, hitem.trans hitems⟩

theorem items_listed (hread : ∀ a ∈ values, Reads read a (print a))
    (h : Listed (values.map print) text) (rest : List Char) {bound : Nat}
    (hle : (text ++ ']' :: rest).length ≤ bound) :
    ∃ hlt, items read [] (text ++ ']' :: rest) hle = .ok ⟨values, rest, hlt⟩ := by
  cases values with
  | nil =>
    cases h with
    | empty hw => exact items_done hw [] rest hle
  | cons a values =>
    cases h with
    | @items w _ text _ hw h =>
      have ha := hread a List.mem_cons_self
      obtain ⟨_, hnext⟩ := nextItem_first (.inl rfl) hw ha.begun (text ++ ']' :: rest)
      simp only [item_append] at hle ⊢
      obtain ⟨hle', hitem⟩ := items_item [] ha (h.delimited_append (.inl rfl) rest) hnext hle
      obtain ⟨hlt, hitems⟩ := items_append (fun b hb => hread b (List.mem_cons_of_mem a hb)) h
        (List.cons_ne_nil a []) rest hle'
      exact ⟨hlt, hitem.trans hitems⟩

/-- An array is read from every listing of its elements. -/
theorem reads_array (hread : ∀ a ∈ values, Reads read a (print a))
    (h : Listed (values.map print) text) : Reads (array read) values ('[' :: (text ++ [']'])) := by
  refine ⟨begun_cons (by decide) _, ?_⟩
  intro w rest hw hrest
  obtain ⟨hlt, hsolid⟩ := solid_append hw (c := '[') (by decide) (text ++ ']' :: rest)
  obtain ⟨hlt', hitems⟩ := items_listed hread h rest (Nat.le_of_lt hlt)
  rw [bracketed_append]
  refine ⟨hlt', ?_⟩
  simp only [array, hsolid, bind, Except.bind]
  exact (if_pos trivial).trans hitems

/-- One step of reading an array of a given length: an element is next. -/
theorem itemsExactly_item {isFirst : Bool} {a : α} {t rest rest' : List Char} (ha : Reads read a t)
    (hrest : Delimited rest) {h : (t ++ rest).length ≤ text.length}
    (hnext : nextItem ']' isFirst text = .ok (.item ⟨t ++ rest, h⟩)) {n : Nat}
    {l : { l : List α // l.length = n }} {hlt : rest'.length < rest.length}
    (hitems : itemsExactly read false n rest (Nat.le_refl _) = .ok ⟨l, rest', hlt⟩) {bound : Nat}
    (hle : text.length ≤ bound) :
    ∃ hlt', itemsExactly read isFirst (n + 1) text hle =
      .ok ⟨⟨a :: l.1, congrArg (· + 1) l.2⟩, rest', hlt'⟩ := by
  obtain ⟨hlt', hreads⟩ := ha.reads_front hrest
  refine ⟨Nat.lt_trans hlt (Nat.lt_of_lt_of_le hlt' (Nat.le_trans h hle)), ?_⟩
  simp only [itemsExactly, hnext, hreads, hitems, bind, Except.bind]
  rfl

theorem itemsExactly_done {isFirst : Bool} {w : List Char} (hw : Blanks w) (rest : List Char)
    {bound : Nat} (hle : (w ++ ']' :: rest).length ≤ bound) :
    ∃ hlt, itemsExactly read isFirst 0 (w ++ ']' :: rest) hle = .ok ⟨⟨[], rfl⟩, rest, hlt⟩ := by
  obtain ⟨hlt, hmark⟩ := mark_append hw (m := ']') (by decide) rest
  refine ⟨Nat.lt_of_lt_of_le hlt hle, ?_⟩
  rw [itemsExactly, hmark]
  rfl

/-- As many elements as are wanted, when one has been read. -/
theorem itemsExactly_append (hread : ∀ a ∈ values, Reads read a (print a))
    (h : Continued (values.map print) text) (rest : List Char) {bound : Nat}
    (hle : (text ++ ']' :: rest).length ≤ bound) :
    ∃ hlt, itemsExactly read false values.length (text ++ ']' :: rest) hle =
      .ok ⟨⟨values, rfl⟩, rest, hlt⟩ := by
  induction values generalizing text bound with
  | nil =>
    cases h with
    | done hw => exact itemsExactly_done hw rest hle
  | cons a values ih =>
    cases h with
    | @more w w' _ text _ hw hw' h =>
      have ha := hread a List.mem_cons_self
      obtain ⟨_, hnext⟩ := nextItem_comma (.inl rfl) hw hw' ha.begun (text ++ ']' :: rest)
      obtain ⟨_, hitems⟩ := ih (fun b hb => hread b (List.mem_cons_of_mem a hb)) h (Nat.le_refl _)
      simp only [comma_append] at hle ⊢
      exact itemsExactly_item ha (h.delimited_append (.inl rfl) rest) hnext hitems hle

theorem itemsExactly_listed (hread : ∀ a ∈ values, Reads read a (print a))
    (h : Listed (values.map print) text) (rest : List Char) {bound : Nat}
    (hle : (text ++ ']' :: rest).length ≤ bound) :
    ∃ hlt, itemsExactly read true values.length (text ++ ']' :: rest) hle =
      .ok ⟨⟨values, rfl⟩, rest, hlt⟩ := by
  cases values with
  | nil =>
    cases h with
    | empty hw => exact itemsExactly_done hw rest hle
  | cons a values =>
    cases h with
    | @items w _ text _ hw h =>
      have ha := hread a List.mem_cons_self
      obtain ⟨_, hnext⟩ := nextItem_first (.inl rfl) hw ha.begun (text ++ ']' :: rest)
      obtain ⟨_, hitems⟩ := itemsExactly_append
        (fun b hb => hread b (List.mem_cons_of_mem a hb)) h rest (Nat.le_refl _)
      simp only [item_append] at hle ⊢
      exact itemsExactly_item ha (h.delimited_append (.inl rfl) rest) hnext hitems hle

/-- An array of a given length is read from every listing of that many elements. -/
theorem reads_arrayExactly (hread : ∀ a ∈ values, Reads read a (print a))
    (h : Listed (values.map print) text) {n : Nat} (hn : values.length = n) :
    Reads (arrayExactly read n) ⟨values, hn⟩ ('[' :: (text ++ [']'])) := by
  refine ⟨begun_cons (by decide) _, ?_⟩
  intro w rest hw hrest
  obtain ⟨hlt, hsolid⟩ := solid_append hw (c := '[') (by decide) (text ++ ']' :: rest)
  -- the length is a part of what is read, so it has to be that of the list
  subst hn
  obtain ⟨hlt', hitems⟩ := itemsExactly_listed hread h rest (Nat.le_of_lt hlt)
  rw [bracketed_append]
  refine ⟨hlt', ?_⟩
  simp only [arrayExactly, hsolid, bind, Except.bind]
  exact (if_pos trivial).trans hitems

end

/-! ## What the library writes -/

/-- One more item in front of a listing that has some. -/
theorem Listed.cons {w t u text : List Char} {ts : List (List Char)} (hw : Blanks w)
    (h : Listed (u :: ts) text) : Listed (t :: u :: ts) (w ++ (t ++ ',' :: text)) := by
  cases h with
  | items hw' h => exact .items hw (.more blanks_nil hw' h)

/-- A layout that writes the same blanks before each item, and a comma after each but the last, makes
listings. -/
theorem listed_of_layout {α : Type} (print : α → List Char) (layout : List α → List Char)
    {w w' : List Char} (hw : Blanks w) (hw' : Blanks w') (hone : ∀ a, layout [a] = w ++ print a)
    (hmore : ∀ a b rest, layout (a :: b :: rest) = w ++ (print a ++ ',' :: layout (b :: rest)))
    (a : α) (rest : List α) : Listed ((a :: rest).map print) (layout (a :: rest) ++ w') := by
  induction rest generalizing a with
  | nil =>
    rw [hone, List.append_assoc]
    exact .items hw (.done hw')
  | cons b rest ih =>
    rw [hmore, List.append_assoc, List.append_assoc, List.cons_append]
    exact (ih b).cons hw

namespace Value

theorem listed_compactItems (vs : List Value) : Listed (vs.map compact) (compactItems vs) := by
  cases vs with
  | nil => exact .empty blanks_nil
  | cons v vs =>
    have h := listed_of_layout compact compactItems blanks_nil blanks_nil
      (fun v => by rw [compactItems, List.nil_append])
      (fun v u vs => by rw [compactItems, List.nil_append]) v vs
    rwa [List.append_nil] at h

/-- A member without blanks. -/
def compactMember (m : String × Value) : List Char := quote m.1 ++ ':' :: compact m.2

theorem listed_compactMembers (ms : List (String × Value)) :
    Listed (ms.map compactMember) (compactMembers ms) := by
  cases ms with
  | nil => exact .empty blanks_nil
  | cons m ms =>
    have h := listed_of_layout compactMember compactMembers blanks_nil blanks_nil
      (fun m => by rw [compactMembers, List.nil_append]; rfl)
      (fun m m' ms => by rw [compactMembers, List.nil_append, compactMember]; simp) m ms
    rwa [List.append_nil] at h

theorem blanks_newline (depth : Nat) : Blanks (newline depth) := by
  intro c hc
  rcases List.mem_cons.mp hc with rfl | hc
  · decide
  · obtain rfl := List.eq_of_mem_replicate hc
    decide

theorem listed_indentedItems (depth : Nat) {w : List Char} (hw : Blanks w) (v : Value)
    (vs : List Value) :
    Listed ((v :: vs).map (indented depth)) (indentedItems depth (v :: vs) ++ w) :=
  listed_of_layout (indented depth) (indentedItems depth) (blanks_newline depth) hw
    (fun v => by rw [indentedItems])
    (fun v u vs => by rw [indentedItems]) v vs

/-- An indented array is a listing between its brackets, also when it is empty. -/
theorem exists_listed_indented (depth : Nat) (vs : List Value) :
    ∃ text, (arr vs).indented depth = '[' :: (text ++ [']']) ∧
      Listed (vs.map (indented (depth + 1))) text := by
  cases vs with
  | nil => exact ⟨[], rfl, .empty blanks_nil⟩
  | cons v vs =>
    refine ⟨indentedItems (depth + 1) (v :: vs) ++ newline depth, ?_,
      listed_indentedItems (depth + 1) (blanks_newline depth) v vs⟩
    rw [indented, List.append_assoc]

/-- A member with a blank after its colon. -/
def indentedMember (depth : Nat) (m : String × Value) : List Char :=
  quote m.1 ++ ':' :: ' ' :: indented depth m.2

theorem listed_indentedMembers (depth : Nat) {w : List Char} (hw : Blanks w) (m : String × Value)
    (ms : List (String × Value)) :
    Listed ((m :: ms).map (indentedMember depth)) (indentedMembers depth (m :: ms) ++ w) :=
  listed_of_layout (indentedMember depth) (indentedMembers depth) (blanks_newline depth) hw
    (fun m => by rw [indentedMembers]; rfl)
    (fun m m' ms => by rw [indentedMembers, indentedMember]; simp) m ms

end Value

end MinedChain.Json
