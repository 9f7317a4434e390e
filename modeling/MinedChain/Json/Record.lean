import MinedChain.Json.Scalar
import MinedChain.Json.Skip

/-!
# Arrays and records that are used

A record is written as an object, its members in any order, or as an array, its members in their own
order. In an object, members of other names are skipped, and a member that is given twice is unfit as
soon as its name has been read again. Members that are not given keep what the record started with;
whether that will do is decided where the object or array ends.
-/

namespace MinedChain.Json

/-! ## Items of a container -/

/-- What comes next in a container. -/
inductive Next (bound : Nat) where
  /-- An item, whose text begins at once. -/
  | item (text : Tail bound)
  /-- The end of the container, and the text after it. -/
  | done (rest : List Char) (shorter : rest.length < bound)

/-- The next item of a container that ends with `closer`, after a comma unless it is the first. -/
def nextItem (closer : Char) (isFirst : Bool) (text : List Char) :
    Except Fault (Next text.length) := do
  let c ← solid text
  if c.value = closer then return .done c.rest c.shorter
  else if isFirst then return .item c.whole
  else if c.value = ',' then
    let d ← solid c.rest
    if d.value = closer then .error .malformed else return .item (c.tail.followed d.whole)
  else .error .malformed

/-! ## Arrays -/

/-- The elements up to the end of the array, after those in `front`, which are held in reverse. -/
def items {α : Type} (read : Reader α) (front : List α) {bound : Nat} (text : List Char)
    (h : text.length ≤ bound) : Except Fault (Read (List α) bound) :=
  match nextItem ']' front.isEmpty text with
  | .error e => .error e
  | .ok (.done rest lt) => .ok ⟨front.reverse, rest, Nat.lt_of_lt_of_le lt h⟩
  | .ok (.item t) =>
    match read t.rest with
    | .error e => .error e
    | .ok r =>
      items read (r.value :: front) r.rest
        (Nat.le_of_lt (Nat.lt_of_lt_of_le r.shorter (Nat.le_trans t.le h)))
termination_by text.length
decreasing_by exact Nat.lt_of_lt_of_le r.shorter t.le

/-- An array of any length. -/
def array {α : Type} (read : Reader α) : Reader (List α) := fun text => do
  let c ← solid text
  if c.value = '[' then items read [] c.rest c.tail.le
  else .error (wrongKind (c.value :: c.rest))

/-- As many elements as wanted and the end of the array. Fewer are unfit, more are malformed. -/
def itemsExactly {α : Type} (read : Reader α) (isFirst : Bool) {bound : Nat} :
    (n : Nat) → (text : List Char) → text.length ≤ bound →
      Except Fault (Read { l : List α // l.length = n } bound)
  | 0, text, h => do
    let r ← mark ']' text
    return (r.map fun _ => ⟨[], rfl⟩).widen h
  | n + 1, text, h => do
    match ← nextItem ']' isFirst text with
    | .done _ _ => .error .unfit
    | .item t =>
      let r ← read t.rest
      let s ← itemsExactly read false n r.rest (Nat.le_refl _)
      return ⟨⟨r.value :: s.value.1, congrArg (· + 1) s.value.2⟩, s.rest,
        Nat.lt_trans s.shorter (Nat.lt_of_lt_of_le r.shorter (Nat.le_trans t.le h))⟩

/-- An array of a given length. -/
def arrayExactly {α : Type} (read : Reader α) (n : Nat) : Reader { l : List α // l.length = n } :=
  fun text => do
    let c ← solid text
    if c.value = '[' then itemsExactly read true n c.rest c.tail.le
    else .error (wrongKind (c.value :: c.rest))

/-! ## Records -/

/-- A member of a record: its name, and how its value changes what has been read so far. -/
structure Member (ρ : Type) where
  name : String
  read : Reader (ρ → ρ)

/-- The member that holds a value of kind `read`, stored by `set`. -/
def Member.of {ρ α : Type} (name : String) (read : Reader α) (set : α → ρ → ρ) : Member ρ :=
  ⟨name, fun text => (read text).map (Read.map set)⟩

/-- A kind of record: its members in order, what it holds before any of them, and how it is
completed once they have been read. -/
structure Record (ρ α : Type) where
  members : List (Member ρ)
  start : ρ
  complete : ρ → Option α

namespace Record

variable {ρ α : Type}

/-- The record that has been read, which is unfit if it cannot be completed. -/
def close (record : Record ρ α) (held : ρ) {bound : Nat} (rest : List Char)
    (h : rest.length < bound) : Except Fault (Read α bound) :=
  match record.complete held with
  | some a => .ok ⟨a, rest, h⟩
  | none => .error .unfit

/-- The members that are left, by position, up to the end of the array. -/
def positional (record : Record ρ α) (isFirst : Bool) (held : ρ) {bound : Nat} :
    (members : List (Member ρ)) → (text : List Char) → text.length ≤ bound →
      Except Fault (Read α bound)
  | [], text, h => do
    let r ← mark ']' text
    record.close held r.rest (Nat.lt_of_lt_of_le r.shorter h)
  | m :: members, text, h => do
    match ← nextItem ']' isFirst text with
    | .done rest lt => record.close held rest (Nat.lt_of_lt_of_le lt h)
    | .item t =>
      let r ← m.read t.rest
      record.positional false (r.value held) members r.rest
        (Nat.le_of_lt (Nat.lt_of_lt_of_le r.shorter (Nat.le_trans t.le h)))

/-- The value of a member: stored if the record has a member of that name, else skipped. A name that
was seen before is unfit. -/
def member (record : Record ρ α) (seen : List String) (name : String) : Reader (ρ → ρ) :=
  fun text =>
    match record.members.find? (·.name = name) with
    | some m =>
      if name ∈ seen then .error .unfit
      else do
        let c ← mark ':' text
        return c.andThen (← m.read c.rest)
    | none => do
      let c ← mark ':' text
      return (c.andThen (← Skip.read c.rest)).map fun _ => id

/-- The members by name, up to the end of the object. `seen` holds the names read so far. -/
def named (record : Record ρ α) (isFirst : Bool) (seen : List String) (held : ρ) {bound : Nat}
    (text : List Char) (h : text.length ≤ bound) : Except Fault (Read α bound) :=
  match nextItem '}' isFirst text with
  | .error e => .error e
  | .ok (.done rest lt) => record.close held rest (Nat.lt_of_lt_of_le lt h)
  | .ok (.item t) =>
    match mark '"' t.rest with
    | .error e => .error e
    | .ok q =>
      match Quoted.read q.rest with
      | .error e => .error e
      | .ok name =>
        match record.member seen name.value name.rest with
        | .error e => .error e
        | .ok r =>
          have lt : r.rest.length < text.length :=
            Nat.lt_of_lt_of_le
              (Nat.lt_trans r.shorter (Nat.lt_trans name.shorter q.shorter)) t.le
          record.named false (name.value :: seen) (r.value held) r.rest
            (Nat.le_of_lt (Nat.lt_of_lt_of_le lt h))
termination_by text.length

/-- A record in either form. -/
def read (record : Record ρ α) : Reader α := fun text => do
  let c ← solid text
  if c.value = '[' then record.positional true record.start record.members c.rest c.tail.le
  else if c.value = '{' then record.named true [] record.start c.rest c.tail.le
  else .error (wrongKind (c.value :: c.rest))

end Record

end MinedChain.Json
