import Mathlib.Data.List.Nodup
import MinedChain.Config.Json
import MinedChain.Proofs.Json.Records

/-!
# Settings in JSON

An object may give any of the five settings, in any order and among members of other names. What it is
read as depends on the settings that it gives and on nothing else: neither their order, nor the other
members, nor how the values are spelled. The object in which settings are written gives all five.
-/

namespace MinedChain

namespace Json

variable {α : Type} {read : Reader α} {a : α} {text : List Char}

/-! ## Readers of settings -/

/-- A word is known by its first character. -/
theorem solid_expect_append {w : List Char} (hw : Blanks w) {c : Char} (hc : isBlank c = false)
    (word rest : List Char) :
    ∃ h h', solid (w ++ (c :: word ++ rest)) = .ok ⟨c, word ++ rest, h⟩ ∧
      expect word (word ++ rest) = .ok ⟨rest, h'⟩ := by
  obtain ⟨h, hsolid⟩ := solid_append hw hc (word ++ rest)
  obtain ⟨h', hexpect⟩ := expect_append word rest
  exact ⟨h, h', hsolid, hexpect⟩

theorem reads_true : Reads boolean true ['t', 'r', 'u', 'e'] := by
  refine ⟨begun_cons (by decide) _, ?_⟩
  intro w rest hw _
  obtain ⟨h, h', hsolid, hexpect⟩ :=
    solid_expect_append hw (c := 't') (by decide) ['r', 'u', 'e'] rest
  refine ⟨Nat.lt_of_le_of_lt h' h, ?_⟩
  simp only [boolean, hsolid, hexpect, bind, Except.bind]
  rfl

theorem reads_false : Reads boolean false ['f', 'a', 'l', 's', 'e'] := by
  refine ⟨begun_cons (by decide) _, ?_⟩
  intro w rest hw _
  obtain ⟨h, h', hsolid, hexpect⟩ :=
    solid_expect_append hw (c := 'f') (by decide) ['a', 'l', 's', 'e'] rest
  refine ⟨Nat.lt_of_le_of_lt h' h, ?_⟩
  simp only [boolean, hsolid, hexpect, bind, Except.bind]
  rfl

theorem reads_null (read : Reader α) : Reads (optional read) none ['n', 'u', 'l', 'l'] := by
  refine ⟨begun_cons (by decide) _, ?_⟩
  intro w rest hw _
  obtain ⟨h, h', hsolid, hexpect⟩ :=
    solid_expect_append hw (c := 'n') (by decide) ['u', 'l', 'l'] rest
  refine ⟨Nat.lt_of_le_of_lt h' h, ?_⟩
  simp only [optional, hsolid, hexpect, bind, Except.bind]
  rfl

theorem reads_some (h : Reads read a text) (hn : text.head? ≠ some 'n') :
    Reads (optional read) (some a) text := by
  refine ⟨h.begun, ?_⟩
  intro w rest hw hrest
  obtain ⟨hlt, hread⟩ := h.reads w rest hw hrest
  refine ⟨hlt, ?_⟩
  obtain ⟨c, text, rfl, hc⟩ := h.begun
  obtain ⟨_, hsolid⟩ := solid_append hw (isBlank_of_isDelimiter_eq_false hc) (text ++ rest)
  have hsolid' : solid (w ++ (c :: text ++ rest)) = _ := hsolid
  have hne : c ≠ 'n' := fun heq => hn (congrArg some heq)
  simp only [optional, hsolid', hread, bind, Except.bind, if_neg hne]
  rfl

end Json

namespace Config

open Json

/-! ## Settings -/

/-- One of the settings, with the value that it is given. -/
inductive Setting where
  | difficulty (d : UInt32)
  | genesisPayload (s : String)
  | hashAlgorithm (s : String)
  | maxAttempts (n : Option UInt64)
  | parallelMining (b : Bool)

namespace Setting

/-- The name of the member that gives the setting. -/
def name : Setting → String
  | difficulty _ => "difficulty"
  | genesisPayload _ => "genesis_payload"
  | hashAlgorithm _ => "hash_algorithm"
  | maxAttempts _ => "max_attempts"
  | parallelMining _ => "parallel_mining"

/-- Puts the value in its place. -/
def store : Setting → Config → Config
  | difficulty d, c => { c with difficulty := d }
  | genesisPayload s, c => { c with genesisPayload := s }
  | hashAlgorithm s, c => { c with hashAlgorithm := s }
  | maxAttempts n, c => { c with maxAttempts := n }
  | parallelMining b, c => { c with parallelMining := b }

/-- What is written for the value. -/
def value : Setting → Value
  | difficulty d => .num d.toNat
  | genesisPayload s | hashAlgorithm s => .str s
  | maxAttempts (some n) => .num n.toNat
  | maxAttempts none => .null
  | parallelMining b => .bool b

/-- How the value may be spelled: a word as a natural number without sign, fraction and exponent, a
string with any of its spellings, a missing ceiling as `null`, and the choice as `true` or `false`. -/
inductive IsSpelled : Setting → List Char → Prop
  | difficulty {d : UInt32} {t : List Char} (h : IsNumeral d.toNat t) : IsSpelled (difficulty d) t
  | genesisPayload {s : String} {t : List Char} (h : IsString s t) : IsSpelled (genesisPayload s) t
  | hashAlgorithm {s : String} {t : List Char} (h : IsString s t) : IsSpelled (hashAlgorithm s) t
  | ceiling {n : UInt64} {t : List Char} (h : IsNumeral n.toNat t) :
      IsSpelled (maxAttempts (some n)) t
  | noCeiling : IsSpelled (maxAttempts none) ['n', 'u', 'l', 'l']
  | chosen : IsSpelled (parallelMining true) ['t', 'r', 'u', 'e']
  | notChosen : IsSpelled (parallelMining false) ['f', 'a', 'l', 's', 'e']

/-- What is written for a value is one of its spellings. -/
theorem isSpelled_value (s : Setting) : s.IsSpelled s.value.compact := by
  match s with
  | difficulty d => exact .difficulty (isNumeral_encode _)
  | genesisPayload s => exact .genesisPayload (isString_quote s)
  | hashAlgorithm s => exact .hashAlgorithm (isString_quote s)
  | maxAttempts (some n) => exact .ceiling (isNumeral_encode _)
  | maxAttempts none => exact .noCeiling
  | parallelMining true => exact .chosen
  | parallelMining false => exact .notChosen

/-- The record has a member for the setting, which reads every spelling of its value. -/
theorem exists_member {s : Setting} {t : List Char} (h : s.IsSpelled t) :
    ∃ m, record.find? s.name = some m ∧ Reads m.read s.store t := by
  have hdigits {n : UInt64} {t : List Char} (h : IsNumeral n.toNat t) : t.head? ≠ some 'n' :=
    List.append_nil t ▸ h.toIsDigits.head?_append_ne (by decide) []
  cases h with
  | difficulty h => exact ⟨_, rfl, reads_member _ _ (reads_word32 h)⟩
  | genesisPayload h => exact ⟨_, rfl, reads_member _ _ (reads_string h)⟩
  | hashAlgorithm h => exact ⟨_, rfl, reads_member _ _ (reads_string h)⟩
  | ceiling h => exact ⟨_, rfl, reads_member _ _ (reads_some (reads_word64 h) (hdigits h))⟩
  | noCeiling => exact ⟨_, rfl, reads_member _ _ (reads_null _)⟩
  | chosen => exact ⟨_, rfl, reads_member _ _ reads_true⟩
  | notChosen => exact ⟨_, rfl, reads_member _ _ reads_false⟩

/-- Settings of different names can be stored in either order. -/
theorem store_comm {s s' : Setting} (h : s.name ≠ s'.name) (c : Config) :
    s'.store (s.store c) = s.store (s'.store c) := by
  cases s <;> cases s' <;> first | rfl | exact absurd rfl h

end Setting

/-! ## Settings that are given -/

/-- The settings that an object gives. -/
structure Overrides where
  difficulty : Option UInt32 := none
  genesisPayload : Option String := none
  hashAlgorithm : Option String := none
  maxAttempts : Option (Option UInt64) := none
  parallelMining : Option Bool := none

namespace Overrides

/-- The settings that are given, in the order of the structure. -/
def settings (o : Overrides) : List Setting :=
  (o.difficulty.map .difficulty).toList ++ ((o.genesisPayload.map .genesisPayload).toList ++
    ((o.hashAlgorithm.map .hashAlgorithm).toList ++ ((o.maxAttempts.map .maxAttempts).toList ++
      (o.parallelMining.map .parallelMining).toList)))

/-- The default settings, but for those that are given. -/
def config (o : Overrides) : Config where
  difficulty := o.difficulty.getD default.difficulty
  genesisPayload := o.genesisPayload.getD default.genesisPayload
  hashAlgorithm := o.hashAlgorithm.getD default.hashAlgorithm
  maxAttempts := o.maxAttempts.getD default.maxAttempts
  parallelMining := o.parallelMining.getD default.parallelMining

theorem foldl_settings (o : Overrides) :
    o.settings.foldl (fun c s => s.store c) default = o.config := by
  obtain ⟨difficulty, genesisPayload, hashAlgorithm, maxAttempts, parallelMining⟩ := o
  cases difficulty <;> cases genesisPayload <;> cases hashAlgorithm <;> cases maxAttempts <;>
    cases parallelMining <;> rfl

theorem sublist_name {α : Type} (setting : α → Setting) {name : String}
    (h : ∀ a, (setting a).name = name) (given : Option α) :
    ((given.map setting).toList.map Setting.name).Sublist [name] := by
  cases given with
  | none => exact List.nil_sublist _
  | some a => exact h a ▸ List.Sublist.refl _

/-- The names come in the order of the structure. -/
theorem sublist_names (o : Overrides) : (o.settings.map Setting.name).Sublist
    ["difficulty", "genesis_payload", "hash_algorithm", "max_attempts", "parallel_mining"] := by
  have hdifficulty := sublist_name .difficulty (fun _ => rfl) o.difficulty
  have hgenesisPayload := sublist_name .genesisPayload (fun _ => rfl) o.genesisPayload
  have hhashAlgorithm := sublist_name .hashAlgorithm (fun _ => rfl) o.hashAlgorithm
  have hmaxAttempts := sublist_name .maxAttempts (fun _ => rfl) o.maxAttempts
  have hparallelMining := sublist_name .parallelMining (fun _ => rfl) o.parallelMining
  simp only [settings, List.map_append]
  exact hdifficulty.append (hgenesisPayload.append (hhashAlgorithm.append
    (hmaxAttempts.append hparallelMining)))

/-- No name is given twice. -/
theorem nodup_names (o : Overrides) : (o.settings.map Setting.name).Nodup :=
  o.sublist_names.nodup (by decide)

/-- All settings of a configuration. -/
def all (c : Config) : Overrides :=
  ⟨some c.difficulty, some c.genesisPayload, some c.hashAlgorithm, some c.maxAttempts,
    some c.parallelMining⟩

end Overrides

/-! ## Objects of settings -/

/-- A member of an object: a setting, or a member of some other name. -/
inductive Given where
  | setting (s : Setting) (text : MemberText)
  | other (name : String) (text : MemberText)

namespace Given

def text : Given → MemberText
  | setting _ text | other _ text => text

def name : Given → String
  | setting s _ => s.name
  | other name _ => name

/-- The setting, if it is one. -/
def setting? : Given → Option Setting
  | setting s _ => some s
  | other _ _ => none

/-- What the member changes. -/
def update : Given → Config → Config
  | setting s _ => s.store
  | other _ _ => id

/-- The text of the member: its name in any spelling, blanks around the colon, and of a setting a
spelling of its value, of another member any value. -/
inductive IsSpelled : Given → Prop
  | setting {s : Setting} {text : MemberText} (hspaced : text.IsSpaced)
      (hname : IsString s.name text.name) (hvalue : s.IsSpelled text.value) :
      IsSpelled (setting s text)
  | other {name : String} {text : MemberText} (hspaced : text.IsSpaced)
      (hname : IsString name text.name) (hvalue : IsValue text.value)
      (hother : ∀ s : Setting, s.name ≠ name) : IsSpelled (other name text)

/-- The member that is written for a setting. -/
def written (s : Setting) : Given := .setting s ⟨quote s.name, [], [], s.value.compact⟩

theorem isSpelled_written (s : Setting) : (written s).IsSpelled :=
  .setting ⟨blanks_nil, blanks_nil⟩ (isString_quote s.name) s.isSpelled_value

/-- The member as an entry of the record. -/
def entry (m : Given) : Entry Config := ⟨m.text, m.name, m.update⟩

theorem find?_eq_none {name : String} (h : ∀ s : Setting, s.name ≠ name) :
    record.find? name = none := by
  refine List.find?_eq_none.mpr ?_
  -- each of the five names is that of a setting, whatever its value
  have hdifficulty := h (.difficulty 0)
  have hgenesisPayload := h (.genesisPayload "")
  have hhashAlgorithm := h (.hashAlgorithm "")
  have hmaxAttempts := h (.maxAttempts none)
  have hparallelMining := h (.parallelMining false)
  simp_all [record, Member.of, Setting.name]

theorem IsSpelled.understands {m : Given} (h : m.IsSpelled) : record.Understands m.entry := by
  cases h with
  | setting hspaced hname hvalue => exact ⟨hspaced, hname, .inl (Setting.exists_member hvalue)⟩
  | other hspaced hname hvalue hother =>
    exact ⟨hspaced, hname, .inr ⟨find?_eq_none hother, hvalue, rfl⟩⟩

/-- Members of other names change nothing. -/
theorem hold_map_entry (ms : List Given) (c : Config) :
    Record.hold c (ms.map entry) = (ms.filterMap setting?).foldl (fun c s => s.store c) c := by
  induction ms generalizing c with
  | nil => rfl
  | cons m ms ih => cases m <;> exact ih _

theorem once_map_entry {ms : List Given} (hspelled : ∀ m ∈ ms, m.IsSpelled)
    (hnames : ((ms.filterMap setting?).map Setting.name).Nodup) : record.Once (ms.map entry) := by
  have hpairs := List.pairwise_filterMap.mp (List.pairwise_map.mp hnames)
  refine List.pairwise_map.mpr (hpairs.imp_of_mem ?_)
  intro m m' hm hm' hne
  cases hspelled m' hm' with
  | other _ _ _ hother' => exact .inl (find?_eq_none hother')
  | @setting s' text' =>
    refine .inr ?_
    cases hspelled m hm with
    | other _ _ _ hother => exact hother s'
    | @setting s text => exact (hne s rfl s' rfl).symm

end Given

/-- The text is an object of these settings, each of them given once, in any order and among any members
of other names. -/
inductive Gives (o : Overrides) : List Char → Prop
  | mk {ms : List Given} {w w' text : List Char} (hw : Blanks w) (hw' : Blanks w')
      (hspelled : ∀ m ∈ ms, m.IsSpelled)
      (hsettings : (ms.filterMap Given.setting?).Perm o.settings)
      (h : Listed (ms.map (·.text.text)) text) : Gives o (w ++ ('{' :: (text ++ ['}']) ++ w'))

theorem whole_of_gives {o : Overrides} {text : List Char} (h : Gives o text) :
    record.read.whole text = .ok o.config := by
  obtain @⟨ms, w, w', text, hw, hw', hspelled, hsettings, h⟩ := h
  have hnames : ((ms.filterMap Given.setting?).map Setting.name).Nodup :=
    (hsettings.map Setting.name).nodup_iff.mpr o.nodup_names
  have hunderstands : ∀ e ∈ ms.map Given.entry, record.Understands e := by
    intro e he
    obtain ⟨m, hm, rfl⟩ := List.mem_map.mp he
    exact (hspelled m hm).understands
  -- settings of one name are the same, and others can be stored in either order
  have hcomm : ∀ s ∈ ms.filterMap Given.setting?, ∀ s' ∈ ms.filterMap Given.setting?, ∀ c,
      s'.store (s.store c) = s.store (s'.store c) := by
    intro s hs s' hs' c
    by_cases hname : s.name = s'.name
    · rw [List.inj_on_of_nodup_map hnames hs hs' hname]
    · exact Setting.store_comm hname c
  have hhold : Record.hold default (ms.map Given.entry) = o.config := by
    rw [Given.hold_map_entry, hsettings.foldl_eq' hcomm, o.foldl_settings]
  have hlisted : Listed ((ms.map Given.entry).map (·.text.text)) text := by
    rw [List.map_map]
    exact h
  have hread := Record.reads_object hunderstands (Given.once_map_entry hspelled hnames) hlisted
    (congrArg some hhold)
  exact hread.whole hw hw'

theorem ofText_of_whole (wording : Wording) {text : String} {c : Config}
    (h : record.read.whole text.toList = .ok c) :
    ofText wording text = if c.difficulty.toNat ≤ digestBits then .ok c
      else .error (.difficultyTooHigh c.difficulty) := by
  rw [ofText, h]
  simp only [work, Work.ofDifficulty]
  split <;> rfl

theorem toJson_eq (c : Config) :
    c.toJson = .obj ((Overrides.all c).settings.map fun s => (s.name, s.value)) := by
  obtain ⟨difficulty, genesisPayload, hashAlgorithm, maxAttempts, parallelMining⟩ := c
  cases maxAttempts <;> rfl

/-- The settings, each in the member that is written for it, are an object that gives them. -/
theorem gives_written {o : Overrides} {text : List Char}
    (h : Listed (o.settings.map fun s => (Given.written s).text.text) text) :
    Gives o ('{' :: (text ++ ['}'])) := by
  have hspelled : ∀ m ∈ o.settings.map Given.written, m.IsSpelled := by
    intro m hm
    obtain ⟨s, -, rfl⟩ := List.mem_map.mp hm
    exact Given.isSpelled_written s
  have hsettings : ((o.settings.map Given.written).filterMap Given.setting?).Perm o.settings := by
    rw [List.filterMap_map]
    exact List.Perm.of_eq List.filterMap_some
  have hlisted : Listed ((o.settings.map Given.written).map (·.text.text)) text := by
    rw [List.map_map]
    exact h
  have hgives := Gives.mk blanks_nil blanks_nil hspelled hsettings hlisted
  rwa [List.nil_append, List.append_nil] at hgives

theorem toList_toText (c : Config) : c.toText.toList =
    '{' :: (Value.compactMembers ((Overrides.all c).settings.map fun s => (s.name, s.value)) ++
      ['}']) := by
  rw [toText, String.toList_ofList, toJson_eq]
  rfl

/-- Written settings give all settings. -/
theorem gives_toText (c : Config) : Gives (.all c) c.toText.toList := by
  have hlisted := Value.listed_compactMembers
    ((Overrides.all c).settings.map fun s => (s.name, s.value))
  rw [List.map_map] at hlisted
  rw [toList_toText]
  exact gives_written hlisted

/-- Written settings are read as they were, and any object of settings as the default settings but for
those that it gives; both only if the difficulty is no wider than a digest. -/
theorem settings_override_defaults (wording : Wording) :
    (∀ c : Config, ofText wording c.toText = if c.difficulty.toNat ≤ digestBits then .ok c
      else .error (.difficultyTooHigh c.difficulty)) ∧
    ∀ (o : Overrides) (text : String), Gives o text.toList →
      ofText wording text = if o.config.difficulty.toNat ≤ digestBits then .ok o.config
        else .error (.difficultyTooHigh o.config.difficulty) :=
  ⟨fun c => ofText_of_whole wording (whole_of_gives c.gives_toText),
    fun _ _ h => ofText_of_whole wording (whole_of_gives h)⟩

/-- Two settings in another order than their own, with a member of another name between them. -/
def reordered : String :=
  "\x7b\"max_attempts\": null, \"note\": [[], \"\\ud800\"], \"difficulty\": 4\x7d"

theorem reordered_read :
    Gives { difficulty := some 4, maxAttempts := some none } reordered.toList ∧
      ofText .plain reordered = .ok { difficulty := 4 } := by
  have hblank : Blanks [' '] := by decide
  have hempty : IsValue "[]".toList :=
    .array (fun t (ht : t ∈ []) => nomatch ht) (.empty blanks_nil)
  have hlone : IsValue "\"\\ud800\"".toList :=
    .string (.mk (.number (.mk (.mk rfl rfl rfl rfl)) .nil))
  have hnote : IsValue "[[], \"\\ud800\"]".toList := by
    have hvalues : ∀ t ∈ ["[]".toList, "\"\\ud800\"".toList], IsValue t := by
      simp only [List.forall_mem_cons]
      exact ⟨hempty, hlone, fun _ h => nomatch h⟩
    exact .array hvalues (.items blanks_nil (.more blanks_nil hblank (.done blanks_nil)))
  let ms : List Given := [
    .setting (.maxAttempts none) ⟨quote "max_attempts", [], [' '], "null".toList⟩,
    .other "note" ⟨quote "note", [], [' '], "[[], \"\\ud800\"]".toList⟩,
    .setting (.difficulty 4) ⟨quote "difficulty", [], [' '], ['4']⟩]
  have hspelled : ∀ m ∈ ms, m.IsSpelled := by
    simp only [ms, List.forall_mem_cons]
    refine ⟨?_, ?_, ?_, fun _ h => nomatch h⟩
    · exact .setting ⟨blanks_nil, hblank⟩ (isString_quote _) .noCeiling
    · refine .other ⟨blanks_nil, hblank⟩ (isString_quote _) hnote ?_
      intro s
      cases s <;> simp [Setting.name]
    · exact .setting ⟨blanks_nil, hblank⟩ (isString_quote _) (.difficulty (isNumeral_encode 4))
  have hsettings : (ms.filterMap Given.setting?).Perm
      (Overrides.settings { difficulty := some 4, maxAttempts := some none }) :=
    List.Perm.swap _ _ []
  have hlisted : Listed (ms.map (·.text.text)) _ :=
    .items blanks_nil
      (.more blanks_nil hblank (.more blanks_nil hblank (.done blanks_nil)))
  have hgives : Gives _ reordered.toList :=
    .mk blanks_nil blanks_nil hspelled hsettings hlisted
  exact ⟨hgives, ((settings_override_defaults .plain).2 _ _ hgives).trans (if_pos (by decide))⟩

end Config

end MinedChain
