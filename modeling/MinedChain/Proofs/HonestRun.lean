import Mathlib.Algebra.Group.Int.Defs
import MinedChain.Command
import MinedChain.Proofs.Building
import MinedChain.Proofs.CommandLine
import MinedChain.Proofs.FirstViolation
import MinedChain.Proofs.HexText
import MinedChain.Proofs.PlainText
import MinedChain.Proofs.RowText
import MinedChain.Proofs.SettingsText

/-!
# Runs without tampering

A run that appends payloads and flips no bit ends well when mining does, and then its output is true of
it: an array whose rows are read back as the genesis block and the payloads in their order, each linked to
the row before, and the line that the chain is valid. What the chain holds comes from the history of the
calls, that it is valid from its being built, and that the rows show it from reading back what is written.
-/

namespace MinedChain.Command

open Chain

/-! ## Appending payloads -/

/-- The calls that append the payloads, all at the same time. -/
def requests (now : Int) (ps : List String) : List Request :=
  ps.map fun p => .append (Utf8.encode p) now

/-- A payload is appended by a call, and the others behind it if the call is granted. -/
theorem appendAll_cons (now : Int) (p : String) (ps : List String) (c : Chain) :
    appendAll now (p :: ps) c =
      match c.answer (.append (Utf8.encode p) now) with
      | .error e => .error e
      | .ok _ => appendAll now ps (c.after (.append (Utf8.encode p) now)) := by
  have hcall : (append (Utf8.encode p) now c).result = c.answer (.append (Utf8.encode p) now) := rfl
  rw [appendAll, appendEach, Stateful.stateAfter_bind, hcall]
  cases c.answer (.append (Utf8.encode p) now) <;> rfl

/-- Where a block is mined for the first payload, the others are appended behind it. -/
theorem appendAll_cons_of_mined {now : Int} {p : String} {c : Chain} {b : Block}
    (hindex : c.tip.index ≠ maxWord)
    (hmined : (c.candidate (.append (Utf8.encode p) now)).mined c.rules.work c.rules.hasher = .ok b)
    (ps : List String) : appendAll now (p :: ps) c = appendAll now ps (c.push b) := by
  have hanswer : c.answer (.append (Utf8.encode p) now) = .ok b :=
    answer_eq_ok_iff.mpr ⟨hindex, hmined⟩
  rw [appendAll_cons, hanswer, after_of_answer_eq_ok hanswer]

/-- Payloads are appended by a run of calls that are all granted. -/
theorem appendAll_eq_ok {now : Int} {ps : List String} {c c' : Chain}
    (h : appendAll now ps c = .ok c') :
    c' = c.run (requests now ps) ∧ (c.granted (requests now ps)).map Prod.fst = requests now ps := by
  induction ps generalizing c with
  | nil =>
    injection h with h
    exact ⟨h.symm, rfl⟩
  | cons p ps ih =>
    rw [appendAll_cons] at h
    cases hanswer : c.answer (.append (Utf8.encode p) now) with
    | error e =>
      rw [hanswer] at h
      exact nomatch h
    | ok b =>
      rw [hanswer] at h
      obtain ⟨hrun, hgranted⟩ := ih h
      refine ⟨hrun, ?_⟩
      -- the call pushes the block that it answers with, so the calls behind it start from there
      show (c.granted (.append (Utf8.encode p) now :: requests now ps)).map Prod.fst = _
      rw [granted_cons_of_ok hanswer, ← after_of_answer_eq_ok hanswer, List.map_cons, hgranted]
      rfl

theorem foldl_max_replicate (start t : UInt64) (n : Nat) :
    (List.replicate (n + 1) t).foldl max start = max start t := by
  induction n with
  | zero => rfl
  | succ n ih =>
    rw [List.replicate_succ', List.foldl_append, ih, List.foldl_cons, List.foldl_nil,
      ← UInt64.toNat_inj, toNat_max, toNat_max, Nat.max_assoc, Nat.max_self]

/-- Behind requests of one time, the latest time is that one or the one at the start. -/
theorem latestOf_eq_max {start t : UInt64} {granted : List (Request × Block)} (hne : granted ≠ [])
    (h : ∀ g ∈ granted, g.1.timestamp = t) : latestOf start granted = max start t := by
  obtain ⟨g, granted, rfl⟩ := List.exists_cons_of_ne_nil hne
  have htimes : ((g :: granted).map fun g => g.1.timestamp) =
      List.replicate (granted.length + 1) t := List.map_eq_replicate_iff.mpr h
  rw [latestOf, htimes, foldl_max_replicate]

theorem latestOf_requests {now : Int} {ps : List String} {granted : List (Request × Block)}
    (hne : granted ≠ []) (h : ∀ g ∈ granted, g.1 ∈ requests now ps) :
    latestOf 0 granted = stampOf now := by
  have htime : ∀ g ∈ granted, g.1.timestamp = stampOf now := by
    intro g hg
    obtain ⟨p, -, hq⟩ := List.mem_map.mp (h g hg)
    rw [← hq]
    rfl
  rw [latestOf_eq_max hne htime, ← UInt64.toNat_inj, toNat_max, UInt64.toNat_zero, Nat.zero_max]

/-! ## The chain of a run -/

/-- The hasher is that of the built-in algorithm which the settings name. -/
def NamesHasher (r : Rules) : Prop := ∃ a, r.config.algorithm = .ok a ∧ r.hasher = a.hasher

/-- A new chain holds one block, which is mined from the genesis contents. -/
theorem single_of_ofConfig {config : Config} {c : Chain} (h : (ofConfig config).result = .ok c) :
    c.rules.config = config ∧ NamesHasher c.rules ∧ c.IsBuilt ∧
      ∃ b, c.blocks = [b] ∧ c.tip = b ∧ b.toContents = c.rules.genesisContents := by
  unfold ofConfig at h
  split at h
  next => exact nomatch h
  next a halgorithm =>
    obtain ⟨hrules, b, hmined, hc⟩ := result_create_eq_ok_iff.mp h
    obtain ⟨hconfig, hhasher⟩ := Rules.of_eq_ok hrules
    have hbuilt : (single c.rules b).IsBuilt := isBuilt_single_iff.mpr hmined
    have hgenesis := (Contents.mined_eq_ok_iff.mp hmined).1
    rw [hc]
    exact ⟨hconfig, ⟨a, hconfig ▸ halgorithm, hhasher⟩, hbuilt, b, rfl, rfl, hgenesis⟩

/-- What a chain holds when the payloads have been appended at one time to a new chain. -/
structure Holds (c : Chain) (now : Int) (ps : List String) : Prop where
  length : c.length = ps.length + 1
  hasher : NamesHasher c.rules
  built : c.IsBuilt
  genesis : ∃ b, c.blocks[0]? = some b ∧ b.toContents = c.rules.genesisContents
  appended : ∀ k b, c.blocks[k + 1]? = some b → ∃ p payload, c.blocks[k]? = some p ∧
    ps[k]? = some payload ∧ b.payload = Utf8.encode payload ∧ b.index.toNat = k + 1 ∧
    b.timestamp = stampOf now ∧ b.previousDigest = p.digest

/-- The block that a payload is granted, when none is refused and the tip is a genesis block. -/
theorem appended_of_granted {c : Chain} {now : Int} {ps : List String} (hindex : c.tip.index = 0)
    (htimestamp : c.tip.timestamp = 0)
    (hgranted : (c.granted (requests now ps)).map Prod.fst = requests now ps) {k : Nat} {q : Request}
    {b : Block} (h : (c.granted (requests now ps))[k]? = some (q, b)) :
    ∃ p payload, (c.run (requests now ps)).blocks[c.length + k - 1]? = some p ∧
      ps[k]? = some payload ∧ b.payload = Utf8.encode payload ∧ b.index.toNat = k + 1 ∧
      b.timestamp = stampOf now ∧ b.previousDigest = p.digest := by
  have hq : (requests now ps)[k]? = some q := by
    rw [← hgranted, List.getElem?_map, h]
    rfl
  obtain ⟨payload, hpayload, rfl⟩ := Option.map_eq_some_iff.mp (List.getElem?_map ▸ hq)
  obtain ⟨p, hp, hcont⟩ := continues_of_granted h
  -- the index and the time come from the calls granted up to this one, which are `k + 1`
  have hlength : ((c.granted (requests now ps)).take (k + 1)).length = k + 1 :=
    List.length_take_of_le (List.getElem?_eq_some_iff.mp h).1
  have hne : (c.granted (requests now ps)).take (k + 1) ≠ [] :=
    List.ne_nil_of_length_eq_add_one hlength
  have hmem : ∀ g ∈ (c.granted (requests now ps)).take (k + 1), g.1 ∈ requests now ps :=
    fun g hg => hgranted ▸ List.mem_map_of_mem (List.mem_of_mem_take hg)
  refine ⟨p, payload, hp, hpayload, hcont.payload, ?_, ?_, hcont.previousDigest⟩
  · rw [hcont.index, hindex, hlength, UInt64.toNat_zero, Nat.zero_add]
  · rw [hcont.timestamp, htimestamp, latestOf_requests hne hmem]

theorem holds_of_appendAll {config : Config} {now : Int} {ps : List String} {c c' : Chain}
    (hmade : (ofConfig config).result = .ok c) (hgrown : appendAll now ps c = .ok c') :
    Holds c' now ps ∧ c'.rules.config = config := by
  obtain ⟨hconfig, hhasher, hbuilt, b₀, hblocks, htip, hgenesis⟩ := single_of_ofConfig hmade
  obtain ⟨rfl, hgranted⟩ := appendAll_eq_ok hgrown
  have hgrownBlocks : (c.run (requests now ps)).blocks =
      b₀ :: (c.granted (requests now ps)).map Prod.snd := by
    rw [blocks_run, hblocks]
    rfl
  have hcount : (c.granted (requests now ps)).length = ps.length := by
    rw [← List.length_map (f := Prod.fst), hgranted, requests, List.length_map]
  have hone : c.length = 1 := congrArg List.length hblocks
  have hindex : c.tip.index = 0 := htip ▸ congrArg Contents.index hgenesis
  have htimestamp : c.tip.timestamp = 0 := htip ▸ congrArg Contents.timestamp hgenesis
  refine ⟨⟨?_, ?_, hbuilt.run _, ⟨b₀, ?_, ?_⟩, ?_⟩, ?_⟩
  · rw [length, hgrownBlocks, List.length_cons, List.length_map, hcount]
  · rw [rules_run]
    exact hhasher
  · rw [hgrownBlocks]
    rfl
  · rw [rules_run]
    exact hgenesis
  · intro k b hb
    rw [hgrownBlocks, List.getElem?_cons_succ, List.getElem?_map] at hb
    obtain ⟨⟨q, b'⟩, hg, rfl⟩ := Option.map_eq_some_iff.mp hb
    have happended := appended_of_granted hindex htimestamp hgranted hg
    rwa [hone, Nat.add_sub_cancel_left] at happended
  · rw [rules_run, hconfig]

/-! ## The rows of a run -/

/-- The contents that a row shows. -/
def Row.contents? (row : Row) : Option Contents :=
  (Digest.ofHex? row.previousHash).map fun previousDigest =>
    ⟨row.index, row.timestamp, Utf8.encode row.payload, previousDigest⟩

/-- The text is that of a digest which meets the difficulty. -/
structure WritesDigest (difficulty : UInt32) (text : String) : Prop where
  length : text.length = 64
  digits : ∀ c ∈ text.toList, Hex.IsLowerDigit c
  meets : ∃ d, Digest.ofHex? text = some d ∧ d.Meets difficulty

/-- The hash of a row is the digest of the contents that the row shows under the nonce that it shows, which
is the lowest that will do. -/
structure ShowsSeal (a : Algorithm) (difficulty : UInt32) (row : Row) (contents : Contents) : Prop where
  shown : row.contents? = some contents
  hash : row.hash = (contents.digestWith a.hasher row.nonce).toHex
  lowest : ∀ n < row.nonce, ¬ (contents.digestWith a.hasher n).Meets difficulty

/-- The rows show the configured genesis block, and behind it the payloads that were appended, each block
as it was mined. -/
structure ShowsRun (config : Config) (now : Int) (ps : List String) (rows : List Row) : Prop where
  length : rows.length = ps.length + 1
  hash : ∀ row ∈ rows, WritesDigest config.difficulty row.hash
  mined : ∃ a, config.algorithm = .ok a ∧
    ∀ row ∈ rows, ∃ contents, ShowsSeal a config.difficulty row contents
  genesis : ∃ row, rows[0]? = some row ∧ row.index = 0 ∧ row.timestamp = 0 ∧
    row.previousHash = String.ofList (List.replicate 64 '0') ∧ row.payload = config.genesisPayload
  appended : ∀ k row, rows[k + 1]? = some row → row.index.toNat = k + 1 ∧
    ps[k]? = some row.payload ∧ (row.timestamp.toNat : Int) = max now 0 ∧
    ∃ before, rows[k]? = some before ∧ row.previousHash = before.hash

theorem writesDigest_toHex {d : Digest} {difficulty : UInt32} (h : d.Meets difficulty) :
    WritesDigest difficulty d.toHex where
  length := d.length_toHex
  digits _ hc := Hex.isLowerDigit_of_mem_encode (String.toList_ofList ▸ hc)
  meets := ⟨d, d.ofHex?_toHex, h⟩

theorem toNat_stampOf {now : Int} (h : now < 2 ^ 64) : ((stampOf now).toNat : Int) = max now 0 := by
  have hlt : now.toNat < UInt64.size := by
    show now.toNat < 2 ^ 64
    omega
  rw [stampOf, UInt64.toNat_ofNat_of_lt' hlt, Int.ofNat_toNat]

/-- All payloads are texts. -/
theorem Holds.exists_text {c : Chain} {now : Int} {ps : List String} (h : Holds c now ps) {k : Nat}
    {b : Block} (hb : c.blocks[k]? = some b) : ∃ text, b.payload = Utf8.encode text := by
  cases k with
  | zero =>
    obtain ⟨b', hb', hgenesis⟩ := h.genesis
    obtain rfl : b = b' := Option.some.inj (hb.symm.trans hb')
    exact ⟨_, congrArg Contents.payload hgenesis⟩
  | succ k =>
    obtain ⟨_, payload, -, -, hpayload, -⟩ := h.appended k b hb
    exact ⟨payload, hpayload⟩

/-- A text for a payload is shown as it is, and so all contents are. -/
theorem Row.contents?_ofBlock {b : Block} {text : String} (h : b.payload = Utf8.encode text) :
    (ofBlock b).contents? = some b.toContents := by
  have hpayload : Utf8.encode (Utf8.decodeLenient b.payload) = b.payload := by
    rw [h, Utf8.decodeLenient_encode]
  show (Digest.ofHex? b.previousDigest.toHex).map _ = _
  rw [Digest.ofHex?_toHex, Option.map_some]
  show some (Contents.mk b.index b.timestamp (Utf8.encode (Utf8.decodeLenient b.payload)) _) = _
  rw [hpayload]

theorem Holds.showsRun {c : Chain} {now : Int} {ps : List String} (h : Holds c now ps)
    (hclock : now < 2 ^ 64) : ShowsRun c.rules.config now ps (c.blocks.map Row.ofBlock) where
  length := (List.length_map _).trans h.length
  hash row hrow := by
    obtain ⟨b, hb, rfl⟩ := List.mem_map.mp hrow
    obtain ⟨i, hi⟩ := List.mem_iff_getElem?.mp hb
    have hfits := (result_validate_eq_ok_iff.mp h.built.valid).fits hi
    rw [← Rules.difficulty_work]
    exact writesDigest_toHex hfits.meets
  mined := by
    obtain ⟨a, halgorithm, hhasher⟩ := h.hasher
    refine ⟨a, halgorithm, fun row hrow => ?_⟩
    obtain ⟨b, hb, rfl⟩ := List.mem_map.mp hrow
    obtain ⟨i, hi⟩ := List.mem_iff_getElem?.mp hb
    obtain ⟨text, htext⟩ := h.exists_text hi
    have hdigest := ((result_validate_eq_ok_iff.mp h.built.valid).fits hi).digest
    have hlowest := (h.built.nonces b hb).lowest
    rw [hhasher] at hdigest hlowest
    rw [c.rules.difficulty_work] at hlowest
    exact ⟨b.toContents, Row.contents?_ofBlock htext, congrArg Digest.toHex hdigest.symm, hlowest⟩
  genesis := by
    obtain ⟨b, hb, hcontents⟩ := h.genesis
    refine ⟨Row.ofBlock b, ?_, ?_, ?_, ?_, ?_⟩
    · rw [List.getElem?_map, hb]
      rfl
    · exact congrArg Contents.index hcontents
    · exact congrArg Contents.timestamp hcontents
    · exact (congrArg (·.previousDigest.toHex) hcontents).trans Digest.toHex_zero
    · have hpayload : b.payload = Utf8.encode c.rules.config.genesisPayload :=
        congrArg Contents.payload hcontents
      show Utf8.decodeLenient b.payload = _
      rw [hpayload, Utf8.decodeLenient_encode]
  appended k row hrow := by
    rw [List.getElem?_map] at hrow
    obtain ⟨b, hb, rfl⟩ := Option.map_eq_some_iff.mp hrow
    obtain ⟨p, payload, hp, hpayload, hencode, hindex, htimestamp, hlink⟩ := h.appended k b hb
    refine ⟨hindex, ?_, ?_, Row.ofBlock p, ?_, ?_⟩
    · show _ = some (Utf8.decodeLenient b.payload)
      rw [hencode, Utf8.decodeLenient_encode, hpayload]
    · show ((b.timestamp.toNat : Nat) : Int) = _
      rw [htimestamp, toNat_stampOf hclock]
    · rw [List.getElem?_map, hp]
      rfl
    · exact congrArg Digest.toHex hlink

/-! ## The verdict -/

theorem Holds.toNat_index {c : Chain} {now : Int} {ps : List String} (h : Holds c now ps) {k : Nat}
    {b : Block} (hb : c.blocks[k]? = some b) : b.index.toNat = k := by
  cases k with
  | zero =>
    obtain ⟨b', hb', hgenesis⟩ := h.genesis
    obtain rfl : b = b' := Option.some.inj (hb.symm.trans hb')
    exact congrArg (·.index.toNat) hgenesis
  | succ k =>
    obtain ⟨_, _, -, -, -, hindex, -⟩ := h.appended k b hb
    exact hindex

theorem Holds.verdictLine_eq {c : Chain} {now : Int} {ps : List String} (h : Holds c now ps) :
    verdictLine c = "valid: " ++ Decimal.text (ps.length + 1) ++ " blocks, tip " ++
      Decimal.text ps.length ++ "\n" := by
  have hindex : c.tip.index.toNat = ps.length := by
    have htip := c.getElem?_tip
    rw [h.length, Nat.add_sub_cancel] at htip
    exact h.toNat_index htip
  rw [verdictLine, h.built.valid, h.length, hindex]

/-! ## Settings from a file -/

/-- Settings are loaded from a file that holds their own text, if they are accepted. -/
theorem loadConfig_of_written {s : Surroundings} {path : String} {config : Config}
    (hread : s.read path = .ok (Utf8.encode config.toText)) (haccepted : config.validate = .ok ()) :
    loadConfig s (some path) none = .ok config := by
  have hdifficulty : config.difficulty.toNat ≤ digestBits := by
    by_contra hgt
    rw [Config.validate_eq, if_neg hgt] at haccepted
    exact nomatch haccepted
  have hwhole : Config.record.read.whole config.toText.toList = .ok config :=
    Config.whole_of_gives (Config.gives_toText config)
  have hfile : configOfFile s path = .ok config := by
    rw [configOfFile, hread]
    dsimp only
    rw [Utf8.decode?_encode]
    dsimp only
    rw [Config.ofText_of_whole s.wording hwhole, if_pos hdifficulty]
    rfl
  rw [loadConfig]
  dsimp only
  rw [hfile]
  show (config.validate.mapError Failure.config >>= _) = _
  rw [haccepted]
  rfl

/-! ## A chain that took work -/

/-- The digest of four words, the most significant first. -/
def digestOfWords (w x y z : UInt64) : Digest := ⟨[w, x, y, z].flatMap Bytes.ofWord, rfl⟩

/-- Settings that ask for four zero bits. -/
def fourBits : Config := { difficulty := 4, genesisPayload := "Origin" }

/-- The rules of these settings. -/
def fourBitRules : Rules := ⟨Algorithm.sha256.hasher, fourBits, ⟨4, none, by decide⟩, by rfl⟩

/-- The genesis block, found at the first nonce. -/
def originBlock : Block where
  toContents := fourBitRules.genesisContents
  nonce := 0
  digest := digestOfWords 0x0630210b45812a09 0x0a699d72a233efa0 0x3602ddfbd6440926 0xb9bbf3f70e4e383d

def originChain : Chain := single fourBitRules originBlock

/-- The block of an empty payload, found at the first nonce. -/
def emptyBlock : Block where
  toContents := originChain.candidate (.append (Utf8.encode "") 6)
  nonce := 0
  digest := digestOfWords 0x097d317406fed1f7 0xb3a7143bd9aef402 0xb99e2ced9ed9741b 0x188306b2ec1c0330

/-- The block of a payload that looks like an option, found at the second nonce. -/
def optionBlock : Block where
  toContents := (originChain.push emptyBlock).candidate (.append (Utf8.encode "-x") 6)
  nonce := 1
  digest := digestOfWords 0x0f12aa13eb32b47d 0x89d756468f1d4edc 0x6f6488f01eba9c5c 0x9b0ff841b799fb0f

def fourBitChain : Chain := (originChain.push emptyBlock).push optionBlock

theorem computeDigest_originBlock :
    originBlock.computeDigest fourBitRules.hasher = originBlock.digest := by
  decide +kernel

theorem computeDigest_emptyBlock :
    emptyBlock.computeDigest fourBitRules.hasher = emptyBlock.digest := by
  decide +kernel

theorem computeDigest_optionBlock :
    optionBlock.computeDigest fourBitRules.hasher = optionBlock.digest := by
  decide +kernel

/-- The first nonce will not do for the third block. -/
theorem optionBlock_missed :
    ¬ (optionBlock.toContents.digestWith fourBitRules.hasher 0).Meets fourBitRules.work.difficulty := by
  decide +kernel

theorem result_ofConfig_fourBits : (ofConfig fourBits).result = .ok originChain := by
  have hmined : originBlock.toContents.mined fourBitRules.work fourBitRules.hasher = .ok originBlock :=
    Contents.mined_of_digest computeDigest_originBlock (by decide) (fun _ hn => absurd hn UInt64.not_lt_zero)
      (by decide)
  have hcreate : ofConfig fourBits = create fourBitRules.config fourBitRules.hasher := rfl
  rw [hcreate]
  exact result_create_eq_ok_iff.mpr ⟨fourBitRules.of_config_hasher, originBlock, hmined, rfl⟩

theorem appendAll_originChain : appendAll 6 ["", "-x"] originChain = .ok fourBitChain := by
  have hempty : emptyBlock.toContents.mined fourBitRules.work fourBitRules.hasher = .ok emptyBlock :=
    Contents.mined_of_digest computeDigest_emptyBlock (by decide) (fun _ hn => absurd hn UInt64.not_lt_zero)
      (by decide)
  have hlowest : ∀ n < optionBlock.nonce,
      ¬ (optionBlock.toContents.digestWith fourBitRules.hasher n).Meets
        fourBitRules.work.difficulty := by
    intro n hn
    obtain rfl : n = 0 := UInt64.lt_one_iff.mp hn
    exact optionBlock_missed
  have hoption : optionBlock.toContents.mined fourBitRules.work fourBitRules.hasher = .ok optionBlock :=
    Contents.mined_of_digest computeDigest_optionBlock (by decide) hlowest (by decide)
  rw [appendAll_cons_of_mined (by decide) hempty, appendAll_cons_of_mined (by decide) hoption]
  rfl

/-- At a clock of six seconds, with the settings above in any file. -/
def fourBitSurroundings : Surroundings :=
  ⟨6, fun _ => .ok (Utf8.encode fourBits.toText), .plain⟩

theorem loadConfig_fourBits (path : String) :
    loadConfig fourBitSurroundings (some path) none = .ok fourBits :=
  loadConfig_of_written rfl rfl

/-! ## Runs -/

theorem run_of_ofWords {words : List String} {i : Invocation}
    (hwords : Invocation.ofWords words = .ok i) (s : Surroundings) : run s words = .ok (i.run s) := by
  rw [run, hwords]
  rfl

/-- A run whose payloads are appended ends with what tampering leaves of the chain, if that is asked for:
its blocks and the verdict on them are printed, or the error is reported. -/
theorem run_of_appendAll {s : Surroundings} {words ps : List String} {path : Option String}
    {difficulty : Option UInt32} {tamper : Option UInt64} {config : Config} {made c : Chain}
    (hwords : Invocation.ofWords words = .ok ⟨path, difficulty, .run tamper ps⟩)
    (hload : loadConfig s path difficulty = .ok config)
    (hmade : (ofConfig config).result = .ok made) (hgrown : appendAll s.now ps made = .ok c) :
    run s words = .ok (
      match tampered s.wording tamper c with
      | .error e => ⟨1, "", (Failure.tampering e).report⟩
      | .ok c' => ⟨0, String.ofList (Row.table c'.blocks) ++ verdictLine c', ""⟩) := by
  have hmade' : ((ofConfig config).mapError Failure.chain).result = .ok made :=
    congrArg (Except.mapError _) hmade
  have hgrown' : (appendAll s.now ps made).mapError Failure.chain = .ok c :=
    congrArg (Except.mapError _) hgrown
  rw [run_of_ofWords hwords, Invocation.run]
  dsimp only
  rw [hload, Printing.outcome_ofResult_ok_bind, perform, Printing.outcome_ofTraced_bind, hmade']
  dsimp only
  rw [hgrown', Printing.outcome_ofResult_ok_bind, Printing.outcome_ofTraced_bind,
    Traced.result_ofResult]
  cases tampered s.wording tamper c with
  | error e => rfl
  | ok c' => exact congrArg Except.ok (Printing.outcome_print_bind_print _ _)

/-- A run of payloads behind two dashes, when its settings are accepted and mining succeeds, ends with
code zero and no error. It prints an array, and rows are read from it that show the genesis block and the
payloads; and then the line that so many blocks are valid. Of the clock it is asked only that a word
holds its seconds. -/
theorem honest_run_shows_payloads {s : Surroundings} {words ps : List String} {path : Option String}
    {difficulty : Option UInt32} {config : Config} {c c' : Chain} (hclock : s.now < 2 ^ 64)
    (hdashes : "--" ∉ words)
    (hwords : Invocation.ofWords words = .ok ⟨path, difficulty, .run none []⟩)
    (hload : loadConfig s path difficulty = .ok config)
    (hmade : (ofConfig config).result = .ok c) (hgrown : appendAll s.now ps c = .ok c') :
    ∃ text rows,
      run s (words ++ "--" :: ps) = .ok ⟨0, text ++ "\n" ++ ("valid: " ++ Decimal.text (ps.length + 1) ++
        " blocks, tip " ++ Decimal.text ps.length ++ "\n"), ""⟩ ∧
      Row.listOfText text = .ok rows ∧ ShowsRun config s.now ps rows := by
  obtain ⟨hholds, rfl⟩ := holds_of_appendAll hmade hgrown
  have hunderstood := ofWords_payloads hdashes hwords ps
  have hrun := run_of_appendAll hunderstood hload hmade hgrown
  refine ⟨_, _, ?_, Row.listOfText_listToText (c'.blocks.map Row.ofBlock), hholds.showsRun hclock⟩
  rw [← Row.table_eq, ← hholds.verdictLine_eq]
  exact hrun

/-- An empty payload and one that looks like an option, with settings from a file that ask for work. -/
theorem unusual_payloads_shown : ∃ text rows,
    run fourBitSurroundings ["--config=c", "run", "--", "", "-x"] =
      .ok ⟨0, text ++ "\n" ++ "valid: 3 blocks, tip 2\n", ""⟩ ∧
    Row.listOfText text = .ok rows ∧ ShowsRun fourBits 6 ["", "-x"] rows := by
  have hpath : some "c" ≠ some "" := by decide
  have hwords : Invocation.ofWords ["--config=c", "run"] = .ok ⟨some "c", none, .run none []⟩ :=
    ofWords_optionWords hpath none
  have hdashes : "--" ∉ ["--config=c", "run"] := dashes_notMem_optionWords (some "c") none
  exact honest_run_shows_payloads (by decide) hdashes hwords (loadConfig_fourBits "c")
    result_ofConfig_fourBits appendAll_originChain

end MinedChain.Command
