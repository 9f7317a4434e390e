import MinedChain.Proofs.FieldEdit
import MinedChain.Proofs.FirstFailure
import MinedChain.Proofs.Tampering

/-!
# Runs with tampering

What tampering changes is one bit, so tampering again at the same position takes it back. A run that tampers
with its chain prints the blocks as they are then. The chain was valid before, so the verdict is on the one
changed payload: at position zero it is not that of the genesis block, and elsewhere the digest is left to
tell.
-/

namespace MinedChain

/-! ## Flipping twice -/

/-- A bit that is flipped twice is as it was. -/
theorem Bytes.flipBit_flipBit (bs : Bytes) (octet bit : Nat) :
    flipBit (flipBit bs octet bit) octet bit = bs := by
  let flip : UInt8 → UInt8 := (· ^^^ (1 <<< UInt8.ofNat bit))
  have hback : flip ∘ flip = id := by
    funext o
    show o ^^^ _ ^^^ _ = o
    rw [UInt8.xor_assoc, UInt8.xor_self, UInt8.xor_zero]
  show (bs.modify octet flip).modify octet flip = bs
  rw [List.modify_modify_eq, hback, List.modify_id]

theorem Digest.flipBit_flipBit (d : Digest) (octet bit : Nat) :
    (d.flipBit octet bit).flipBit octet bit = d :=
  Digest.ext (Bytes.flipBit_flipBit d.bytes octet bit)

namespace Block

theorem flipBit_flipBit (b : Block) (field : OctetField) (octet bit : Nat) :
    (b.flipBit field octet bit).flipBit field octet bit = b := by
  cases field with
  | payload =>
    show { b with payload := _ } = b
    rw [flipBit, Bytes.flipBit_flipBit]
  | previousDigest =>
    show { b with previousDigest := _ } = b
    rw [flipBit, Digest.flipBit_flipBit]
  | digest =>
    show { b with digest := _ } = b
    rw [flipBit, Digest.flipBit_flipBit]

/-- The lowest bit of a payload is in its first octet. -/
theorem flipBit_payload_of_eq_cons {b : Block} {octet : UInt8} {rest : Bytes}
    (h : b.payload = octet :: rest) :
    b.flipBit .payload 0 0 = { b with payload := (octet ^^^ 1) :: rest } := by
  rw [flipBit, h]
  rfl

theorem flipBit_payload_ne {b : Block} (h : b.payload ≠ []) : b.flipBit .payload 0 0 ≠ b := by
  obtain ⟨octet, rest, hpayload⟩ := List.exists_cons_of_ne_nil h
  intro heq
  have hcons : (octet ^^^ 1) :: rest = octet :: rest := by
    rw [flipBit_payload_of_eq_cons hpayload] at heq
    exact (congrArg (·.payload) heq).trans hpayload
  injection hcons with hoctet
  -- an octet that is equal to its change would make one zero
  have hone : octet ^^^ (octet ^^^ 1) = octet ^^^ octet := congrArg (octet ^^^ ·) hoctet
  rw [← UInt8.xor_assoc, UInt8.xor_self] at hone
  exact absurd hone (by decide)

end Block

/-! ## Tampering with a chain -/

namespace Chain

variable {c c' : Chain} {wording : Json.Wording} {position : UInt64} {b b' : Block}

/-- A block with a payload can be tampered with, and then it is the flipped block. -/
theorem exists_tamper (wording : Json.Wording) (hb : c.blocks[position.toNat]? = some b)
    (hpayload : b.payload ≠ []) :
    ∃ c', c.tamper wording position = .ok c' ∧
      c'.blocks[position.toNat]? = some (b.flipBit .payload 0 0) := by
  obtain ⟨_, hok⟩ := tamper_of_eq_some wording (flip_eq_some hb hpayload)
  have hlt := (List.getElem?_eq_some_iff.mp hb).1
  exact ⟨_, hok, List.getElem?_set_self hlt⟩

theorem exists_tamper_iff :
    (∃ c', c.tamper wording position = .ok c') ↔
      ∃ b, c.blocks[position.toNat]? = some b ∧ b.payload ≠ [] := by
  constructor
  · rintro ⟨c', h⟩
    obtain ⟨b, hb, hpayload, -, -⟩ := tamper_eq_ok_iff.mp h
    exact ⟨b, hb, hpayload⟩
  · rintro ⟨b, hb, hpayload⟩
    obtain ⟨c', h, -⟩ := exists_tamper wording hb hpayload
    exact ⟨c', h⟩

/-- Tampering again at the same position takes the first back. -/
theorem tamper_of_tamper (h : c.tamper wording position = .ok c') :
    c'.tamper wording position = .ok c := by
  obtain ⟨b, hb, hpayload, hrules, hblocks⟩ := tamper_eq_ok_iff.mp h
  obtain ⟨hlt, hget⟩ := List.getElem?_eq_some_iff.mp hb
  have hflipped : (b.flipBit .payload 0 0).payload ≠ [] := fun hnil =>
    hpayload (List.modify_eq_nil_iff.mp hnil)
  refine tamper_eq_ok_iff.mpr ⟨b.flipBit .payload 0 0, ?_, hflipped, hrules.symm, ?_⟩
  · rw [hblocks, List.getElem?_set_self hlt]
  · rw [hblocks, List.set_set, Block.flipBit_flipBit, ← hget, List.set_getElem_self]

theorem length_of_tamper (h : c.tamper wording position = .ok c') : c'.length = c.length := by
  obtain ⟨b, -, -, -, hblocks⟩ := tamper_eq_ok_iff.mp h
  rw [length, hblocks, List.length_set]
  rfl

/-- The tip keeps its index, be it tampered with or not. -/
theorem index_tip_of_tamper (h : c.tamper wording position = .ok c') :
    c'.tip.index = c.tip.index := by
  obtain ⟨b, hb, -, -, hblocks⟩ := tamper_eq_ok_iff.mp h
  have htip' := c'.getElem?_tip
  rw [length_of_tamper h, hblocks] at htip'
  have htip := c.getElem?_tip
  by_cases hposition : position.toNat = c.length - 1
  · obtain ⟨hlt, -⟩ := List.getElem?_eq_some_iff.mp hb
    rw [← hposition, List.getElem?_set_self hlt] at htip'
    rw [← hposition] at htip
    obtain rfl : b = c.tip := Option.some.inj (hb.symm.trans htip)
    rw [← Option.some.inj htip']
    rfl
  · rw [List.getElem?_set_ne hposition, htip] at htip'
    rw [← Option.some.inj htip']

/-- The verdict on a chain that was valid until it was tampered with. -/
theorem result_validate_of_tamper (hvalid : c.validate.result = .ok ())
    (h : c.tamper wording position = .ok c') (hb : c.blocks[position.toNat]? = some b)
    (hb' : c'.blocks[position.toNat]? = some b') :
    c'.validate.result =
      if position = 0 then .error ⟨position, .genesisMismatch⟩
      else if c.rules.hasher.digest b'.encode = c.rules.hasher.digest b.encode then .ok ()
      else .error ⟨position, .digestMismatch⟩ := by
  obtain ⟨x, hx, hpayload, hrules, hblocks⟩ := tamper_eq_ok_iff.mp h
  obtain rfl : x = b := Option.some.inj (hx.symm.trans hb)
  have hlt := (List.getElem?_eq_some_iff.mp hb).1
  obtain rfl : x.flipBit .payload 0 0 = b' := by
    rw [hblocks, List.getElem?_set_self hlt] at hb'
    exact Option.some.inj hb'
  have hlist : c.rules.Valid c.blocks := result_validate_eq_ok_iff.mp hvalid
  -- the flip stores another payload, and only the first block has a check for that
  have hfirst : c'.rules.firstViolation? 0 none c'.blocks =
      ((if position.toNat = 0 then some .genesisMismatch else none).or
        (c.rules.digestDefect? (x.flipBit .payload 0 0))).map (Violation.mk position) := by
    have hstore := hlist.firstViolation?_store (v := .payload (Bytes.flipBit x.payload 0 0)) hb
      (Block.flipBit_payload_ne hpayload)
    rw [UInt64.ofNat_toNat] at hstore
    rw [hrules, hblocks]
    exact hstore
  by_cases hzero : position = 0
  · subst hzero
    rw [if_pos rfl]
    exact result_validate_eq_error_iff.mpr hfirst
  · have hbehind : position.toNat ≠ 0 := fun htoNat => hzero (UInt64.toNat_inj.mp htoNat)
    have hdigest : c.rules.hasher.digest x.encode = x.digest := (hlist.fits hb).digest
    rw [if_neg hbehind] at hfirst
    rw [if_neg hzero, hdigest]
    by_cases hsame : c.rules.hasher.digest (x.flipBit .payload 0 0).encode = x.digest
    · have hdefect : c.rules.digestDefect? (x.flipBit .payload 0 0) = none := if_pos hsame
      rw [hdefect] at hfirst
      rw [if_pos hsame]
      exact result_validate_eq_ok_iff.mpr hfirst
    · have hdefect : c.rules.digestDefect? (x.flipBit .payload 0 0) = some .digestMismatch :=
        if_neg hsame
      rw [hdefect] at hfirst
      rw [if_neg hsame]
      exact result_validate_eq_error_iff.mpr hfirst

end Chain

/-! ## Runs -/

namespace Command

open Chain

/-- Words around a text that is itself made around a text. -/
theorem append_around (before front text back after : String) :
    before ++ (front ++ text ++ back) ++ after = before ++ front ++ text ++ (back ++ after) := by
  simp only [String.append_assoc]

theorem report_nothingToFlip (position : UInt64) :
    (Failure.tampering (.nothingToFlip position)).report =
      "Error: block " ++ Decimal.text position.toNat ++
        " does not exist or has an empty payload\n" := by
  show "Error: " ++ ("block " ++ _ ++ " does not exist or has an empty payload") ++ "" ++ "\n" = _
  rw [String.append_empty, append_around]
  rfl

theorem verdictLine_of_error {c : Chain} {v : Violation} (h : c.validate.result = .error v) :
    verdictLine c = "invalid: integrity violation at block " ++ Decimal.text v.index.toNat ++
      (": " ++ v.kind.message ++ "\n") := by
  have hmessage : v.message = "integrity violation at block " ++ Decimal.text v.index.toNat ++
      (": " ++ v.kind.message) := String.append_assoc
  rw [verdictLine, h]
  dsimp only
  rw [hmessage, append_around]
  rfl

theorem verdictLine_of_ok {c : Chain} (h : c.validate.result = .ok ()) :
    verdictLine c = "valid: " ++ Decimal.text c.length ++ " blocks, tip " ++
      Decimal.text c.tip.index.toNat ++ "\n" := by
  rw [verdictLine, h]

/-- The line behind the blocks of a chain that was tampered with. -/
theorem verdictLine_of_tamper {c c' : Chain} {wording : Json.Wording} {position : UInt64}
    {b b' : Block} {now : Int} {ps : List String} (hholds : Holds c now ps)
    (h : c.tamper wording position = .ok c')
    (hb : c.blocks[position.toNat]? = some b) (hb' : c'.blocks[position.toNat]? = some b') :
    verdictLine c' =
      if position = 0 then "invalid: integrity violation at block 0: genesis mismatch\n"
      else if c.rules.hasher.digest b'.encode = c.rules.hasher.digest b.encode then
        "valid: " ++ Decimal.text (ps.length + 1) ++ " blocks, tip " ++ Decimal.text ps.length ++ "\n"
      else "invalid: integrity violation at block " ++ Decimal.text position.toNat ++
        ": digest mismatch\n" := by
  have hvalid := hholds.built.valid
  have hverdict := result_validate_of_tamper hvalid h hb hb'
  by_cases hzero : position = 0
  · rw [if_pos hzero] at hverdict
    rw [if_pos hzero, verdictLine_of_error hverdict, hzero]
    rfl
  · rw [if_neg hzero] at hverdict
    rw [if_neg hzero]
    by_cases hsame : c.rules.hasher.digest b'.encode = c.rules.hasher.digest b.encode
    · -- neither the number of the blocks nor the index of the tip has changed
      rw [if_pos hsame] at hverdict
      rw [if_pos hsame, ← hholds.verdictLine_eq, verdictLine_of_ok hverdict, length_of_tamper h,
        index_tip_of_tamper h, verdictLine_of_ok hvalid]
    · rw [if_neg hsame] at hverdict
      rw [if_neg hsame, verdictLine_of_error hverdict]
      rfl

/-- The third block of the chain above has another digest once it is tampered with. -/
theorem digest_flipped_optionBlock :
    fourBitRules.hasher.digest (optionBlock.flipBit .payload 0 0).encode ≠ optionBlock.digest := by
  decide +kernel

/-- A chain can be tampered with exactly where it has a block with a payload. Then the chain is the same up to
the lowest bit of the first octet of that payload, under the same rules, and tampering once more gives it
back. So a run that is told to tamper, once its payloads are appended, ends with an error if there is no
such block. Otherwise it ends well, and says behind the blocks that the first of them is not the genesis
block, if that is the one, and else that the digest is wrong, unless the old and the new encoding are of
one digest. -/
theorem tampering_flips_one_bit_and_is_reported :
    (∀ (c : Chain) (wording : Json.Wording) (position : UInt64),
      ((∃ c', c.tamper wording position = .ok c') ↔
        ∃ b, c.blocks[position.toNat]? = some b ∧ b.payload ≠ []) ∧
      ∀ c', c.tamper wording position = .ok c' →
        c'.rules = c.rules ∧
        (∃ b octet rest, c.blocks[position.toNat]? = some b ∧ b.payload = octet :: rest ∧
          c'.blocks = c.blocks.set position.toNat { b with payload := (octet ^^^ 1) :: rest }) ∧
        c'.tamper wording position = .ok c) ∧
    (∀ (s : Surroundings) (words ps : List String) (path : Option String)
      (difficulty : Option UInt32) (position : UInt64) (config : Config) (made c : Chain),
      Invocation.ofWords words = .ok ⟨path, difficulty, .run (some position) ps⟩ →
      loadConfig s path difficulty = .ok config → (ofConfig config).result = .ok made →
      appendAll s.now ps made = .ok c →
      (∀ e, c.tamper s.wording position = .error e → run s words = .ok ⟨1, "", "Error: block " ++
        Decimal.text position.toNat ++ " does not exist or has an empty payload\n"⟩) ∧
      ∀ c' b b', c.tamper s.wording position = .ok c' → c.blocks[position.toNat]? = some b →
        c'.blocks[position.toNat]? = some b' →
        run s words = .ok ⟨0, String.ofList (Row.table c'.blocks) ++
          if position = 0 then "invalid: integrity violation at block 0: genesis mismatch\n"
          else if c.rules.hasher.digest b'.encode = c.rules.hasher.digest b.encode then
            "valid: " ++ Decimal.text (ps.length + 1) ++ " blocks, tip " ++
              Decimal.text ps.length ++ "\n"
          else "invalid: integrity violation at block " ++ Decimal.text position.toNat ++
            ": digest mismatch\n", ""⟩) := by
  constructor
  · intro c wording position
    refine ⟨exists_tamper_iff, fun c' h => ?_⟩
    obtain ⟨b, hb, hpayload, hrules, hblocks⟩ := tamper_eq_ok_iff.mp h
    obtain ⟨octet, rest, hcons⟩ := List.exists_cons_of_ne_nil hpayload
    rw [Block.flipBit_payload_of_eq_cons hcons] at hblocks
    exact ⟨hrules, ⟨b, octet, rest, hb, hcons, hblocks⟩, tamper_of_tamper h⟩
  · intro s words ps path difficulty position config made c hwords hload hmade hgrown
    obtain ⟨hholds, -⟩ := holds_of_appendAll hmade hgrown
    have hrun := run_of_appendAll hwords hload hmade hgrown
    constructor
    · intro e hfails
      obtain ⟨rfl, -⟩ := tamper_eq_error_iff.mp hfails
      rw [hrun, tampered, hfails, ← report_nothingToFlip]
    · intro c' b b' h hb hb'
      rw [hrun, tampered, h, ← verdictLine_of_tamper hholds h hb hb']

/-- A flip in the genesis block, one where there is no payload, and one in the block behind that. -/
theorem flips_reported_by_place :
    (∃ table, run fourBitSurroundings ["--config=c", "run", "--tamper=0", "--", "", "-x"] =
      .ok ⟨0, table ++ "invalid: integrity violation at block 0: genesis mismatch\n", ""⟩) ∧
    run fourBitSurroundings ["--config=c", "run", "--tamper=1", "--", "", "-x"] =
      .ok ⟨1, "", "Error: block 1 does not exist or has an empty payload\n"⟩ ∧
    (∃ table, run fourBitSurroundings ["--config=c", "run", "--tamper=2", "--", "", "-x"] =
      .ok ⟨0, table ++ "invalid: integrity violation at block 2: digest mismatch\n", ""⟩) := by
  have hreports (words : List String) (position : UInt64) (hwords : Invocation.ofWords words =
      .ok ⟨some "c", none, .run (some position) ["", "-x"]⟩) :=
    tampering_flips_one_bit_and_is_reported.2 fourBitSurroundings words _ _ _ position _ _ _ hwords
      (loadConfig_fourBits "c") result_ofConfig_fourBits appendAll_originChain
  refine ⟨?_, ?_, ?_⟩
  · have hgenesis : fourBitChain.blocks[(0 : UInt64).toNat]? = some originBlock := rfl
    obtain ⟨c', h, hflipped⟩ := exists_tamper fourBitSurroundings.wording hgenesis (by decide)
    have hrun := (hreports ["--config=c", "run", "--tamper=0", "--", "", "-x"] 0 (by rfl)).2 c' _ _ h
      hgenesis hflipped
    rw [if_pos rfl] at hrun
    exact ⟨_, hrun⟩
  · have hempty : fourBitChain.blocks[(1 : UInt64).toNat]? = some emptyBlock := rfl
    have hfails : fourBitChain.tamper fourBitSurroundings.wording 1 = .error (.nothingToFlip 1) :=
      tamper_eq_error_iff.mpr ⟨rfl, fun b hb => Option.some.inj (hempty.symm.trans hb) ▸ rfl⟩
    exact (hreports ["--config=c", "run", "--tamper=1", "--", "", "-x"] 1 (by rfl)).1 _ hfails
  · have hoption : fourBitChain.blocks[(2 : UInt64).toNat]? = some optionBlock := rfl
    have hdigest : fourBitRules.hasher.digest optionBlock.encode = optionBlock.digest :=
      computeDigest_optionBlock
    have hdiffers : fourBitChain.rules.hasher.digest (optionBlock.flipBit .payload 0 0).encode ≠
        fourBitChain.rules.hasher.digest optionBlock.encode := fun heq =>
      digest_flipped_optionBlock (heq.trans hdigest)
    obtain ⟨c', h, hflipped⟩ := exists_tamper fourBitSurroundings.wording hoption (by decide)
    have hrun := (hreports ["--config=c", "run", "--tamper=2", "--", "", "-x"] 2 (by rfl)).2 c' _ _ h
      hoption hflipped
    rw [if_neg (by decide), if_neg hdiffers] at hrun
    exact ⟨_, hrun⟩

end Command

end MinedChain
