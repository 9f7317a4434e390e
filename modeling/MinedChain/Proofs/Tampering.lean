import MinedChain.Chain.Tamper
import MinedChain.Edit
import MinedChain.Proofs.BlockText
import MinedChain.Proofs.Calls
import MinedChain.Proofs.Settings

/-!
# Tampering changes one bit

A chain is tampered with in the tree that its blocks are written as. The change of the tree is that of the
blocks: it can be followed from an octet to the payload, from the payload to the block and from the block
to the list, and what is then taken from the tree is the list with one bit flipped, which is wrapped
again. There is nothing to flip only where there is no such block, or where it has no payload; that the
tree holds no blocks any more, or that they cannot be wrapped, does not occur.
-/

namespace MinedChain

namespace Json.Value

/-- A change of what an array was made from is a change of the array. -/
theorem modifyItem?_map {α : Type} {g : α → Value} {f : Value → Option Value} {h : α → Option α}
    (hf : ∀ a, f (g a) = (h a).map g) (l : List α) (i : Nat) :
    (arr (l.map g)).modifyItem? i f = (l[i]?.bind h).map fun a => arr ((l.set i a).map g) := by
  rw [modifyItem?, List.getElem?_map]
  cases l[i]? with
  | none => rfl
  | some a =>
    show (f (g a)).bind _ = (h a).map _
    rw [hf]
    cases h a with
    | none => rfl
    | some a' =>
      show some (arr ((l.map g).set i (g a'))) = some (arr ((l.set i a').map g))
      rw [List.map_set]

theorem flipLowBit_num (o : UInt8) : (num o.toNat).flipLowBit = num (o ^^^ 1).toNat := by
  rw [UInt8.toNat_xor]
  rfl

theorem flipFirst_ofBytes (bs : Bytes) :
    (ofBytes bs).modifyItem? 0 (fun octet => some octet.flipLowBit) =
      if bs = [] then none else some (ofBytes (Bytes.flipBit bs 0 0)) := by
  have hflip (o : UInt8) : some (num o.toNat).flipLowBit = (some (o ^^^ 1)).map (num ·.toNat) :=
    congrArg some (flipLowBit_num o)
  rw [ofBytes, modifyItem?_map hflip]
  cases bs <;> rfl

end Json.Value

namespace Block

open Json

/-- The block with the lowest bit of its payload flipped, if it has a payload. -/
def flipLowest? (b : Block) : Option Block :=
  if b.payload = [] then none else some (b.flipBit .payload 0 0)

theorem flipLowest?_eq_some_iff {b b' : Block} :
    b.flipLowest? = some b' ↔ b.payload ≠ [] ∧ b.flipBit .payload 0 0 = b' := by
  rw [flipLowest?]
  split
  next h => simp [h]
  next h => simp [h]

/-- The payload is changed where it is written. -/
theorem flipLowest_toJson (b : Block) :
    (b.toJson.modifyMember? "payload" fun payload =>
      payload.modifyItem? 0 fun octet => some octet.flipLowBit) = b.flipLowest?.map toJson := by
  show ((Value.ofBytes b.payload).modifyItem? 0 _).bind _ = _
  rw [Value.flipFirst_ofBytes, flipLowest?]
  by_cases hpayload : b.payload = []
  · rw [if_pos hpayload, if_pos hpayload]
    rfl
  · rw [if_neg hpayload, if_neg hpayload]
    rfl

theorem tamper?_listToJson (bs : List Block) (i : Nat) :
    (listToJson bs).tamper? i =
      (bs[i]?.bind flipLowest?).map fun b => listToJson (bs.set i b) :=
  Value.modifyItem?_map flipLowest_toJson bs i

end Block

namespace Chain

variable {c c' : Chain} {wording : Json.Wording} {position : UInt64}

theorem tamper_of_eq_none (wording : Json.Wording)
    (h : c.blocks[position.toNat]?.bind Block.flipLowest? = none) :
    c.tamper wording position = .error (.nothingToFlip position) := by
  rw [tamper, Block.tamper?_listToJson, h]
  rfl

/-- What is taken from the changed tree is the list with the changed block, and the settings and the
hasher that have been accepted once are accepted again. -/
theorem tamper_of_eq_some (wording : Json.Wording) {b : Block}
    (h : c.blocks[position.toNat]?.bind Block.flipLowest? = some b) :
    ∃ hne, c.tamper wording position = .ok ⟨c.rules, c.blocks.set position.toNat b, hne⟩ := by
  have hne : c.blocks.set position.toNat b ≠ [] := by
    simp [c.blocks_ne_nil]
  have hwrapped : ofBlocks c.rules.config c.rules.hasher (c.blocks.set position.toNat b) =
      .ok ⟨c.rules, c.blocks.set position.toNat b, hne⟩ :=
    ofBlocks_eq_ok_iff.mpr ⟨c.rules.of_config_hasher, rfl⟩
  refine ⟨hne, ?_⟩
  rw [tamper, Block.tamper?_listToJson, h]
  dsimp only [Option.map_some]
  rw [Block.listOfJson?_listToJson]
  exact congrArg (Except.mapError _) hwrapped

theorem flip_eq_some {b : Block} (hb : c.blocks[position.toNat]? = some b) (hpayload : b.payload ≠ []) :
    c.blocks[position.toNat]?.bind Block.flipLowest? = some (b.flipBit .payload 0 0) := by
  rw [hb]
  exact if_neg hpayload

/-- Tampering changes the lowest bit of one payload and nothing else. -/
theorem tamper_eq_ok_iff :
    c.tamper wording position = .ok c' ↔
      ∃ b, c.blocks[position.toNat]? = some b ∧ b.payload ≠ [] ∧ c'.rules = c.rules ∧
        c'.blocks = c.blocks.set position.toNat (b.flipBit .payload 0 0) := by
  constructor
  · intro h
    cases hflip : c.blocks[position.toNat]?.bind Block.flipLowest? with
    | none => exact nomatch (tamper_of_eq_none wording hflip).symm.trans h
    | some b' =>
      obtain ⟨_, hok⟩ := tamper_of_eq_some wording hflip
      obtain ⟨b, hb, hb'⟩ := Option.bind_eq_some_iff.mp hflip
      obtain ⟨hpayload, rfl⟩ := Block.flipLowest?_eq_some_iff.mp hb'
      obtain rfl := Except.ok.inj (hok.symm.trans h)
      exact ⟨b, hb, hpayload, rfl, rfl⟩
  · rintro ⟨b, hb, hpayload, hrules, hblocks⟩
    obtain ⟨_, hok⟩ := tamper_of_eq_some wording (flip_eq_some hb hpayload)
    rw [hok]
    exact congrArg Except.ok (Chain.ext hrules.symm hblocks.symm)

/-- There is nothing to flip exactly if there is no such block, or if it has no payload, and tampering
fails for no other reason. -/
theorem tamper_eq_error_iff {e : TamperError} :
    c.tamper wording position = .error e ↔
      e = .nothingToFlip position ∧ ∀ b, c.blocks[position.toNat]? = some b → b.payload = [] := by
  constructor
  · intro h
    have hnothing : ∀ b, c.blocks[position.toNat]? = some b → b.payload = [] := by
      intro b hb
      by_contra hpayload
      obtain ⟨_, hok⟩ := tamper_of_eq_some wording (flip_eq_some hb hpayload)
      exact nomatch h.symm.trans hok
    have hflip : c.blocks[position.toNat]?.bind Block.flipLowest? = none := by
      cases hb : c.blocks[position.toNat]? with
      | none => rfl
      | some b => exact if_pos (hnothing b hb)
    exact ⟨Except.error.inj (h.symm.trans (tamper_of_eq_none wording hflip)), hnothing⟩
  · rintro ⟨rfl, hnothing⟩
    apply tamper_of_eq_none
    cases hb : c.blocks[position.toNat]? with
    | none => rfl
    | some b => exact if_pos (hnothing b hb)

/-- No tree is refused, so what would be said about one does not matter. -/
theorem tamper_eq_tamper (c : Chain) (position : UInt64) (wording wording' : Json.Wording) :
    c.tamper wording position = c.tamper wording' position := by
  cases h : c.tamper wording' position with
  | error e => exact tamper_eq_error_iff.mpr (tamper_eq_error_iff.mp h)
  | ok c' => exact tamper_eq_ok_iff.mpr (tamper_eq_ok_iff.mp h)

end Chain

end MinedChain
