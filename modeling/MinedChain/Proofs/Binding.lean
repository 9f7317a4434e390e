import MinedChain.Proofs.Encoding
import MinedChain.Proofs.Verdict
import Mathlib.Data.List.Induction

/-!
# What a tip digest binds

Nothing is assumed of a hasher, so two valid chains may share a tip digest and differ. But then the
chains themselves show two different encodings of one digest: going back from the tips, the blocks stay
equal until the encodings differ. That they differ at all is what the five checks are for. In
particular two chains of different lengths differ in the index of their tips.
-/

namespace MinedChain

/-- A block of the one list and a block of the other have different encodings with one digest. -/
def Collide (hasher : Hasher) (bs bs' : List Block) : Prop :=
  ∃ x ∈ bs, ∃ y ∈ bs', x.encode ≠ y.encode ∧ hasher.digest x.encode = hasher.digest y.encode

theorem Collide.append_right {hasher : Hasher} {bs bs' : List Block} (h : Collide hasher bs bs')
    (cs cs' : List Block) : Collide hasher (bs ++ cs) (bs' ++ cs') := by
  obtain ⟨x, hx, y, hy, hcollision⟩ := h
  exact ⟨x, List.mem_append_left cs hx, y, List.mem_append_left cs' hy, hcollision⟩

theorem Block.eq_of_toContents_eq {b b' : Block} (hcontents : b.toContents = b'.toContents)
    (hnonce : b.nonce = b'.nonce) (hdigest : b.digest = b'.digest) : b = b' := by
  cases b
  cases b'
  rw [Block.mk.injEq]
  exact ⟨hcontents, hnonce, hdigest⟩

/-- Blocks with digests that are up to date are equal if these are, or else they are a collision. -/
theorem Block.eq_or_collision_of_digest_eq {hasher : Hasher} {b b' : Block}
    (hb : b.computeDigest hasher = b.digest) (hb' : b'.computeDigest hasher = b'.digest)
    (h : b.digest = b'.digest) :
    b = b' ∨ b.encode ≠ b'.encode ∧ hasher.digest b.encode = hasher.digest b'.encode := by
  by_cases hencode : b.encode = b'.encode
  · obtain ⟨hcontents, hnonce⟩ := Contents.encode_inj hencode
    exact .inl (Block.eq_of_toContents_eq hcontents hnonce h)
  · right
    exact ⟨hencode, hb.trans (h.trans hb'.symm)⟩

/-- The positions in the list and the lengths of the payloads are words. -/
structure WordSized (bs : List Block) : Prop where
  length : bs.length < 2 ^ 64
  payload : ∀ b ∈ bs, b.payload.length < 2 ^ 64

theorem WordSized.of_append {bs cs : List Block} (h : WordSized (bs ++ cs)) : WordSized bs := by
  have hlength := h.length
  rw [List.length_append] at hlength
  refine ⟨by omega, ?_⟩
  intro b hb
  exact h.payload b (List.mem_append_left _ hb)

namespace Rules.Valid

variable {r r' : Rules} {bs bs' : List Block} {b b' : Block}

/-- The tips of valid lists are equal if their digests are, or else they are a collision. -/
theorem tip_eq_or_collide (hhasher : r.hasher = r'.hasher) (h : r.Valid (bs ++ [b]))
    (h' : r'.Valid (bs' ++ [b'])) (hdigest : b.digest = b'.digest) :
    b = b' ∨ Collide r.hasher (bs ++ [b]) (bs' ++ [b']) := by
  obtain ⟨-, hfits⟩ := valid_concat_iff.mp h
  obtain ⟨-, hfits'⟩ := valid_concat_iff.mp h'
  have hb' : b'.computeDigest r.hasher = b'.digest := by
    rw [hhasher]
    exact hfits'.digest
  rcases Block.eq_or_collision_of_digest_eq hfits.digest hb' hdigest with heq | hcollision
  · exact .inl heq
  · exact .inr ⟨b, List.mem_concat_self, b', List.mem_concat_self, hcollision⟩

/-- Valid lists with one block as their tips are of one length. -/
theorem length_eq_of_tip_eq (h : r.Valid (bs ++ [b])) (h' : r'.Valid (bs' ++ [b']))
    (hsize : bs.length < 2 ^ 64) (hsize' : bs'.length < 2 ^ 64) (heq : b = b') :
    bs.length = bs'.length := by
  -- a position that is a word is what the index says
  apply eq_of_ofNat_eq hsize hsize'
  rw [← h.index_getLast, ← h'.index_getLast, heq]

/-- The block before the last of a valid list has the digest that the last one is linked to. -/
theorem previousDigest_eq {p : Block} (h : r.Valid (bs ++ [p] ++ [b])) :
    b.previousDigest = p.digest := by
  obtain ⟨-, hfits⟩ := valid_concat_iff.mp h
  have hlink := hfits.link
  rw [List.getLast?_concat] at hlink
  exact linkDefect?_some_eq_none_iff.mp hlink

/-- Valid lists of one length with tips of one digest are equal, or else they collide. -/
theorem eq_or_collide_of_length_eq (hhasher : r.hasher = r'.hasher) (h : r.Valid (bs ++ [b]))
    (h' : r'.Valid (bs' ++ [b'])) (hlength : bs.length = bs'.length)
    (hdigest : b.digest = b'.digest) :
    bs ++ [b] = bs' ++ [b'] ∨ Collide r.hasher (bs ++ [b]) (bs' ++ [b']) := by
  -- from the tips backwards: what is equal in two blocks includes their links
  induction bs using List.reverseRecOn generalizing b bs' b' with
  | nil =>
    rcases tip_eq_or_collide hhasher h h' hdigest with heq | hcollide
    · left
      rw [heq, List.eq_nil_of_length_eq_zero hlength.symm]
    · exact .inr hcollide
  | append_singleton bs p ih =>
    rcases tip_eq_or_collide hhasher h h' hdigest with heq | hcollide
    · cases bs' using List.reverseRecOn with
      | nil => simp at hlength
      | append_singleton bs' p' =>
        have hfront : bs.length = bs'.length := by simpa using hlength
        have hlink : p.digest = p'.digest := by
          rw [← h.previousDigest_eq, ← h'.previousDigest_eq, heq]
        have hvalid := (valid_concat_iff.mp h).1
        have hvalid' := (valid_concat_iff.mp h').1
        rcases ih hvalid hvalid' hfront hlink with hblocks | hcollide
        · left
          rw [hblocks, heq]
        · exact .inr (hcollide.append_right [b] [b'])
    · exact .inr hcollide

/-- Valid lists with tips of one digest are equal, or else they collide. -/
theorem eq_or_collide (hhasher : r.hasher = r'.hasher) (h : r.Valid (bs ++ [b]))
    (h' : r'.Valid (bs' ++ [b'])) (hsize : WordSized (bs ++ [b])) (hsize' : WordSized (bs' ++ [b']))
    (hdigest : b.digest = b'.digest) :
    bs ++ [b] = bs' ++ [b'] ∨ Collide r.hasher (bs ++ [b]) (bs' ++ [b']) := by
  rcases tip_eq_or_collide hhasher h h' hdigest with heq | hcollide
  · have hlength := length_eq_of_tip_eq h h' hsize.of_append.length hsize'.of_append.length heq
    exact eq_or_collide_of_length_eq hhasher h h' hlength hdigest
  · exact .inr hcollide

end Rules.Valid

namespace Chain

/-- Two valid chains with tips of one digest, under one hasher and whatever settings, have the same
blocks, or else a block of the one and a block of the other show a collision of the hasher. -/
theorem tip_digest_binds_blocks {c c' : Chain} (hhasher : c.rules.hasher = c'.rules.hasher)
    (hlength : c.length < 2 ^ 64) (hlength' : c'.length < 2 ^ 64)
    (hpayload : ∀ x ∈ c.blocks, x.payload.length < 2 ^ 64)
    (hpayload' : ∀ y ∈ c'.blocks, y.payload.length < 2 ^ 64)
    (hvalid : c.validate.result = .ok ()) (hvalid' : c'.validate.result = .ok ())
    (hdigest : c.tip.digest = c'.tip.digest) :
    c.blocks = c'.blocks ∨
      ∃ x ∈ c.blocks, ∃ y ∈ c'.blocks,
        x.encode ≠ y.encode ∧ c.rules.hasher.digest x.encode = c.rules.hasher.digest y.encode := by
  have h := result_validate_eq_ok_iff.mp hvalid
  have h' := result_validate_eq_ok_iff.mp hvalid'
  have hsize : WordSized c.blocks := ⟨hlength, hpayload⟩
  have hsize' : WordSized c'.blocks := ⟨hlength', hpayload'⟩
  rw [← c.dropLast_concat_tip] at h hsize ⊢
  rw [← c'.dropLast_concat_tip] at h' hsize' ⊢
  exact h.eq_or_collide hhasher h' hsize hsize' hdigest

/-- Two chains of different lengths share the digest zero of their tips, and they collide. -/
theorem nonceTwo_collide :
    (nonceTwo 0).tip.digest = (nonceTwo 1).tip.digest ∧
    ∃ x ∈ (nonceTwo 0).blocks, ∃ y ∈ (nonceTwo 1).blocks,
      x.encode ≠ y.encode ∧
        (nonceTwo 0).rules.hasher.digest x.encode = (nonceTwo 0).rules.hasher.digest y.encode := by
  have hhasher : (nonceTwo 0).rules.hasher = (nonceTwo 1).rules.hasher := rfl
  have hvalid : (nonceTwo 0).validate.result = .ok () := by rfl
  have hvalid' : (nonceTwo 1).validate.result = .ok () := by rfl
  have hdigest : (nonceTwo 0).tip.digest = (nonceTwo 1).tip.digest := rfl
  have hne : (nonceTwo 0).blocks ≠ (nonceTwo 1).blocks := by decide
  have hbound := tip_digest_binds_blocks hhasher (by decide) (by decide) (by decide) (by decide)
    hvalid hvalid' hdigest
  exact ⟨hdigest, hbound.resolve_left hne⟩

end Chain

end MinedChain

