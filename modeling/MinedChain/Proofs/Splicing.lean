import MinedChain.Proofs.Binding
import MinedChain.Proofs.FirstViolation

/-!
# Pieces of valid lists

What the checks on a block see of the blocks before it is how many there are and the digest of the last.
So a piece of a valid list stands as well behind other blocks, if there are as many of them and they end
in the digest that the piece is linked to. If they end in another digest, the link of its first block is
all that is reported.
-/

namespace MinedChain

namespace Rules

variable {r : Rules} {as bs rest : List Block} {b p p' : Block} {i position : Nat}

/-! ## Other predecessors -/

/-- Of a predecessor, only the digest is looked at. -/
theorem firstViolation?_congr_digest (h : p.digest = p'.digest) (position : Nat)
    (rest : List Block) :
    r.firstViolation? position (some p) rest = r.firstViolation? position (some p') rest := by
  cases rest with
  | nil => rfl
  | cons b rest => simp only [firstViolation?, defect?, linkDefect?, h]

theorem firstViolation?_of_previousDigest_ne (h : b.previousDigest ≠ p.digest) (position : Nat)
    (rest : List Block) :
    r.firstViolation? position (some p) (b :: rest) =
      some ⟨UInt64.ofNat position, .brokenLink⟩ := by
  simp only [firstViolation?, defect?, linkDefect?, if_neg h]

/-- Blocks without a violation behind one predecessor have, behind another, at most the broken link of
the first of them. -/
theorem firstViolation?_behind_other (h : r.firstViolation? position (some p) rest = none)
    (p' : Block) :
    r.firstViolation? position (some p') rest =
      if rest ≠ [] ∧ p'.digest ≠ p.digest then some ⟨UInt64.ofNat position, .brokenLink⟩
      else none := by
  cases rest with
  | nil => simp [firstViolation?]
  | cons b rest =>
    by_cases hdigest : p'.digest = p.digest
    · rw [firstViolation?_congr_digest hdigest, h]
      simp [hdigest]
    · have hlink : b.previousDigest = p.digest :=
        linkDefect?_some_eq_none_iff.mp (firstViolation?_eq_none_iff.mp h 0 b rfl).link
      have hbroken : b.previousDigest ≠ p'.digest := by
        rw [hlink]
        exact Ne.symm hdigest
      rw [firstViolation?_of_previousDigest_ne hbroken]
      simp [hdigest]

/-! ## Front and rear of a valid list -/

theorem getLast?_take_or_none (hi : i ≤ bs.length) :
    (bs.take i).getLast?.or none = before? none bs i := by
  rw [Option.or_none]
  cases i with
  | zero => rfl
  | succ i =>
    rw [List.take_succ_eq_append_getElem hi, List.getLast?_concat]
    exact (List.getElem?_eq_getElem hi).symm

theorem Valid.take (h : r.Valid bs) (i : Nat) : r.Valid (bs.take i) := by
  rw [Valid, ← bs.take_append_drop i, firstViolation?_append, Option.or_eq_none_iff] at h
  exact h.1

/-- Whatever is put behind the front of a valid list is all that is judged. -/
theorem Valid.firstViolation?_take_append (h : r.Valid bs) (hi : i ≤ bs.length)
    (rest : List Block) :
    r.firstViolation? 0 none (bs.take i ++ rest) = r.firstViolation? i (before? none bs i) rest := by
  have hfront : r.firstViolation? 0 none (bs.take i) = none := h.take i
  rw [firstViolation?_append, hfront, Option.none_or, getLast?_take_or_none hi,
    List.length_take_of_le hi, Nat.zero_add]

/-- The rear of a valid list behind another block than the one before it. -/
theorem Valid.firstViolation?_drop_behind (h : r.Valid bs) (hp : bs[i]? = some p) (p' : Block) :
    r.firstViolation? (i + 1) (some p') (bs.drop (i + 1)) =
      if i + 1 < bs.length ∧ p'.digest ≠ p.digest
      then some ⟨UInt64.ofNat (i + 1), .brokenLink⟩ else none := by
  have hi : i + 1 ≤ bs.length := (List.getElem?_eq_some_iff.mp hp).1
  have hrear : r.firstViolation? (i + 1) (some p) (bs.drop (i + 1)) = none := by
    have hbefore : before? none bs (i + 1) = some p := hp
    rw [← hbefore, ← h.firstViolation?_take_append hi, List.take_append_drop]
    exact h
  rw [firstViolation?_behind_other hrear]
  simp [List.drop_eq_nil_iff]

/-- The front of one valid list with the rear of another behind it. -/
theorem Valid.firstViolation?_splice {x y : Block} (ha : r.Valid as) (hb : r.Valid bs)
    (hx : as[i]? = some x) (hy : bs[i]? = some y) (hlt : i + 1 < bs.length) :
    r.firstViolation? 0 none (as.take (i + 1) ++ bs.drop (i + 1)) =
      if x.digest = y.digest then none else some ⟨UInt64.ofNat (i + 1), .brokenLink⟩ := by
  have hi : i + 1 ≤ as.length := (List.getElem?_eq_some_iff.mp hx).1
  have hbefore : before? none as (i + 1) = some x := hx
  rw [ha.firstViolation?_take_append hi, hbefore, hb.firstViolation?_drop_behind hy]
  by_cases hdigest : x.digest = y.digest <;> simp [hdigest, hlt]

/-- The fronts of two valid lists that end in one digest are equal, or else the lists collide. -/
theorem Valid.take_eq_or_collide {x y : Block} (ha : r.Valid as) (hb : r.Valid bs)
    (hx : as[i]? = some x) (hy : bs[i]? = some y) (hdigest : x.digest = y.digest) :
    as.take (i + 1) = bs.take (i + 1) ∨ Collide r.hasher as bs := by
  have hfront : as.take (i + 1) = as.take i ++ [x] := by
    rw [List.take_add_one, hx]
    rfl
  have hfront' : bs.take (i + 1) = bs.take i ++ [y] := by
    rw [List.take_add_one, hy]
    rfl
  have hlength : (as.take i).length = (bs.take i).length := by
    have hi := (List.getElem?_eq_some_iff.mp hx).1
    have hi' := (List.getElem?_eq_some_iff.mp hy).1
    rw [List.length_take_of_le (Nat.le_of_lt hi), List.length_take_of_le (Nat.le_of_lt hi')]
  have hvalid := ha.take (i + 1)
  have hvalid' := hb.take (i + 1)
  rw [hfront] at hvalid ⊢
  rw [hfront'] at hvalid' ⊢
  rcases eq_or_collide_of_length_eq rfl hvalid hvalid' hlength hdigest with heq | hcollide
  · exact .inl heq
  · right
    rw [← hfront, ← hfront'] at hcollide
    have hwhole := hcollide.append_right (as.drop (i + 1)) (bs.drop (i + 1))
    rw [List.take_append_drop, List.take_append_drop] at hwhole
    exact hwhole

end Rules

/-! ## Wrapped lists -/

namespace Chain

/-- Any blocks can be wrapped under rules. -/
theorem ofBlocks_rules (r : Rules) {bs : List Block} (h : bs ≠ []) :
    ofBlocks r.config r.hasher bs = .ok ⟨r, bs, h⟩ :=
  ofBlocks_eq_ok_iff.mpr ⟨r.of_config_hasher, rfl⟩

/-- The first `k` blocks of a valid chain with the blocks of another from the `k`-th on behind them are
judged by their seam alone. If the two chains have one digest there, the joined chain is valid, and then
they have the same blocks up to there or show a collision of the hasher. Otherwise the seam is reported
as a broken link, and nothing else is. -/
theorem splice_judged_at_seam {a b : Chain} {k : Nat} {x y : Block}
    (hconfig : a.rules.config = b.rules.config) (hhasher : a.rules.hasher = b.rules.hasher)
    (hvalid : a.validate.result = .ok ()) (hvalid' : b.validate.result = .ok ()) (hpos : 1 ≤ k)
    (hx : a.blocks[k - 1]? = some x) (hy : b.blocks[k - 1]? = some y) (hk : k < b.length) :
    ∃ s, ofBlocks a.rules.config a.rules.hasher (a.blocks.take k ++ b.blocks.drop k) = .ok s ∧
      s.validate.result =
        (if x.digest = y.digest then .ok () else .error ⟨UInt64.ofNat k, .brokenLink⟩) ∧
      (s.validate.result = .ok () → a.blocks.take k = b.blocks.take k ∨
        ∃ v ∈ a.blocks, ∃ w ∈ b.blocks, v.encode ≠ w.encode ∧
          a.rules.hasher.digest v.encode = a.rules.hasher.digest w.encode) := by
  obtain ⟨i, rfl⟩ : ∃ i, k = i + 1 := ⟨k - 1, by omega⟩
  rw [Nat.add_sub_cancel] at hx hy
  have ha : a.rules.Valid a.blocks := result_validate_eq_ok_iff.mp hvalid
  have hb : a.rules.Valid b.blocks := by
    rw [Rules.eq_of_config_eq hconfig hhasher]
    exact result_validate_eq_ok_iff.mp hvalid'
  have hne : a.blocks.take (i + 1) ++ b.blocks.drop (i + 1) ≠ [] := by
    simp [a.blocks_ne_nil]
  have hfirst := ha.firstViolation?_splice hb hx hy hk
  refine ⟨⟨a.rules, _, hne⟩, ofBlocks_rules a.rules hne, ?_⟩
  by_cases hdigest : x.digest = y.digest
  · rw [if_pos hdigest] at hfirst ⊢
    exact ⟨result_validate_eq_ok_iff.mpr hfirst, fun _ => ha.take_eq_or_collide hb hx hy hdigest⟩
  · rw [if_neg hdigest] at hfirst ⊢
    refine ⟨result_validate_eq_error_iff.mpr hfirst, fun hok => ?_⟩
    have hjoined := result_validate_eq_ok_iff.mp hok
    exact nomatch hfirst.symm.trans hjoined

/-- Two chains that differ in one payload, joined behind it: the joined chain is valid, and they
collide. -/
theorem other_payload_spliced :
    let c := (nonceTwo 0).push { (nonceTwo 0).nextContents [1] 5 with nonce := 2, digest := .zero }
    let b := c.push { c.nextContents [] 5 with nonce := 2, digest := .zero }
    ∃ s, ofBlocks Rules.nonceTwo.config Rules.nonceTwo.hasher
        ((nonceTwo 1).blocks.take 2 ++ b.blocks.drop 2) = .ok s ∧
      s.validate.result = .ok () ∧
      ∃ v ∈ (nonceTwo 1).blocks, ∃ w ∈ b.blocks, v.encode ≠ w.encode ∧
        Rules.nonceTwo.hasher.digest v.encode = Rules.nonceTwo.hasher.digest w.encode := by
  intro c b
  have hx : (nonceTwo 1).blocks[2 - 1]? = some (nonceTwo 1).tip := rfl
  have hy : b.blocks[2 - 1]? = some c.tip := rfl
  have hvalid : (nonceTwo 1).validate.result = .ok () := by rfl
  have hvalid' : b.validate.result = .ok () := result_validate_eq_ok_iff.mpr (by decide)
  obtain ⟨s, hs, hresult, hbound⟩ := splice_judged_at_seam (a := nonceTwo 1) (b := b) rfl rfl
    hvalid hvalid' (by decide) hx hy (by decide)
  have hok : s.validate.result = .ok () := hresult
  exact ⟨s, hs, hok, (hbound hok).resolve_left (by decide)⟩

end Chain

end MinedChain
