import MinedChain.Block
import MinedChain.Proofs.Numerals

/-!
# What an encoding holds

The canonical encoding writes words and the previous digest at their fixed widths, and the payload
behind its length. So it can be read back from its front: it determines the contents and the nonce, and
where it ends. The length is written as a word and is that of the payload only below `2 ^ 64` octets,
which is the one condition here. It is not needed where the end is known already. Apart from the length,
which must be right, an encoding may hold any octets.
-/

namespace MinedChain

namespace Bytes

theorem ofWord_injective {w u : UInt64} (h : ofWord w = ofWord u) : w = u := by
  rw [← UInt64.toNat_inj, ← toNat_ofWord, ← toNat_ofWord, h]

/-- A word can be cut off the front of what it was written before. -/
theorem ofWord_append_inj {w u : UInt64} {bs cs : Bytes} (h : ofWord w ++ bs = ofWord u ++ cs) :
    w = u ∧ bs = cs := by
  obtain ⟨hword, hrest⟩ := List.append_inj h ((length_ofWord w).trans (length_ofWord u).symm)
  exact ⟨ofWord_injective hword, hrest⟩

end Bytes

attribute [ext] Digest Contents

namespace Contents

/-- The third word of what begins with an encoding is the length of the payload. -/
theorem take_drop_encode_append (c : Contents) (nonce : UInt64) (bs : Bytes) :
    ((c.encode nonce ++ bs).drop 16).take 8 = Bytes.ofWord (UInt64.ofNat c.payload.length) := rfl

theorem toNat_take_drop_encode_append {c : Contents} (hc : c.payload.length < 2 ^ 64) (nonce : UInt64)
    (bs : Bytes) :
    Bytes.toNat (((c.encode nonce ++ bs).drop 16).take 8) = c.payload.length := by
  rw [take_drop_encode_append, Bytes.toNat_ofWord, UInt64.toNat_ofNat_of_lt' hc]

/-- Encodings of payloads of one length can be cut off the front of what they were written before. -/
theorem encode_append_inj_of_length_eq {c d : Contents} {m n : UInt64} {bs cs : Bytes}
    (hlength : c.payload.length = d.payload.length) (h : c.encode m ++ bs = d.encode n ++ cs) :
    c = d ∧ m = n ∧ bs = cs := by
  unfold encode at h
  simp only [List.append_assoc] at h
  obtain ⟨hindex, h⟩ := Bytes.ofWord_append_inj h
  obtain ⟨htimestamp, h⟩ := Bytes.ofWord_append_inj h
  obtain ⟨-, h⟩ := Bytes.ofWord_append_inj h
  obtain ⟨hpayload, h⟩ := List.append_inj h hlength
  obtain ⟨hprevious, h⟩ :=
    List.append_inj h (c.previousDigest.length_bytes.trans d.previousDigest.length_bytes.symm)
  obtain ⟨hnonce, hrest⟩ := Bytes.ofWord_append_inj h
  exact ⟨Contents.ext hindex htimestamp hpayload (Digest.ext hprevious), hnonce, hrest⟩

/-- An encoding can be cut off the front of what it was written before. -/
theorem encode_append_inj {c d : Contents} {m n : UInt64} {bs cs : Bytes}
    (hc : c.payload.length < 2 ^ 64) (hd : d.payload.length < 2 ^ 64)
    (h : c.encode m ++ bs = d.encode n ++ cs) : c = d ∧ m = n ∧ bs = cs := by
  -- below `2 ^ 64` octets, the written length is the length
  have hlength : c.payload.length = d.payload.length := by
    rw [← toNat_take_drop_encode_append hc m bs, ← toNat_take_drop_encode_append hd n cs, h]
  exact encode_append_inj_of_length_eq hlength h

/-- Equal encodings are of one length, and then so are the payloads, whatever lengths are written. -/
theorem encode_inj {c d : Contents} {m n : UInt64} (h : c.encode m = d.encode n) : c = d ∧ m = n := by
  have hlength : c.payload.length = d.payload.length := by
    have htotal := congrArg List.length h
    rw [length_encode, length_encode] at htotal
    omega
  have happend : c.encode m ++ [] = d.encode n ++ [] := by rw [h]
  obtain ⟨hcontents, hnonce, -⟩ := encode_append_inj_of_length_eq hlength happend
  exact ⟨hcontents, hnonce⟩

/-! ## Which strings are encodings -/

/-- Behind the length may stand any octets that are forty more than it says: the last forty are a
previous digest and a nonce. -/
theorem exists_eq_payload_append {bs : Bytes} {size : Nat} (h : bs.length = size + 40) :
    ∃ payload previousDigest nonce, List.length payload = size ∧
      bs = payload ++ (Digest.bytes previousDigest ++ Bytes.ofWord nonce) := by
  have hprevious : ((bs.drop size).take 32).length = digestSize := by
    simp [h, digestSize]
  have hnonce : ((bs.drop size).drop 32).length = 8 := by
    simp [h]
  refine ⟨bs.take size, ⟨_, hprevious⟩, UInt64.ofNat (Bytes.toNat ((bs.drop size).drop 32)), ?_, ?_⟩
  · simp [h]
  · rw [Bytes.ofWord_ofNat_toNat hnonce, List.take_append_drop, List.take_append_drop]

/-- A string whose third word is the number of its octets beyond sixty-four is an encoding. -/
theorem exists_encode_eq_of_length_eq {w : Bytes} (hlength : 64 ≤ w.length)
    (hword : Bytes.toNat ((w.drop 16).take 8) = w.length - 64) :
    ∃ c : Contents, ∃ nonce, c.payload.length < 2 ^ 64 ∧ c.encode nonce = w := by
  have hfirst : 8 ≤ w.length := by omega
  have hsecond : 8 ≤ (w.drop 8).length := by simp; omega
  have hthird : 8 ≤ (w.drop 16).length := by simp; omega
  obtain ⟨index, hindex⟩ := Bytes.exists_eq_ofWord_append hfirst
  obtain ⟨timestamp, htimestamp⟩ := Bytes.exists_eq_ofWord_append hsecond
  obtain ⟨size, hsize⟩ := Bytes.exists_eq_ofWord_append hthird
  rw [List.drop_drop] at htimestamp hsize
  rw [hsize, List.take_left' (Bytes.length_ofWord size), Bytes.toNat_ofWord] at hword
  -- what is left behind the three words is as long as the third one says
  have hbehind : (w.drop 24).length = size.toNat + 40 := by simp; omega
  obtain ⟨payload, previousDigest, nonce, hpayload, hrest⟩ := exists_eq_payload_append hbehind
  refine ⟨⟨index, timestamp, payload, previousDigest⟩, nonce, ?_, ?_⟩
  · show payload.length < 2 ^ 64
    rw [hpayload]
    exact size.toNat_lt
  · unfold encode
    rw [hpayload, UInt64.ofNat_toNat, ← hrest, ← hsize, ← htimestamp, ← hindex]

/-- An encoding ends where its own length says: what follows it can be cut off, and contents and nonce
read back, so that no encoding begins another. A string is an encoding exactly if it has at least
sixty-four octets and its third word is the number of the others. -/
theorem encode_self_delimiting :
    (∀ (c d : Contents) (m n : UInt64) (x y : Bytes),
      c.payload.length < 2 ^ 64 → d.payload.length < 2 ^ 64 →
      c.encode m ++ x = d.encode n ++ y → c = d ∧ m = n ∧ x = y) ∧
    (∀ w : Bytes, (∃ c : Contents, ∃ nonce, c.payload.length < 2 ^ 64 ∧ c.encode nonce = w) ↔
      64 ≤ w.length ∧ Bytes.toNat ((w.drop 16).take 8) = w.length - 64) := by
  constructor
  · intro c d m n x y hc hd h
    exact encode_append_inj hc hd h
  · intro w
    constructor
    · rintro ⟨c, nonce, hc, rfl⟩
      have hword := toNat_take_drop_encode_append hc nonce []
      rw [List.append_nil] at hword
      rw [hword, length_encode]
      omega
    · rintro ⟨hlength, hword⟩
      exact exists_encode_eq_of_length_eq hlength hword

/-- A payload that is itself an encoding, cut out of a longer string by the length before it, is the one
that was written. -/
theorem nested_encoding_cut_out :
    let inner := encode ⟨1, 0, [], .zero⟩ 2
    let w := encode ⟨3, 5, inner, .zero⟩ 7 ++ [9]
    let c : Contents := ⟨3, 5, (w.drop 24).take (Bytes.toNat ((w.drop 16).take 8)), .zero⟩
    c.encode 7 ++ [9] = w ∧ c = ⟨3, 5, inner, .zero⟩ := by
  intro inner w c
  have h : c.encode 7 ++ [9] = encode ⟨3, 5, inner, .zero⟩ 7 ++ [9] := by decide
  exact ⟨h, (encode_self_delimiting.1 c _ 7 7 [9] [9] (by decide) (by decide) h).1⟩

/-! ## A hasher of the last word -/

/-- The last word of an encoding is the nonce. -/
theorem ofWord_suffix_encode_iff {c : Contents} {word nonce : UInt64} :
    Bytes.ofWord word <:+ c.encode nonce ↔ nonce = word := by
  unfold encode
  simp only [← List.append_assoc]
  constructor
  · intro h
    obtain ⟨front, h⟩ := h
    obtain ⟨-, hword⟩ :=
      List.append_inj' h ((Bytes.length_ofWord word).trans (Bytes.length_ofWord nonce).symm)
    exact (Bytes.ofWord_injective hword).symm
  · intro h
    subst h
    exact List.suffix_append _ _

/-- Under a hasher of the last word, contents have one digest for one nonce and another for the rest. -/
theorem digestWith_onSuffix (c : Contents) (word : UInt64) (hit miss : Digest) (nonce : UInt64) :
    c.digestWith (.onSuffix word hit miss) nonce = if nonce = word then hit else miss := by
  show (if Bytes.ofWord word <:+ c.encode nonce then hit else miss) = _
  simp only [ofWord_suffix_encode_iff]

end Contents

end MinedChain
