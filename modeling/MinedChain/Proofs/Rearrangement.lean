import MinedChain.Proofs.Splicing
import Mathlib.Data.Nat.Find

/-!
# The same blocks at other positions

Blocks of a valid list that are left out, doubled or exchanged, however often, show it at the first
position that does not hold its own block. The link alone does not ensure that: it looks at digests, and
nothing is assumed of the hasher. But every block of a valid list also holds the index of its position,
so at another one it fails the check of the index at the latest.
-/

namespace MinedChain

/-- The first check that a block of another position fails behind the first `j` blocks of a list. -/
def misplacement (bs : List Block) (b : Block) : Nat → ViolationKind
  | 0 => .genesisMismatch
  | i + 1 =>
    if bs[i]?.map Block.digest = some b.previousDigest then .indexMismatch else .brokenLink

namespace Rules

variable {r : Rules} {bs : List Block} {b : Block} {j : Nat}

/-- A block with a wrong index fails the check of the index at the latest. -/
theorem defect?_of_index_ne {position : UInt64} {predecessor : Option Block}
    (h : b.index ≠ position) :
    r.defect? position predecessor b =
      some ((r.linkDefect? predecessor b).getD .indexMismatch) := by
  unfold defect?
  cases r.linkDefect? predecessor b with
  | none => simp [h]
  | some kind => rfl

/-- A block of a valid list, put behind as many blocks of its front as it does not stand behind. -/
theorem Valid.defect?_misplaced {i : Nat} (h : r.Valid bs) (hlength : bs.length < 2 ^ 64)
    (hb : bs[i]? = some b) (hj : j ≤ bs.length) (hne : i ≠ j) :
    r.defect? (UInt64.ofNat j) (before? none bs j) b = some (misplacement bs b j) := by
  have hi : i < bs.length := (List.getElem?_eq_some_iff.mp hb).1
  have hindex : b.index ≠ UInt64.ofNat j := by
    rw [(h.fits hb).index]
    intro heq
    apply hne
    exact eq_of_ofNat_eq (by omega) (by omega) heq
  rw [defect?_of_index_ne hindex]
  cases j with
  | zero =>
    have hgenesis : ¬ r.IsGenesis b := fun hgenesis => hindex (isGenesis_iff.mp hgenesis).1
    simp [before?, linkDefect?, hgenesis, misplacement]
  | succ k =>
    have hk : bs[k]? = some bs[k] := List.getElem?_eq_getElem hj
    by_cases hlink : b.previousDigest = bs[k].digest
    · simp [before?, hk, linkDefect?, hlink, misplacement]
    · simp [before?, hk, linkDefect?, hlink, Ne.symm hlink, misplacement]

end Rules

/-! ## Positions -/

section

variable {α : Type} {as : List α} {positions : List (Fin as.length)} {j : Nat}

/-- As long as each position is its own, the elements at the positions are the front of the list. -/
theorem take_map_get (hj : j ≤ positions.length)
    (h : ∀ i < j, ∀ p : Fin as.length, positions[i]? = some p → p.val = i) :
    (positions.map as.get).take j = as.take j := by
  apply List.ext_getElem?
  intro i
  by_cases hi : i < j
  · have hlt : i < positions.length := Nat.lt_of_lt_of_le hi hj
    have hown : positions[i].val = i := h i hi _ (List.getElem?_eq_getElem hlt)
    have hget : some (as.get positions[i]) = as[positions[i].val]? :=
      (List.getElem?_eq_getElem positions[i].isLt).symm
    rw [List.getElem?_take_of_lt hi, List.getElem?_take_of_lt hi, List.getElem?_map,
      List.getElem?_eq_getElem hlt, Option.map_some, hget, hown]
  · rw [List.getElem?_take, List.getElem?_take, if_neg hi, if_neg hi]

/-- If all positions are their own, the elements are a front of the list. -/
theorem map_get_eq_take (h : ∀ i (p : Fin as.length), positions[i]? = some p → p.val = i) :
    positions.map as.get = as.take positions.length := by
  have htake := take_map_get (Nat.le_refl positions.length) fun i _ => h i
  rwa [List.take_of_length_le (by simp)] at htake

theorem exists_first_misplaced (h : ¬ ∀ i (p : Fin as.length), positions[i]? = some p → p.val = i) :
    ∃ j, ∃ p : Fin as.length, positions[j]? = some p ∧ p.val ≠ j ∧
      ∀ i < j, ∀ q : Fin as.length, positions[i]? = some q → q.val = i := by
  classical
  simp only [not_forall] at h
  obtain ⟨p, hp, hne⟩ := Nat.find_spec h
  refine ⟨Nat.find h, p, hp, hne, ?_⟩
  intro i hi q hq
  by_contra hother
  exact Nat.find_min h hi ⟨q, hq, hother⟩

end

namespace Rules

/-- The first block that is not in its place is reported, and nothing else is. -/
theorem Valid.firstViolation?_map_get {r : Rules} {bs : List Block} {j : Nat} (h : r.Valid bs)
    (hlength : bs.length < 2 ^ 64) {positions : List (Fin bs.length)} {p : Fin bs.length}
    (hp : positions[j]? = some p) (hne : p.val ≠ j)
    (hbefore : ∀ i < j, ∀ q : Fin bs.length, positions[i]? = some q → q.val = i) :
    r.firstViolation? 0 none (positions.map bs.get) =
      some ⟨UInt64.ofNat j, misplacement bs (bs.get p) j⟩ := by
  obtain ⟨hlt, rfl⟩ := List.getElem?_eq_some_iff.mp hp
  have hfront : (positions.map bs.get).take j = bs.take j :=
    take_map_get (Nat.le_of_lt hlt) hbefore
  have hj : j ≤ bs.length := by
    have hlengths := congrArg List.length hfront
    simp at hlengths
    omega
  have hblock : bs[positions[j].val]? = some (bs.get positions[j]) :=
    List.getElem?_eq_getElem positions[j].isLt
  have hrear : (positions.map bs.get).drop j =
      bs.get positions[j] :: (positions.map bs.get).drop (j + 1) := by
    rw [List.drop_eq_getElem_cons (by simpa using hlt), List.getElem_map]
  rw [← List.take_append_drop j (positions.map bs.get), hfront,
    h.firstViolation?_take_append hj, hrear, firstViolation?,
    h.defect?_misplaced hlength hblock hj hne]

theorem Valid.map_get_iff {r : Rules} {bs : List Block} (h : r.Valid bs)
    (hlength : bs.length < 2 ^ 64) {positions : List (Fin bs.length)} :
    r.Valid (positions.map bs.get) ↔
      ∀ j (p : Fin bs.length), positions[j]? = some p → p.val = j := by
  constructor
  · intro hpositions
    by_contra hother
    obtain ⟨j, p, hp, hne, hbefore⟩ := exists_first_misplaced hother
    exact nomatch (h.firstViolation?_map_get hlength hp hne hbefore).symm.trans hpositions
  · intro hown
    rw [map_get_eq_take hown]
    exact h.take _

end Rules

namespace Chain

/-- Blocks of a valid chain taken from any positions, any of them left out, doubled or exchanged, are
valid exactly if each stands at its own position again, which makes them a front of the chain.
Otherwise the first that does not is reported: as a wrong genesis block at the first position, and
elsewhere as a broken link, or as a wrong index where the link happens to be right. -/
theorem rearrangement_judged_at_first_misplaced {c : Chain} (hlength : c.length < 2 ^ 64)
    (hvalid : c.validate.result = .ok ()) {positions : List (Fin c.blocks.length)}
    (hne : positions ≠ []) :
    ∃ c', ofBlocks c.rules.config c.rules.hasher (positions.map c.blocks.get) = .ok c' ∧
      (c'.validate.result = .ok () ↔
        ∀ j (p : Fin c.blocks.length), positions[j]? = some p → p.val = j) ∧
      (c'.validate.result = .ok () → c'.blocks = c.blocks.take positions.length) ∧
      (∀ j (p : Fin c.blocks.length), positions[j]? = some p → p.val ≠ j →
        (∀ i < j, ∀ q : Fin c.blocks.length, positions[i]? = some q → q.val = i) →
        c'.validate.result =
          .error ⟨UInt64.ofNat j, misplacement c.blocks (c.blocks.get p) j⟩) := by
  have h : c.rules.Valid c.blocks := result_validate_eq_ok_iff.mp hvalid
  have hne' : positions.map c.blocks.get ≠ [] := by simpa using hne
  refine ⟨⟨c.rules, _, hne'⟩, ofBlocks_rules c.rules hne', ?_, ?_, ?_⟩
  · exact result_validate_eq_ok_iff.trans (h.map_get_iff hlength)
  · intro hok
    have hown := (h.map_get_iff hlength).mp (result_validate_eq_ok_iff.mp hok)
    exact map_get_eq_take hown
  · intro j p hp hne hbefore
    exact result_validate_eq_error_iff.mpr (h.firstViolation?_map_get hlength hp hne hbefore)

/-- Two blocks of one digest that are exchanged keep their links, and are reported for their index. -/
theorem exchanged_blocks_reported :
    let first : Fin (nonceTwo 2).blocks.length := ⟨1, by decide⟩
    let second : Fin (nonceTwo 2).blocks.length := ⟨2, by decide⟩
    ∃ c', ofBlocks Rules.nonceTwo.config Rules.nonceTwo.hasher
        ([⟨0, by decide⟩, second, first].map (nonceTwo 2).blocks.get) = .ok c' ∧
      c'.validate.result = .error ⟨1, .indexMismatch⟩ := by
  intro first second
  have hvalid : (nonceTwo 2).validate.result = .ok () := by rfl
  obtain ⟨c', hwrapped, -, -, hreported⟩ := rearrangement_judged_at_first_misplaced (by decide)
    hvalid (List.cons_ne_nil ⟨0, by decide⟩ [second, first])
  refine ⟨c', hwrapped, hreported 1 second rfl (by decide) ?_⟩
  intro i hi q hq
  obtain rfl : i = 0 := by omega
  exact congrArg Fin.val (Option.some.inj hq).symm

end Chain

end MinedChain
