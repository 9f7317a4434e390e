import MinedChain.Proofs.Calls

/-!
# Append-only history

Whatever calls are made on a chain, its blocks stay where they are, and each call that is granted puts
one block behind them. What that block holds is fixed by its request, by the old tip and by how many
requests were granted before; a call that fails leaves no trace.
-/

namespace MinedChain.Chain

/-! ## The blocks of a run -/

/-- The old blocks are followed by those that were granted. -/
theorem blocks_run (c : Chain) (qs : List Request) :
    (c.run qs).blocks = c.blocks ++ (c.granted qs).map Prod.snd := by
  induction qs generalizing c with
  | nil => exact (List.append_nil _).symm
  | cons q qs ih =>
    rw [run_cons]
    cases ha : c.answer q with
    | error e => rw [after_of_answer_eq_error ha, granted_cons_of_error ha, ih]
    | ok b =>
      rw [after_of_answer_eq_ok ha, granted_cons_of_ok ha, ih, blocks_push, List.append_assoc]
      rfl

theorem getElem?_blocks_run {c : Chain} {i : Nat} (h : i < c.length) (qs : List Request) :
    (c.run qs).blocks[i]? = c.blocks[i]? := by
  rw [blocks_run, List.getElem?_append_left h]

/-- The requests that were granted, made without the others, lead to the same chain. -/
theorem run_map_granted (c : Chain) (qs : List Request) :
    c.run ((c.granted qs).map Prod.fst) = c.run qs := by
  induction qs generalizing c with
  | nil => rfl
  | cons q qs ih =>
    rw [run_cons]
    cases ha : c.answer q with
    | error e => rw [after_of_answer_eq_error ha, granted_cons_of_error ha, ih]
    | ok b =>
      rw [granted_cons_of_ok ha, List.map_cons, run_cons, after_of_answer_eq_ok ha, ih]

/-! ## One granted block -/

/-- The index of a candidate does not wrap. -/
theorem toNat_index_candidate {c : Chain} (h : c.tip.index ≠ maxWord) (q : Request) :
    (c.candidate q).index.toNat = c.tip.index.toNat + 1 :=
  toNat_add_one (toNat_add_one_lt_of_ne_maxWord h)

/-- The time that a chain from `start` has come to once some requests have been granted. -/
def latestOf (start : UInt64) (granted : List (Request × Block)) : UInt64 :=
  (granted.map fun g => g.1.timestamp).foldl max start

/-- The block `b` that the request `q` was granted comes behind the blocks of `c` and those of the
`granted` requests, of which it is the last; `predecessor` is the block before it. -/
structure Continues (c : Chain) (granted : List (Request × Block)) (predecessor : Block) (q : Request)
    (b : Block) : Prop where
  payload : b.payload = q.payload
  index : b.index.toNat = c.tip.index.toNat + granted.length
  timestamp : b.timestamp = latestOf c.tip.timestamp granted
  previousDigest : b.previousDigest = predecessor.digest

theorem continues_of_answer_eq_ok {c : Chain} {q : Request} {b : Block} (h : c.answer q = .ok b) :
    c.Continues [(q, b)] c.tip q b := by
  obtain ⟨htip, hmined⟩ := answer_eq_ok_iff.mp h
  obtain ⟨hcontents, -, -⟩ := Contents.mined_eq_ok_iff.mp hmined
  constructor
  · rw [hcontents]
    rfl
  · rw [hcontents, toNat_index_candidate htip]
    rfl
  · rw [hcontents]
    exact max_comm_word _ _
  · rw [hcontents]
    rfl

/-- The `k`-th granted block continues the chain behind the blocks before it. -/
theorem continues_of_granted {c : Chain} {qs : List Request} {k : Nat} {q : Request} {b : Block}
    (h : (c.granted qs)[k]? = some (q, b)) :
    ∃ p, (c.run qs).blocks[c.length + k - 1]? = some p ∧
      c.Continues ((c.granted qs).take (k + 1)) p q b := by
  induction qs generalizing c k with
  | nil => exact nomatch h
  | cons q' qs ih =>
    rw [run_cons]
    cases ha : c.answer q' with
    | error e =>
      rw [granted_cons_of_error ha] at h ⊢
      rw [after_of_answer_eq_error ha]
      exact ih h
    | ok b' =>
      rw [granted_cons_of_ok ha] at h ⊢
      rw [after_of_answer_eq_ok ha]
      have hfirst := continues_of_answer_eq_ok ha
      cases k with
      | zero =>
        obtain ⟨rfl, rfl⟩ : q' = q ∧ b' = b := by simpa using h
        refine ⟨c.tip, ?_, hfirst⟩
        have hlt : c.length - 1 < c.length := Nat.sub_lt c.length_pos Nat.one_pos
        rw [Nat.add_zero, getElem?_blocks_run (by rw [length_push]; omega), blocks_push,
          List.getElem?_append_left hlt, getElem?_tip]
      | succ k =>
        -- the run goes on from a chain one block longer, whose tip is the first granted block
        obtain ⟨p, hp, hcont⟩ := ih h
        have hindex : b'.index.toNat = c.tip.index.toNat + 1 := hfirst.index
        have htimestamp : b'.timestamp = max c.tip.timestamp q'.timestamp := hfirst.timestamp
        refine ⟨p, ?_, hcont.payload, ?_, ?_, hcont.previousDigest⟩
        · rw [← hp, length_push]
          congr 1
          omega
        · rw [hcont.index, tip_push, hindex, List.take_succ_cons, List.length_cons]
          omega
        · rw [hcont.timestamp, tip_push, htimestamp]
          rfl

/-! ## What a run leaves behind -/

/-- A run of calls puts behind the old blocks one block for each call that succeeds, in the order of
the calls, with the payload asked for, the next index, the latest time asked for so far and the link to
the block before it. A call fails at a tip of the greatest index, and otherwise exactly as mining its
candidate fails; then it changes nothing, so that the run is that of its successful calls. The rules
stay. No position that is read is missing: the last one holds the tip, and each other block has one
before it. -/
theorem run_appends_only (c : Chain) (qs : List Request) :
    (c.run qs).blocks = c.blocks ++ (c.granted qs).map Prod.snd ∧
    (∀ k q b, (c.granted qs)[k]? = some (q, b) →
      b.payload = q.payload ∧
      b.index.toNat = c.tip.index.toNat + (k + 1) ∧
      b.timestamp = latestOf c.tip.timestamp ((c.granted qs).take (k + 1)) ∧
      ∃ p, (c.run qs).blocks[c.length + k - 1]? = some p ∧ b.previousDigest = p.digest) ∧
    (∀ q e, (c.run qs).answer q = .error e ↔
      ((c.run qs).tip.index = maxWord ∧ e = .indexOverflow (c.run qs).tip.index) ∨
      ((c.run qs).tip.index ≠ maxWord ∧
        ∃ m, (c.rules.mineContents ((c.run qs).candidate q)).result = .error m ∧ e = .mining m)) ∧
    (∀ q e, (c.run qs).answer q = .error e → (c.run qs).after q = c.run qs) ∧
    c.run ((c.granted qs).map Prod.fst) = c.run qs ∧
    (c.run qs).rules = c.rules ∧
    (c.run qs).blocks ≠ [] ∧
    (c.run qs).blocks[(c.run qs).length - 1]? = some (c.run qs).tip ∧
    ∀ i, i + 1 < (c.run qs).length → ∃ p, (c.run qs).blocks[i]? = some p := by
  refine ⟨c.blocks_run qs, ?_, ?_, ?_, c.run_map_granted qs, c.rules_run qs,
    (c.run qs).blocks_ne_nil, (c.run qs).getElem?_tip, ?_⟩
  · intro k q b h
    obtain ⟨p, hp, hcont⟩ := continues_of_granted h
    have hlt : k < (c.granted qs).length := (List.getElem?_eq_some_iff.mp h).1
    have hlength : ((c.granted qs).take (k + 1)).length = k + 1 := List.length_take_of_le hlt
    exact ⟨hcont.payload, by rw [hcont.index, hlength], hcont.timestamp, p, hp, hcont.previousDigest⟩
  · intro q e
    rw [answer_eq_error_iff, Rules.result_mineContents, rules_run]
  · intro q e h
    exact after_of_answer_eq_error h
  · intro i h
    exact ⟨_, List.getElem?_eq_getElem (Nat.lt_of_succ_lt h)⟩

end MinedChain.Chain
