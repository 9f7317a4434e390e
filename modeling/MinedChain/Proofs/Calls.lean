import MinedChain.Chain
import MinedChain.Proofs.Mining

/-!
# Calls that extend a chain

Whoever holds a chain extends it by one call after another. A call answers with the block that is the
new tip, or with the reason why there is none; either way it leaves a chain, on which the next call is
made. What one call can do is said here once, in `Chain.call_cases`, and there it is proved that a call
that fails leaves the chain as it was. All that holds of longer runs follows from it by induction over
the calls.
-/

namespace MinedChain

/-- A call that asks for one more block. -/
inductive Request where
  /-- A payload with a time of its own. -/
  | appendAt (payload : Bytes) (timestamp : UInt64)
  /-- A payload to be stamped with a clock reading, in seconds since the epoch. -/
  | append (payload : Bytes) (now : Int)

namespace Request

/-- The payload of the block asked for. -/
def payload : Request → Bytes
  | appendAt payload _ => payload
  | append payload _ => payload

/-- The time asked for. -/
def timestamp : Request → UInt64
  | appendAt _ timestamp => timestamp
  | append _ now => stampOf now

/-- Makes the call. -/
def perform : Request → Stateful Chain ChainError Block
  | appendAt payload timestamp => Chain.appendAt payload timestamp
  | append payload now => Chain.append payload now

theorem perform_eq_appendAt (q : Request) :
    q.perform = Chain.appendAt q.payload q.timestamp := by
  cases q <;> rfl

end Request

attribute [ext] Chain

namespace Chain

/-! ## Making a chain -/

theorem result_ofRules (r : Rules) :
    (ofRules r).result = (r.genesisContents.mined r.work r.hasher).map (single r) := by
  rw [ofRules, Traced.result_bind, r.result_mineContents]
  cases r.genesisContents.mined r.work r.hasher <;> rfl

theorem result_create (config : Config) (hasher : Hasher) :
    (create config hasher).result =
      match Rules.of config hasher with
      | .error e => .error (.config e)
      | .ok r => ((r.genesisContents.mined r.work r.hasher).map (single r)).mapError .mining := by
  unfold create
  cases Rules.of config hasher with
  | error e => rfl
  | ok r =>
    show (ofRules r).result.mapError ChainError.mining = _
    rw [result_ofRules]

/-- A chain on a built-in algorithm is one under the hasher of the algorithm that the settings name. -/
theorem ofConfig_of_algorithm {config : Config} {a : Algorithm} (h : config.algorithm = .ok a) :
    ofConfig config = create config a.hasher := by
  rw [ofConfig, h]

/-- A new chain is that of the mined genesis block. -/
theorem result_create_eq_ok_iff {config : Config} {hasher : Hasher} {c : Chain} :
    (create config hasher).result = .ok c ↔
      Rules.of config hasher = .ok c.rules ∧
        ∃ b, c.rules.genesisContents.mined c.rules.work c.rules.hasher = .ok b ∧
          c = single c.rules b := by
  rw [result_create]
  cases Rules.of config hasher with
  | error e => exact ⟨fun h => (nomatch h), fun h => (nomatch h.1)⟩
  | ok r =>
    dsimp only
    constructor
    · intro h
      cases hgenesis : r.genesisContents.mined r.work r.hasher with
      | error e =>
        rw [hgenesis] at h
        exact nomatch h
      | ok b =>
        rw [hgenesis] at h
        injection h with h
        rw [← h]
        exact ⟨rfl, b, hgenesis, rfl⟩
    · intro h
      obtain ⟨hrules, b, hgenesis, hc⟩ := h
      injection hrules with hrules
      simp only [hrules, hgenesis]
      exact congrArg Except.ok hc.symm

/-- Blocks from elsewhere are wrapped as they are, if there are any. -/
theorem ofBlocks_eq_ok_iff {config : Config} {hasher : Hasher} {bs : List Block} {c : Chain} :
    ofBlocks config hasher bs = .ok c ↔ Rules.of config hasher = .ok c.rules ∧ c.blocks = bs := by
  rw [ofBlocks]
  cases Rules.of config hasher with
  | error e => simp
  | ok r =>
    by_cases hbs : bs = []
    · simp only [dif_pos hbs, reduceCtorEq, false_iff, not_and]
      intro _ hblocks
      exact c.blocks_ne_nil (hblocks.trans hbs)
    · simp only [dif_neg hbs, Except.ok.injEq]
      constructor
      · intro h
        rw [← h]
        exact ⟨rfl, rfl⟩
      · intro h
        obtain ⟨hrules, hblocks⟩ := h
        exact Chain.ext hrules hblocks.symm

/-! ## Making calls -/

/-- What a call answers: the new tip, or why there is none. -/
def answer (c : Chain) (q : Request) : Except ChainError Block := (q.perform c).result

/-- The chain that a call leaves, be it granted or not. -/
def after (c : Chain) (q : Request) : Chain := (q.perform c).state

/-- The chain after calls made one after another. -/
def run (c : Chain) (qs : List Request) : Chain := qs.foldl after c

/-- What calls made one after another answer. -/
def answers (c : Chain) : List Request → List (Except ChainError Block)
  | [] => []
  | q :: qs => c.answer q :: (c.after q).answers qs

/-- The requests of a run that were granted, in order, each with the block that it was granted. -/
def granted (c : Chain) (qs : List Request) : List (Request × Block) :=
  (qs.zip (c.answers qs)).filterMap fun (q, a) => a.toOption.map (q, ·)

/-- The contents of the block that a call asks for. -/
def candidate (c : Chain) (q : Request) : Contents := c.nextContents q.payload q.timestamp

/-! ## One call -/

/-- The steps of a call: the tip is looked at, a block is mined, and only then the chain is changed. -/
theorem appendAt_eq (c : Chain) (payload : Bytes) (timestamp : UInt64) :
    appendAt payload timestamp c =
      if c.tip.index = maxWord then ⟨.ofResult (.error (.indexOverflow c.tip.index)), c⟩
      else
        let mined := c.rules.mineContents (c.nextContents payload timestamp)
        match mined.result with
        | .error e => ⟨⟨.error (.mining e), mined.events⟩, c⟩
        | .ok b => ⟨⟨.ok b, mined.events⟩, c.push b⟩ := by
  show (ite (c.tip.index = maxWord) _ _ : Stateful Chain ChainError Block) c = ite _ _ _
  by_cases htip : c.tip.index = maxWord
  · rw [if_pos htip, if_pos htip]
    rfl
  · rw [if_neg htip, if_neg htip]
    dsimp only
    generalize c.rules.mineContents (c.nextContents payload timestamp) = mined
    cases hresult : mined.result with
    | error e =>
      have hfails : (Stateful.ofTraced (mined.mapError ChainError.mining) c).result =
          .error (.mining e) := congrArg (Except.mapError _) hresult
      exact Stateful.bind_of_error hfails _
    | ok b =>
      have hgives : (Stateful.ofTraced (mined.mapError ChainError.mining) c).result = .ok b :=
        congrArg (Except.mapError _) hresult
      rw [Stateful.bind_of_ok hgives]
      show (⟨⟨.ok (c.push b).tip, mined.events ++ []⟩, c.push b⟩ : Aftermath Chain ChainError Block) = _
      rw [tip_push, List.append_nil]

/-- What a call can do: fail at a tip of the greatest index, fail as mining its candidate fails, or
push the block that mining gives. It leaves the chain alone where it fails. -/
theorem call_cases (c : Chain) (q : Request) :
    (c.tip.index = maxWord ∧ c.answer q = .error (.indexOverflow c.tip.index) ∧ c.after q = c) ∨
    (c.tip.index ≠ maxWord ∧ ∃ e, (c.candidate q).mined c.rules.work c.rules.hasher = .error e ∧
      c.answer q = .error (.mining e) ∧ c.after q = c) ∨
    (c.tip.index ≠ maxWord ∧ ∃ b, (c.candidate q).mined c.rules.work c.rules.hasher = .ok b ∧
      c.answer q = .ok b ∧ c.after q = c.push b) := by
  rw [answer, after, q.perform_eq_appendAt, appendAt_eq, candidate]
  by_cases htip : c.tip.index = maxWord
  · rw [if_pos htip]
    exact .inl ⟨htip, rfl, rfl⟩
  · rw [if_neg htip, ← Rules.result_mineContents]
    dsimp only
    cases hmined : (c.rules.mineContents (c.nextContents q.payload q.timestamp)).result with
    | error e => exact .inr (.inl ⟨htip, e, rfl, rfl, rfl⟩)
    | ok b => exact .inr (.inr ⟨htip, b, rfl, rfl, rfl⟩)

theorem after_of_answer_eq_ok {c : Chain} {q : Request} {b : Block} (h : c.answer q = .ok b) :
    c.after q = c.push b := by
  rcases c.call_cases q with ⟨-, ha, -⟩ | ⟨-, e, -, ha, -⟩ | ⟨-, b', -, ha, hafter⟩
  · exact nomatch ha.symm.trans h
  · exact nomatch ha.symm.trans h
  · obtain rfl : b' = b := by injection ha.symm.trans h
    exact hafter

theorem after_of_answer_eq_error {c : Chain} {q : Request} {e : ChainError}
    (h : c.answer q = .error e) : c.after q = c := by
  rcases c.call_cases q with ⟨-, -, hafter⟩ | ⟨-, e', -, -, hafter⟩ | ⟨-, b, -, ha, -⟩
  · exact hafter
  · exact hafter
  · exact nomatch ha.symm.trans h

/-- A granted block holds the candidate of its call, its digest is up to date, and its nonce is the
lowest. -/
theorem answer_eq_ok_iff {c : Chain} {q : Request} {b : Block} :
    c.answer q = .ok b ↔
      c.tip.index ≠ maxWord ∧ (c.candidate q).mined c.rules.work c.rules.hasher = .ok b := by
  rcases c.call_cases q with ⟨htip, ha, -⟩ | ⟨htip, e, hm, ha, -⟩ | ⟨htip, b', hm, ha, -⟩
  · rw [ha]
    exact ⟨fun h => (nomatch h), fun h => absurd htip h.1⟩
  · rw [ha, hm]
    exact ⟨fun h => (nomatch h), fun h => (nomatch h.2)⟩
  · rw [ha, hm]
    constructor
    · intro h
      injection h with h
      exact ⟨htip, h ▸ rfl⟩
    · intro h
      obtain ⟨-, h⟩ := h
      injection h with h
      rw [h]

theorem answer_eq_error_iff {c : Chain} {q : Request} {e : ChainError} :
    c.answer q = .error e ↔
      (c.tip.index = maxWord ∧ e = .indexOverflow c.tip.index) ∨
      (c.tip.index ≠ maxWord ∧ ∃ m, (c.candidate q).mined c.rules.work c.rules.hasher = .error m ∧
        e = .mining m) := by
  rcases c.call_cases q with ⟨htip, ha, -⟩ | ⟨htip, m, hm, ha, -⟩ | ⟨htip, b, hm, ha, -⟩
  · rw [ha]
    constructor
    · intro h
      injection h with h
      exact .inl ⟨htip, h.symm⟩
    · intro h
      rcases h with ⟨-, rfl⟩ | ⟨hne, -⟩
      · rfl
      · exact absurd htip hne
  · rw [ha, hm]
    constructor
    · intro h
      injection h with h
      exact .inr ⟨htip, m, rfl, h.symm⟩
    · intro h
      rcases h with ⟨heq, -⟩ | ⟨-, m', hm', rfl⟩
      · exact absurd heq htip
      · injection hm' with hm'
        rw [hm']
  · rw [ha, hm]
    constructor
    · exact fun h => nomatch h
    · intro h
      rcases h with ⟨heq, -⟩ | ⟨-, m', hm', -⟩
      · exact absurd heq htip
      · exact nomatch hm'

@[simp] theorem rules_after (c : Chain) (q : Request) : (c.after q).rules = c.rules := by
  rcases c.call_cases q with ⟨-, -, h⟩ | ⟨-, _, -, -, h⟩ | ⟨-, _, -, -, h⟩ <;> rw [h]
  rfl

/-! ## Runs -/

@[simp] theorem run_nil (c : Chain) : c.run [] = c := rfl

@[simp] theorem run_cons (c : Chain) (q : Request) (qs : List Request) :
    c.run (q :: qs) = (c.after q).run qs := rfl

theorem run_append (c : Chain) (qs qs' : List Request) : c.run (qs ++ qs') = (c.run qs).run qs' :=
  List.foldl_append

/-- Calls are answered by the chain that the calls before them leave. -/
theorem answers_append (c : Chain) (qs qs' : List Request) :
    c.answers (qs ++ qs') = c.answers qs ++ (c.run qs).answers qs' := by
  induction qs generalizing c with
  | nil => rfl
  | cons q qs ih =>
    rw [List.cons_append, answers, answers, run_cons, ih]
    rfl

@[simp] theorem length_answers (c : Chain) (qs : List Request) :
    (c.answers qs).length = qs.length := by
  induction qs generalizing c with
  | nil => rfl
  | cons q qs ih => rw [answers, List.length_cons, List.length_cons, ih]

/-- What every call preserves holds after a run. -/
theorem run_induction {P : Chain → Prop} (hstep : ∀ c q b, P c → c.answer q = .ok b → P (c.push b))
    {c : Chain} (h : P c) (qs : List Request) : P (c.run qs) := by
  induction qs generalizing c with
  | nil => exact h
  | cons q qs ih =>
    refine ih ?_
    cases ha : c.answer q with
    | error e =>
      rw [after_of_answer_eq_error ha]
      exact h
    | ok b =>
      rw [after_of_answer_eq_ok ha]
      exact hstep c q b h ha

@[simp] theorem granted_nil (c : Chain) : c.granted [] = [] := rfl

theorem granted_cons_of_ok {c : Chain} {q : Request} {b : Block} (h : c.answer q = .ok b)
    (qs : List Request) : c.granted (q :: qs) = (q, b) :: (c.push b).granted qs := by
  rw [← after_of_answer_eq_ok h, granted, answers, h]
  rfl

theorem granted_cons_of_error {c : Chain} {q : Request} {e : ChainError} (h : c.answer q = .error e)
    (qs : List Request) : c.granted (q :: qs) = c.granted qs := by
  rw [granted, answers, h, after_of_answer_eq_error h]
  rfl

@[simp] theorem rules_run (c : Chain) (qs : List Request) : (c.run qs).rules = c.rules := by
  induction qs generalizing c with
  | nil => rfl
  | cons q qs ih => rw [run_cons, ih, rules_after]

end Chain

end MinedChain
