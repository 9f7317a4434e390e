import MinedChain.Proofs.Calls
import MinedChain.Proofs.Settings

/-!
# The choice of the search

The settings choose between the sequential search and the one over a range of nonces. A chain under
the other choice is the same chain in all that can be seen of it but that setting: it is made from the
same blocks, gives the same answer to every call, and grows by the same blocks.
-/

namespace MinedChain

/-- The settings with the search over a range chosen, or the sequential one. -/
def Config.withParallelMining (config : Config) (chosen : Bool) : Config :=
  { config with parallelMining := chosen }

/-- The rules with the other settings unchanged. -/
def Rules.withParallelMining (r : Rules) (chosen : Bool) : Rules where
  hasher := r.hasher
  config := r.config.withParallelMining chosen
  work := r.work
  accepted := r.accepted

namespace Chain

/-- The same blocks under rules that choose the search. -/
def withParallelMining (c : Chain) (chosen : Bool) : Chain where
  rules := c.rules.withParallelMining chosen
  blocks := c.blocks
  blocks_ne_nil := c.blocks_ne_nil

/-! ## Calls -/

@[simp] theorem push_withParallelMining (c : Chain) (chosen : Bool) (b : Block) :
    (c.withParallelMining chosen).push b = (c.push b).withParallelMining chosen := rfl

@[simp] theorem answer_withParallelMining (c : Chain) (chosen : Bool) (q : Request) :
    (c.withParallelMining chosen).answer q = c.answer q := by
  -- what an answer hangs on does not mention the choice
  cases h : c.answer q with
  | error e =>
    have hcause := answer_eq_error_iff.mp h
    exact answer_eq_error_iff.mpr hcause
  | ok b =>
    have hmined := answer_eq_ok_iff.mp h
    exact answer_eq_ok_iff.mpr hmined

@[simp] theorem after_withParallelMining (c : Chain) (chosen : Bool) (q : Request) :
    (c.withParallelMining chosen).after q = (c.after q).withParallelMining chosen := by
  have hanswer := c.answer_withParallelMining chosen q
  cases h : c.answer q with
  | error e => rw [after_of_answer_eq_error (hanswer.trans h), after_of_answer_eq_error h]
  | ok b =>
    rw [after_of_answer_eq_ok (hanswer.trans h), after_of_answer_eq_ok h, push_withParallelMining]

theorem answers_withParallelMining (c : Chain) (chosen : Bool) (qs : List Request) :
    (c.withParallelMining chosen).answers qs = c.answers qs := by
  induction qs generalizing c with
  | nil => rfl
  | cons q qs ih => rw [answers, answers, answer_withParallelMining, after_withParallelMining, ih]

theorem run_withParallelMining (c : Chain) (chosen : Bool) (qs : List Request) :
    (c.withParallelMining chosen).run qs = (c.run qs).withParallelMining chosen := by
  induction qs generalizing c with
  | nil => rfl
  | cons q qs ih => rw [run_cons, run_cons, after_withParallelMining, ih]

/-- What can be seen of a run: the blocks that the chain has after any number of calls, of which those
after no call are the ones it was made from, and what each call answers. -/
def transcript (c : Chain) (qs : List Request) : (Nat → List Block) × List (Except ChainError Block) :=
  (fun n => (c.run (qs.take n)).blocks, c.answers qs)

theorem transcript_withParallelMining (c : Chain) (chosen : Bool) (qs : List Request) :
    (c.withParallelMining chosen).transcript qs = c.transcript qs := by
  have hblocks : ∀ n, ((c.withParallelMining chosen).run (qs.take n)).blocks =
      (c.run (qs.take n)).blocks := by
    intro n
    rw [run_withParallelMining]
    rfl
  rw [transcript, transcript, answers_withParallelMining]
  simp only [hblocks]

end Chain

/-! ## Making a chain -/

theorem Rules.of_withParallelMining (config : Config) (hasher : Hasher) (chosen : Bool) :
    Rules.of (config.withParallelMining chosen) hasher =
      (Rules.of config hasher).map (·.withParallelMining chosen) := by
  cases h : Rules.of config hasher with
  | error e =>
    have hwork : (config.withParallelMining chosen).workFor hasher = config.workFor hasher := rfl
    exact Rules.of_eq_error_iff.mpr (hwork.trans (Rules.of_eq_error_iff.mp h))
  | ok r =>
    obtain ⟨hconfig, hhasher⟩ := Rules.of_eq_ok_iff.mp h
    refine Rules.of_eq_ok_iff.mpr ⟨?_, hhasher⟩
    rw [← hconfig]
    rfl

/-- How a chain comes about: a genesis block is mined, or blocks from elsewhere are wrapped. -/
inductive Origin where
  | mined
  | wrapped (blocks : List Block)

namespace Origin

/-- Makes a chain under settings and a hasher. -/
def make (origin : Origin) (config : Config) (hasher : Hasher) : Except ChainError Chain :=
  match origin with
  | mined => (Chain.create config hasher).result
  | wrapped blocks => Chain.ofBlocks config hasher blocks

theorem make_withParallelMining (origin : Origin) (config : Config) (hasher : Hasher)
    (chosen : Bool) :
    origin.make (config.withParallelMining chosen) hasher =
      (origin.make config hasher).map (·.withParallelMining chosen) := by
  cases origin with
  | mined =>
    rw [make, make, Chain.result_create, Chain.result_create, Rules.of_withParallelMining]
    cases Rules.of config hasher with
    | error e => rfl
    | ok r =>
      have hgenesis : (r.withParallelMining chosen).genesisContents.mined
          (r.withParallelMining chosen).work (r.withParallelMining chosen).hasher =
            r.genesisContents.mined r.work r.hasher := rfl
      simp only [Except.map, hgenesis]
      cases r.genesisContents.mined r.work r.hasher <;> rfl
  | wrapped blocks =>
    rw [make, make, Chain.ofBlocks, Chain.ofBlocks, Rules.of_withParallelMining]
    cases Rules.of config hasher with
    | error e => rfl
    | ok r =>
      by_cases hblocks : blocks = []
      · rw [hblocks]
        rfl
      · simp only [Except.map, dif_neg hblocks]
        rfl

/-- The choice of the search changes no result: whether a chain is made and from which blocks, what
each call answers, be it a block or an error with its number of attempts, and the blocks after any
number of calls. -/
theorem parallelMining_changes_nothing (origin : Origin) (config : Config) (hasher : Hasher)
    (qs : List Request) :
    (origin.make { config with parallelMining := true } hasher).map (·.transcript qs) =
      (origin.make { config with parallelMining := false } hasher).map (·.transcript qs) := by
  have hparallel := origin.make_withParallelMining config hasher true
  have hsequential := origin.make_withParallelMining config hasher false
  rw [Config.withParallelMining] at hparallel hsequential
  rw [hparallel, hsequential]
  cases origin.make config hasher with
  | error e => rfl
  | ok c =>
    show Except.ok ((c.withParallelMining true).transcript qs) =
      Except.ok ((c.withParallelMining false).transcript qs)
    rw [Chain.transcript_withParallelMining, Chain.transcript_withParallelMining]

end Origin

end MinedChain
