import MinedChain.Traced

/-!
# Operations on a state

An operation may change a state while it runs. It gives a result and the events of its run, and leaves
the state as it is then: what has been changed stays changed when something fails behind it. So what a
failure leaves behind is nothing that holds by itself; it is to be proved of each operation.
-/

namespace MinedChain

/-- What an operation leaves behind, be its result a value or an error. -/
structure Aftermath (σ ε α : Type) extends Traced ε α where
  state : σ

/-- An operation that may change a state. -/
def Stateful (σ ε α : Type) : Type := σ → Aftermath σ ε α

namespace Stateful

variable {σ ε α β : Type}

/-- The second operation on the result of the first, in the state that the first leaves. -/
def bind (x : Stateful σ ε α) (f : α → Stateful σ ε β) : Stateful σ ε β := fun s =>
  match (x s).result with
  | .error e => ⟨⟨.error e, (x s).events⟩, (x s).state⟩
  | .ok a =>
    let rest := f a (x s).state
    ⟨⟨rest.result, (x s).events ++ rest.events⟩, rest.state⟩

instance : Monad (Stateful σ ε) where
  pure a := fun s => ⟨.ofResult (.ok a), s⟩
  bind := bind

/-- An operation that does not touch the state. -/
def ofTraced (x : Traced ε α) : Stateful σ ε α := fun s => ⟨x, s⟩

/-- A result without events, which does not touch the state. -/
abbrev ofResult (r : Except ε α) : Stateful σ ε α := ofTraced (.ofResult r)

/-- Gives the state. -/
def get : Stateful σ ε σ := fun s => ⟨.ofResult (.ok s), s⟩

/-- Changes the state. -/
def modify (f : σ → σ) : Stateful σ ε Unit := fun s => ⟨.ofResult (.ok ()), f s⟩

/-- The state that the operation leaves, unless it fails. -/
def stateAfter (x : Stateful σ ε α) (s : σ) : Except ε σ := (x s).result.map fun _ => (x s).state

theorem bind_of_error {x : Stateful σ ε α} {s : σ} {e : ε} (h : (x s).result = .error e)
    (f : α → Stateful σ ε β) : (x >>= f) s = ⟨⟨.error e, (x s).events⟩, (x s).state⟩ := by
  show bind x f s = _
  rw [bind, h]

theorem bind_of_ok {x : Stateful σ ε α} {s : σ} {a : α} (h : (x s).result = .ok a)
    (f : α → Stateful σ ε β) :
    (x >>= f) s = ⟨⟨(f a (x s).state).result, (x s).events ++ (f a (x s).state).events⟩,
      (f a (x s).state).state⟩ := by
  show bind x f s = _
  rw [bind, h]

theorem stateAfter_bind (x : Stateful σ ε α) (f : α → Stateful σ ε β) (s : σ) :
    (x >>= f).stateAfter s =
      match (x s).result with
      | .error e => .error e
      | .ok a => (f a).stateAfter (x s).state := by
  cases h : (x s).result with
  | error e =>
    rw [stateAfter, bind_of_error h]
    rfl
  | ok a =>
    rw [stateAfter, bind_of_ok h]
    rfl

end Stateful

end MinedChain
