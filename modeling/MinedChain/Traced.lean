import MinedChain.Event

/-!
# Results with events

An operation that may fail gives its result and the events of its run. Events are kept when it fails.
Running one operation after another joins their events; what a later one gives does not depend on the
events before it.
-/

namespace MinedChain

/-- A result or an error, and what happened on the way. -/
structure Traced (ε α : Type) where
  result : Except ε α
  events : List Event

namespace Traced

variable {ε ε' α β : Type}

/-- A result without events. -/
def ofResult (r : Except ε α) : Traced ε α := ⟨r, []⟩

/-- The second operation on the result of the first. -/
def bind (x : Traced ε α) (f : α → Traced ε β) : Traced ε β :=
  match x.result with
  | .error e => ⟨.error e, x.events⟩
  | .ok a => ⟨(f a).result, x.events ++ (f a).events⟩

instance : Monad (Traced ε) where
  pure a := ofResult (.ok a)
  bind := bind

/-- A single event. -/
def emit (e : Event) : Traced ε Unit := ⟨.ok (), [e]⟩

/-- The same with its error changed. -/
def mapError (f : ε → ε') (x : Traced ε α) : Traced ε' α := ⟨x.result.mapError f, x.events⟩

@[simp] theorem result_ofResult (r : Except ε α) : (ofResult r).result = r := rfl

@[simp] theorem result_pure (a : α) : (pure a : Traced ε α).result = .ok a := rfl

@[simp] theorem result_bind (x : Traced ε α) (f : α → Traced ε β) :
    (x >>= f).result = x.result >>= fun a => (f a).result := by
  show (Traced.bind x f).result = _
  unfold Traced.bind
  cases x.result <;> rfl

@[simp] theorem result_mapError (f : ε → ε') (x : Traced ε α) :
    (x.mapError f).result = x.result.mapError f := rfl

end Traced

end MinedChain
