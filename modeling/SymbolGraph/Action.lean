/-!
# Actions

Actions that read and change a state and may fail.  A failed action leaves the state as it was when
it failed.  The combinators here run an action on a part of the state, look at how an action ended,
and tidy up after one that may have failed.
-/

namespace SymbolGraph.Action

variable {ε σ τ α : Type}

/-- Run an action on a part of the state. -/
def onPart (part : σ → τ) (replace : τ → σ → σ) (act : EStateM ε τ α) : EStateM ε σ α := fun s =>
  match act (part s) with
  | .ok a t    => .ok a (replace t s)
  | .error e t => .error e (replace t s)

/-- Run an action that cannot fail on a part of the state. -/
def onPartSafely (part : σ → τ) (replace : τ → σ → σ) (act : StateM τ α) : EStateM ε σ α := fun s =>
  let (a, t) := act (part s)
  .ok a (replace t s)

/-- The result of a computation without state. -/
def ofExcept : Except ε α → EStateM ε σ α
  | .ok a    => pure a
  | .error e => throw e

/-- Run an action and say how it ended. -/
def attempt (act : EStateM ε σ α) : EStateM ε σ (Except ε α) := fun s =>
  match act s with
  | .ok a s    => .ok (.ok a) s
  | .error e s => .ok (.error e) s

/-- Run an action; when it fails, tidy up and fail all the same. -/
def onFailure (act : EStateM ε σ α) (tidy : EStateM ε σ Unit) : EStateM ε σ α := do
  match ← attempt act with
  | .ok a    => return a
  | .error e => do
      tidy
      throw e

/-- Run an action and then, however it ended, another.  The first failure is the one reported. -/
def andThen (act last : EStateM ε σ Unit) : EStateM ε σ Unit := do
  let first ← attempt act
  let second ← attempt last
  ofExcept first
  ofExcept second

end SymbolGraph.Action
