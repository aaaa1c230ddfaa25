import EntityQuery.Cache.Basic

/-! # Runs of a cache

A run is a list of operations, each with what the clock shows; a `get` carries the outcome that its
computation would have, whether it is needed or not. -/

namespace EntityQuery.Cache
variable {ε α : Type}

/-- An operation on a cache. -/
inductive Op (ε α : Type)
  | get (key : String) (now : Instant) (computed : Computed ε α)
  | purge (now : Instant)
  | invalidate (key : String)
  | clear

/-- What an operation answers. -/
inductive Reply (ε α : Type)
  | got (result : Except ε α) (computed : Bool)
  | purged (count : Nat)
  | invalidated (present : Bool)
  | cleared

/-- Carries out an operation. -/
def step (c : Cache α) : Op ε α → Reply ε α × Cache α
  | .get key now computed =>
    let answer := c.get key now fun _ => computed
    (.got answer.result answer.computed, answer.cache)
  | .purge now => let (count, c) := c.purge now; (.purged count, c)
  | .invalidate key => let (present, c) := c.invalidate key; (.invalidated present, c)
  | .clear => (.cleared, c.clear)

/-- Carries out operations one after the other. -/
def run (c : Cache α) : List (Op ε α) → List (Reply ε α) × Cache α
  | [] => ([], c)
  | op :: ops =>
    let (reply, c) := c.step op
    let (replies, c) := c.run ops
    (reply :: replies, c)

end EntityQuery.Cache
