import EntityQuery.Cache.Basic

/-! # Sessions on a clock moved by hand

A cache in front of a computation, on a clock that only moves when it is told to, or while something
is computed. The computation can be made to fail. -/

namespace EntityQuery.Cache

/-- What is computed, how long it takes, and how it fails when it is made to. -/
structure Task (ε α : Type) where
  compute : String → Except ε α
  duration : Nat
  failure : ε

/-- A cache, its clock, whether computing fails, and how often it was done. -/
structure Session (α : Type) where
  cache : Cache α
  clock : Instant
  failing : Bool
  calls : Nat

/-- What can be done in a session. -/
inductive Command
  | get (key : String)
  | advance (duration : Nat)
  | rewind (duration : Nat)
  | fail (on : Bool)
  | purge
  | invalidate (key : String)
  | clear
  | ttl

/-- What is answered in a session. -/
inductive Response (ε α : Type)
  | got (result : Except ε α)
  | count (n : Nat)
  | flag (b : Bool)
  | done

namespace Session
variable {ε α : Type}

/-- A session at the moment zero with nothing stored. -/
def start (ttl : Nat) : Session α :=
  { cache := .empty ttl, clock := 0, failing := false, calls := 0 }

/-- Carries out a command. -/
def step (task : Task ε α) (s : Session α) : Command → Response ε α × Session α
  | .get key =>
    let finished := s.clock + task.duration
    let answer := s.cache.get key s.clock fun _ =>
      { outcome := if s.failing then .error task.failure else task.compute key, finished }
    (.got answer.result,
      if answer.computed then
        { s with cache := answer.cache, clock := finished, calls := s.calls + 1 }
      else { s with cache := answer.cache })
  | .advance duration => (.done, { s with clock := s.clock + duration })
  | .rewind duration => (.done, { s with clock := s.clock - duration })
  | .fail on => (.done, { s with failing := on })
  | .purge => let (n, cache) := s.cache.purge s.clock; (.count n, { s with cache })
  | .invalidate key => let (b, cache) := s.cache.invalidate key; (.flag b, { s with cache })
  | .clear => (.done, { s with cache := s.cache.clear })
  | .ttl => (.count s.cache.ttl, s)

end Session

end EntityQuery.Cache
