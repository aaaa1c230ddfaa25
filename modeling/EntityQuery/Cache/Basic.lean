/-! # Caches

A cache keeps what was computed for a key for a fixed time, counted from when it was stored. Reading
an entry does not lengthen its time. An entry that is too old stays until its key is computed anew,
or until it is purged. The time and the outcome of a computation come from outside: every operation
is told what the clock shows, and `get` what computing would give and when it would be done. -/

namespace EntityQuery

/-- What a clock shows, in nanoseconds from any fixed moment. A clock may be set back. -/
abbrev Instant := Int

/-- A value that was stored, and when. -/
structure Cache.Entry (α : Type) where
  value : α
  created : Instant
  deriving DecidableEq, Repr

/-- The age of an entry; an entry from the future has the age zero. -/
def Cache.Entry.age {α : Type} (e : Entry α) (now : Instant) : Nat :=
  (now - e.created).toNat

/-- An entry is fresh while its age is below the time to live. -/
def Cache.Entry.isFresh {α : Type} (e : Entry α) (now : Instant) (ttl : Nat) : Bool :=
  e.age now < ttl

/-- How often a cache was asked, and what came of it. -/
structure Cache.Stats where
  /-- A fresh entry was found. -/
  hits : UInt64
  /-- A value had to be computed. -/
  misses : UInt64
  /-- An entry was found that was too old. -/
  expirations : UInt64
  deriving DecidableEq, Repr

namespace Cache.Stats

/-- A cache that was never asked. -/
def zero : Stats := { hits := 0, misses := 0, expirations := 0 }

/-- The share of hits in all answers, in percent; zero when there are none. -/
def hitRate (s : Stats) : Float :=
  let total := s.hits + s.misses
  if total = 0 then 0.0 else s.hits.toFloat / total.toFloat * 100.0

end Cache.Stats

/-- A cache, with its entries by key. -/
structure Cache (α : Type) where
  /-- The time to live of an entry, in nanoseconds. With zero nothing is stored. -/
  ttl : Nat
  entries : List (String × Cache.Entry α)
  stats : Cache.Stats
  deriving DecidableEq, Repr

namespace Cache
variable {ε α : Type}

/-- The time to live of compiled queries unless another one is asked for: five minutes. -/
def defaultTtl : Nat := 300 * 1000000000

/-- A cache that holds nothing. -/
def empty (ttl : Nat) : Cache α :=
  { ttl, entries := [], stats := .zero }

/-- The number of entries, those that are too old among them. -/
def size (c : Cache α) : Nat :=
  c.entries.length

/-- The cache holds nothing. -/
def isEmpty (c : Cache α) : Bool :=
  c.entries.isEmpty

/-- The entry of a key, fresh or not. -/
def find? (c : Cache α) (key : String) : Option (Entry α) :=
  c.entries.lookup key

/-- The entries of all other keys. -/
def without (key : String) (entries : List (String × Entry α)) : List (String × Entry α) :=
  entries.filter (·.1 != key)

/-- Stores a value in place of what the key had before. -/
def store (c : Cache α) (key : String) (value : α) (now : Instant) : Cache α :=
  { c with entries := (key, { value, created := now }) :: without key c.entries }

/-- Counts an answer from a fresh entry. -/
def countHit (c : Cache α) : Cache α :=
  { c with stats := { c.stats with hits := c.stats.hits + 1 } }

/-- Counts a computation, and the entry found too old if there was one. -/
def countMiss (c : Cache α) (stale : Bool) : Cache α :=
  { c with stats := { c.stats with
      misses := c.stats.misses + 1
      expirations := if stale then c.stats.expirations + 1 else c.stats.expirations } }

/-- What came of computing a value, and what the clock showed afterwards. -/
structure Computed (ε α : Type) where
  outcome : Except ε α
  finished : Instant

/-- An answer, whether it was computed, and the cache afterwards. -/
structure Answer (ε α : Type) where
  result : Except ε α
  computed : Bool
  cache : Cache α

/-- The value of a key: from a fresh entry, or else computed. What was computed is stored unless it
failed or nothing lives. -/
def get (c : Cache α) (key : String) (now : Instant) (compute : Unit → Computed ε α) :
    Answer ε α :=
  match c.find? key with
  | some e =>
    if e.isFresh now c.ttl then { result := .ok e.value, computed := false, cache := c.countHit }
    else miss (c.countMiss true)
  | none => miss (c.countMiss false)
where
  /-- Computes the value of the key. -/
  miss (c : Cache α) : Answer ε α :=
    let done := compute ()
    match done.outcome with
    | .error e => { result := .error e, computed := true, cache := c }
    | .ok v =>
      { result := .ok v
        computed := true
        cache := if c.ttl = 0 then c else c.store key v done.finished }

/-- Drops all entries that are too old, and tells how many there were. -/
def purge (c : Cache α) (now : Instant) : Nat × Cache α :=
  let kept := c.entries.filter fun (_, e) => e.isFresh now c.ttl
  (c.entries.length - kept.length, { c with entries := kept })

/-- Drops the entry of a key, and tells whether there was one. -/
def invalidate (c : Cache α) (key : String) : Bool × Cache α :=
  ((c.find? key).isSome, { c with entries := without key c.entries })

/-- Drops everything and starts to count anew. -/
def clear (c : Cache α) : Cache α :=
  empty c.ttl

end Cache

end EntityQuery
