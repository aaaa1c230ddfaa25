import EntityQuery.Cache.Basic
import EntityQuery.Compile
import EntityQuery.Settings.Basic

/-! # Compilers with a cache

A compiler that keeps its queries for a time. A text that is absent is refused before the cache is
asked, and a text that does not compile is compiled again each time. -/

namespace EntityQuery

/-- A compiler and the cache in front of it. -/
structure CachedCompiler (α : Type) where
  compiler : String → Except CompileError α
  cache : Cache α

namespace CachedCompiler
variable {α : Type}

/-- Any compiler with an empty cache. -/
def ofCompiler (compiler : String → Except CompileError α) (ttl : Nat) : CachedCompiler α :=
  { compiler, cache := .empty ttl }

/-- The compiler of statements of either form. -/
def any (ttl : Nat) : CachedCompiler Query :=
  ofCompiler EntityQuery.compile ttl

/-- The compiler of statements that read rows. -/
def select (ttl : Nat) : CachedCompiler SelectQuery :=
  ofCompiler compileSelect ttl

/-- The compiler of statements that delete rows. -/
def delete (ttl : Nat) : CachedCompiler DeleteQuery :=
  ofCompiler compileDelete ttl

/-- The compiler of statements of either form as the settings ask. A cache that is not used keeps
nothing. -/
def ofSettings (s : Settings) : CachedCompiler Query :=
  any s.cache.effectiveTtl

/-- Compiles a text that may be absent. The clock shows `now` before and `finished` after a
compilation. -/
def compile (c : CachedCompiler α) (input : Option String) (now finished : Instant) :
    Except CompileError α × CachedCompiler α :=
  match input with
  | none => (.error .absentText, c)
  | some text =>
    let answer := c.cache.get text now fun _ => { outcome := c.compiler text, finished }
    (answer.result, { c with cache := answer.cache })

/-- Drops all queries that are too old, and tells how many there were. -/
def purge (c : CachedCompiler α) (now : Instant) : Nat × CachedCompiler α :=
  let (count, cache) := c.cache.purge now
  (count, { c with cache })

def clear (c : CachedCompiler α) : CachedCompiler α :=
  { c with cache := c.cache.clear }

end CachedCompiler

end EntityQuery
