import EntityQuery.Json.Record
import EntityQuery.Settings.Basic

/-! # Settings in JSON

The JSON form of settings, and reading it back. A record may lack any of its fields, also at the end
of an array; what is missing holds by default. -/

namespace EntityQuery

/-- The JSON form of the settings of the cache. -/
def CacheSettings.toJson (s : CacheSettings) : Json :=
  .object [("enabled", .boolean s.enabled), ("ttl_secs", .ofInt s.ttlSeconds.toNat)]

def Settings.toJson (s : Settings) : Json :=
  .object [("cache", s.cache.toJson)]

/-- A field that holds by default when it is missing. -/
def fieldOr {α : Type} (byDefault : α) (read : Json → Option α) : Option Json → Option α
  | none => some byDefault
  | some j => read j

/-- The settings of the cache that a JSON value stands for. -/
def CacheSettings.ofJson? (j : Json) : Option CacheSettings :=
  match j.fields? true ["enabled", "ttl_secs"] with
  | some [enabled, seconds] => do
    let enabled ← fieldOr (default : CacheSettings).enabled Json.boolean? enabled
    let ttlSeconds ← fieldOr (default : CacheSettings).ttlSeconds Json.uint64? seconds
    some { enabled, ttlSeconds }
  | _ => none

def Settings.ofJson? (j : Json) : Option Settings :=
  match j.fields? true ["cache"] with
  | some [cache] => (fieldOr default CacheSettings.ofJson? cache).map fun cache => { cache }
  | _ => none

end EntityQuery
