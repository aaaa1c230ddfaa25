import EntityQuery.Decimal.Whole

/-! # Settings

The settings of the compilation cache: whether it is used, and for how many seconds a compiled query
is kept. A cache that is not used keeps nothing, which is a time of zero. -/

namespace EntityQuery

structure CacheSettings where
  enabled : Bool
  ttlSeconds : UInt64
  deriving DecidableEq, Repr

structure Settings where
  cache : CacheSettings
  deriving DecidableEq, Repr

/-- The cache is used, for five minutes. -/
instance : Inhabited CacheSettings := ⟨{ enabled := true, ttlSeconds := 300 }⟩

/-- What holds where nothing is set. -/
instance : Inhabited Settings := ⟨{ cache := default }⟩

/-- The number of nanoseconds for which a query is kept, zero when the cache is not used. -/
def CacheSettings.effectiveTtl (s : CacheSettings) : Nat :=
  if s.enabled then s.ttlSeconds.toNat * 1000000000 else 0

/-- What can be wrong with settings. -/
inductive SettingsError
  /-- A source does not have its form, or a setting is of the wrong type. -/
  | unreadable
  /-- The time to keep a query is out of range. -/
  | ttlOutOfRange (seconds : UInt64)
  deriving DecidableEq, Repr

/-- The longest time to keep a query, in seconds: one day. -/
def greatestTtlSeconds : UInt64 := 86400

namespace SettingsError

/-- The path of the setting that is wrong. -/
def key : SettingsError → Option String
  | .unreadable => none
  | .ttlOutOfRange _ => some "cache.ttl_secs"

/-- Why a setting is wrong. -/
def reason : SettingsError → Option String
  | .unreadable => none
  | .ttlOutOfRange seconds =>
    some ("value " ++ String.ofList (Decimal.writeNat seconds.toNat) ++ " is out of range [1, " ++
      String.ofList (Decimal.writeNat greatestTtlSeconds.toNat) ++ "]")

def message (e : SettingsError) : String :=
  match e.key, e.reason with
  | some key, some reason => "Invalid configuration value for '" ++ key ++ "': " ++ reason
  | _, _ => "Failed to parse configuration"

end SettingsError

/-- Settings are valid when a query is kept for at least one second and at most one day. -/
def Settings.validate (s : Settings) : Except SettingsError Unit :=
  if s.cache.ttlSeconds = 0 ∨ greatestTtlSeconds < s.cache.ttlSeconds then
    .error (.ttlOutOfRange s.cache.ttlSeconds)
  else .ok ()

end EntityQuery
