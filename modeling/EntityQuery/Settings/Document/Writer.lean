import EntityQuery.Settings.Basic

/-! # Writing a settings document

Settings as a document that `EntityQuery.Settings.load` reads back. Whole numbers of a document have
a sign, so a time that needs all 64 bits cannot be written. -/

namespace EntityQuery

/-- A truth value as a word. -/
def writeBoolean (b : Bool) : List Char :=
  if b then "true".toList else "false".toList

/-- The section of the cache. -/
def CacheSettings.write (s : CacheSettings) : List Char :=
  "[cache]\nenabled = ".toList ++ writeBoolean s.enabled ++ "\nttl_secs = ".toList ++
    Decimal.writeNat s.ttlSeconds.toNat ++ ['\n']

/-- The document of settings. -/
def Settings.toDocument (s : Settings) : Except SettingsError String :=
  if s.cache.ttlSeconds.toNat ≤ Int64.maxValue.toInt then .ok (String.ofList s.cache.write)
  else .error .unreadable

end EntityQuery
