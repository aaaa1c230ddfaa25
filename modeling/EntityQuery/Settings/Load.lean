import EntityQuery.Settings.Basic
import EntityQuery.Settings.Document.Reader
import EntityQuery.Settings.Variable

/-! # Loading settings

Settings come from what holds by default, from a document, and from variables of the environment;
each is laid over the one before, key by key. Only what is left in the end has to be of the right
type: no text, float or number is taken for a truth value, and no text or float for a whole number.
-/

namespace EntityQuery.Settings
open EntityQuery (Settings)

/-! ### Settings and trees -/

/-- The tree of settings. -/
def toNode (s : Settings) : Node :=
  .table [("cache", .table [("enabled", .boolean s.cache.enabled),
    ("ttl_secs", .integer s.cache.ttlSeconds.toNat)])]

/-- A truth value, or what holds by default when there is none. -/
def boolean? (byDefault : Bool) : Option Node → Except SettingsError Bool
  | none => .ok byDefault
  | some (.boolean b) => .ok b
  | some _ => .error .unreadable

/-- A whole number of 64 bits without a sign, or what holds by default when there is none. -/
def seconds? (byDefault : UInt64) : Option Node → Except SettingsError UInt64
  | none => .ok byDefault
  | some (.integer n) =>
    if 0 ≤ n ∧ n < UInt64.size then .ok (UInt64.ofNat n.toNat) else .error .unreadable
  | some _ => .error .unreadable

/-- The settings of the cache from its two parts. -/
def cacheOfParts (enabled seconds : Option Node) : Except SettingsError CacheSettings := do
  let enabled ← boolean? (default : CacheSettings).enabled enabled
  let ttlSeconds ← seconds? (default : CacheSettings).ttlSeconds seconds
  return { enabled, ttlSeconds }

/-- The settings of the cache from a tree: a table, or a list of the settings in their order. What
is missing holds by default, what is unknown or too much is passed over. -/
def cacheOfNode : Node → Except SettingsError CacheSettings
  | .table ms => cacheOfParts (ms.lookup "enabled") (ms.lookup "ttl_secs")
  | .list items => cacheOfParts items[0]? items[1]?
  | _ => .error .unreadable

/-- The settings that a tree stands for. -/
def ofNode : Node → Except SettingsError Settings
  | .table ms =>
    match ms.lookup "cache" with
    | none => .ok default
    | some node => (cacheOfNode node).map fun cache => { cache }
  | _ => .error .unreadable

/-! ### Loading -/

/-- The tree of a document, an empty one when there is no document. -/
def documentTree : Option String → Except SettingsError Node
  | none => .ok (.table [])
  | some text =>
    match Document.read text with
    | some ms => .ok (.table ms)
    | none => .error .unreadable

/-- The settings of a document, laid over what holds by default. -/
def ofDocument (text : String) : Except SettingsError Settings := do
  let document ← documentTree (some text)
  ofNode (document.over (toNode default))

/-- The settings of a document, if there is one, and of variables laid over it. -/
def load (document : Option String) (environment : List (String × String)) :
    Except SettingsError Settings := do
  let document ← documentTree document
  ofNode ((Variable.tree environment).over (document.over (toNode default)))

end EntityQuery.Settings
