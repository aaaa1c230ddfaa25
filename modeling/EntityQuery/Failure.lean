import EntityQuery.CompileError
import EntityQuery.Settings.Basic

/-! # Failures

Whatever can fail, fails with an error of compilation or with one of the settings. -/

namespace EntityQuery

/-- An error of either kind. -/
inductive Failure
  | query (error : CompileError)
  | settings (error : SettingsError)
  deriving DecidableEq, Repr

namespace Failure

def code : Failure → String
  | .query _ => "NQL-001"
  | .settings _ => "NQL-002"

def message : Failure → String
  | .query e => "[NQL-001] Query error: " ++ e.render
  | .settings e => "[NQL-002] Configuration error: " ++ e.message

end Failure

end EntityQuery
