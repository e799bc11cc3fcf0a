import QueryPlan.Settings
import QueryPlan.Yaml.Source

namespace QueryPlan

/-- The settings of a file, as its text or the reason why there is none. -/
def Settings.ofFile (contents : Except String String) : Except SettingsError Settings := do
  let text ← contents.mapError .unreadable
  match Yaml.Node.parse? text >>= Settings.read? with
  | none => throw (.malformed text)
  | some s => s.validate

end QueryPlan
