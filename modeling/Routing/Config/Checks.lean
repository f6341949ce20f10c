import Routing.Config.Basic
import Routing.Http.Method
import Routing.Logging.Filter

/-! The readers a configuration is usually checked with: plain filter directives, and the names
of HTTP methods. -/
namespace Routing.Config.Checks

def usual : Checks where
  filterFault? filter := (Logging.filterFault? filter).map (·.message)
  isMethod := Http.isMethod

end Routing.Config.Checks
