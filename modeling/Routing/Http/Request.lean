import Routing.Http.Method
import Routing.Http.Target
import Routing.Router.Find

/-! Lookups for HTTP requests. -/
namespace Routing.Http

/-- What a lookup needs of a request. -/
structure Request where
  method : String
  path : String
  deriving Repr, DecidableEq

namespace Request
variable {H : Type}

/-- The request with this method and target, unless one of them is malformed. -/
def parse? (method target : String) : Option Request :=
  if isMethod method then (targetPath? target).map (⟨method, ·⟩) else none

/-- Looks a request up by its method and its path. -/
def findIn (request : Request) (r : Router H) (params : Params) : Found H :=
  r.find request.method request.path params

end Request

end Routing.Http
