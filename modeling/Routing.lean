import Routing.Config.Checks
import Routing.Config.Load
import Routing.Http.Request
import Routing.Router.FromConfig
import Routing.Router.Shared
import Routing.Proofs.Pattern.Accepted
import Routing.Proofs.Pattern.Ranges
import Routing.Proofs.Router.Again
import Routing.Proofs.Router.FromConfig
import Routing.Proofs.Router.Links
import Routing.Proofs.Router.Names
import Routing.Proofs.Router.Rebuild
import Routing.Proofs.Router.Reports
import Routing.Proofs.Router.RoundTrip
import Routing.Proofs.Router.Safety
import Routing.Proofs.Router.Search
import Routing.Proofs.Router.Served
import Routing.Proofs.Router.Shape
import Routing.Proofs.Router.Shared
import Routing.Proofs.Router.Undo
import Routing.Proofs.Router.Urls
import Routing.Proofs.Config.Template
import Routing.Proofs.Router.Addresses
import Routing.Proofs.Text.Fronts
import Routing.Proofs.Trie.Preorder
import Routing.Proofs.Router.Printed
