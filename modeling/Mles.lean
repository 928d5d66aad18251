import Mles.Library.Trace
import Mles.Library.SipHash
import Mles.Types
import Mles.Auth
import Mles.Hub.Basic
import Mles.Hub.Delivery
import Mles.Hub.History
import Mles.Hub.Recording
import Mles.Hub.Order
import Mles.System.Refinement
import Mles.System.Registration
import Mles.System.Sessions
import Mles.System.Publishing
import Mles.System.Content
import Mles.System.Ordering
import Mles.System.Ownership
import Mles.System.Progress
import Mles.System.Pings
import Mles.System.Closing
import Mles.System.Lossless
import Mles.System.OneLog
import Mles.System.Bounds
import Mles.Server.Permits
import Mles.Server.Policy
import Mles.Server.Accept
import Mles.Server.Startup
import Mles.Server.Origin
import Mles.Server.Capacity
import Mles.Http.CacheBounds
import Mles.Http.Confinement
import Mles.Http.Eviction
import Mles.Http.Negotiation
import Mles.Http.Revalidation
import Mles.Http.Transparency
import Mles.Http.Redirect
import Mles.Proxy.Fallback
