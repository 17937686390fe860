import PrimeServer.Http.Calls
import PrimeServer.Http.SizeLimit
import PrimeServer.Http.Pipelining
import PrimeServer.Http.Forwarding
import PrimeServer.Http.Splitting
import PrimeServer.Http.Boundaries
import PrimeServer.Http.RoundTrip
import PrimeServer.Http.Reasons
import PrimeServer.Http.Sections
import PrimeServer.Http.FirstDelimiter
import PrimeServer.Http.Chunks
import PrimeServer.Http.ChunkSizes
import PrimeServer.Netstring.Stream
import PrimeServer.Netstring.Grammar
import PrimeServer.Client.Rounds
import PrimeServer.Pipeline.Stage
import PrimeServer.Pipeline.Exceptions
import PrimeServer.Pipeline.Jobs
import PrimeServer.Pipeline.History
import PrimeServer.Pipeline.Shutdown
import PrimeServer.Files.Disk
import PrimeServer.Files.Dots
import PrimeServer.Discovery.Clique
import PrimeServer.Server.Sessions
import PrimeServer.Server.Requests
import PrimeServer.Server.Escape
import PrimeServer.Server.Delivery
import PrimeServer.Server.Rejection
import PrimeServer.Server.Timeouts
import PrimeServer.Server.Interrupts
import PrimeServer.Server.Order
import PrimeServer.Server.Closing
import PrimeServer.Server.Persistence
import PrimeServer.Primes.Workers
import PrimeServer.Library.Components
import PrimeServer.Server.Layout
import PrimeServer.Pipeline.Results
import PrimeServer.Service.System
import PrimeServer.Server.Responses
import PrimeServer.Service.Answers
import PrimeServer.Service.Places
import PrimeServer.Pipeline.Parts
import PrimeServer.Server.Revocation
import PrimeServer.Service.Cancellation
import PrimeServer.Primes.Service
import PrimeServer.Server.Ledger
import PrimeServer.Library.Reachability
import PrimeServer.Pipeline.Progress
import PrimeServer.Service.Progress
import PrimeServer.Discovery.Beacon
import PrimeServer.Client.Counting
import PrimeServer.Primes.Batch
import PrimeServer.Files.Service
import PrimeServer.Library.Matching
import PrimeServer.Server.Conversation
import PrimeServer.Service.Conversation
import PrimeServer.Service.Pipelining
import PrimeServer.Primes.Program
import PrimeServer.Echo.Service
import PrimeServer.Server.Settlement
import PrimeServer.Service.Settlement
