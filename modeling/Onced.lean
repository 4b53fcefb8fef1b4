import Onced.Core.Lifetime
import Onced.Core.Discipline
import Onced.Core.Retention
import Onced.Core.Admission
import Onced.Core.Pow
import Onced.Core.Sketch
import Onced.Core.Cardinality
import Onced.Wal.ExactlyOnce
import Onced.Wal.Lives
import Onced.Wal.Seeding
import Onced.Wal.Provenance
import Onced.Wal.Transparency
import Onced.Wal.Pruning
import Onced.Wal.Corruption
import Onced.Wal.Bursts
import Onced.Wal.Chain
import Onced.Wal.Failover
import Onced.Wal.Untrusted
import Onced.Wal.GroupCommit
import Onced.Wal.Compaction
import Onced.Wal.Abandoned
import Onced.Gateway.OneAnswer
import Onced.Gateway.FailStop
import Onced.Gateway.Leases
import Onced.Gateway.Sharding
import Onced.Gateway.Restarts
import Onced.Gateway.RoundTrip
import Onced.Gateway.Fingerprints
import Onced.Gateway.Framing
import Onced.Gateway.Alone
import Onced.Gateway.Transport
import Onced.Uring.Serving
import Onced.Fast.Proxy
import Onced.Core.Capacity
import Onced.Foundation.Projection
import Onced.Foundation.Ends
import Onced.Foundation.Xorshift
import Onced.Gateway.Accounting
import Onced.Gateway.Exposition
import Onced.Sim.Campaign
import Onced.Core.Isolation
