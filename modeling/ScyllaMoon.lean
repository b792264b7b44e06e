import ScyllaMoon.Mvcc.CellVersions
import ScyllaMoon.Mutation.CollectionBytes
import ScyllaMoon.Mutation.InsertExpiry
import ScyllaMoon.Mutation.Shadowable
import ScyllaMoon.Mvcc.Gc.Books
import ScyllaMoon.Mvcc.Snapshots
import ScyllaMoon.Mvcc.BackRefs
import ScyllaMoon.Mvcc.Relocation
import ScyllaMoon.Mvcc.Upgrade
import ScyllaMoon.Reader.RangesWalker
import ScyllaMoon.Request.Tags
import ScyllaMoon.Table.Switch
import ScyllaMoon.Future.ParallelForEach
import ScyllaMoon.Coordinator.Accounts
import ScyllaMoon.Coordinator.CounterReplicas
import ScyllaMoon.Coordinator.ReadAnswered
import ScyllaMoon.Mvcc.Replay
import ScyllaMoon.Occ.Atomic
import ScyllaMoon.Ycsb.TwoRounds.Order
import ScyllaMoon.Ycsb.TwoRounds.Snapshot
import ScyllaMoon.Ycsb.Moon.Serial
import ScyllaMoon.Table.Purgeable
import ScyllaMoon.Query.DigestCharges
import ScyllaMoon.Locator.Placement
import ScyllaMoon.Dht.Exponential
import ScyllaMoon.Locator.FutureOwners
import ScyllaMoon.Dht.RangeAlgebra
import ScyllaMoon.Query.ResultMerger
import ScyllaMoon.Encoding.Vint
import ScyllaMoon.Dht.ByteOrdered
