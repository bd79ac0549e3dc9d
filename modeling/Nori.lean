import Nori.Noah.Meta.SnapshotCache
import Nori.Noah.Node.Convergence
import Nori.Noah.Meta.RoundTrip
import Nori.Noah.Node.View
import Nori.Noah.Node.Drop
import Nori.Noah.Node.Persistence
import Nori.Noah.Client.Iterator
import Nori.Noah.Division
import Nori.Noah.Meta.Bookkeeping
import Nori.Braft.MixedMetaStorage
import Nori.Braft.Joint.CommitRule
import Nori.Braft.Joint.Overlap
import Nori.Braft.CommitBatch
import Nori.Braft.Closures
import Nori.Braft.Storage.Reads
import Nori.Braft.Safety
import Nori.Braft.Segment.Durability
import Nori.Braft.Segment.Crash
import Nori.Braft.Replicator.Bookkeeping
import Nori.Braft.Snapshot.Sessions
import Nori.Noah.Meta.DownNodes
import Nori.Noah.Node.Resurrection
import Nori.Braft.Lease
import Nori.Brpc.GoAway
import Nori.Brpc.Rendezvous
import Nori.Braft.Snapshot.Save
import Nori.Noah.Node.Expiry
import Nori.YiNuo.LifeGame
import Nori.Butil.FlatMap
import Nori.Base.Hmm
import Nori.Base.KMeans
