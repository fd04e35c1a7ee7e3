import Memoria.Proof.HistoryRegistry
import Memoria.Proof.TreeNext
import Memoria.Proof.TreeRemove
import Memoria.Proof.SdnRoundTrip
import Memoria.Proof.OptBuffer
import Memoria.Proof.CtrRoot
import Memoria.Proof.VleRuns
import Memoria.Proof.AllocationPool
import Memoria.Proof.RefCounters
import Memoria.Proof.PkdAllocationMap
import Memoria.Proof.LinkedTable
import Memoria.Proof.SetMap
import Memoria.Proof.LinkedDocument
import Memoria.Proof.TreeCheck
import Memoria.Proof.PackedAllocator
import Memoria.Proof.AllocationQueries
import Memoria.Proof.FseTree
import Memoria.Proof.DropCtr
import Memoria.Proof.TreeSkipBack
import Memoria.Proof.TreeIsolation
import Memoria.Proof.BitRuns
import Memoria.Proof.BitSelect
import Memoria.Proof.BigIntegerCodec
import Memoria.Proof.PackedCodecs
import Memoria.Proof.Accumulators
import Memoria.Proof.FseSearch
import Memoria.Proof.RleQueries
import Memoria.Proof.RleIterator
import Memoria.Proof.LinkedVector
import Memoria.Proof.LinkedTypeDecl
import Memoria.Proof.SdnIdentifier
import Memoria.Proof.SdnParse
import Memoria.Proof.LeafUpdate
import Memoria.Proof.MultimapDelivery
import Memoria.Proof.NodeSearch
import Memoria.Proof.PackedTools
import Memoria.Proof.ArenaBuffer
import Memoria.Proof.ArenaTags
import Memoria.Proof.TreeUpdateRuns
import Memoria.Proof.SnapshotRuns
