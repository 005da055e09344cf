import Honas.HyperloglogSpec
import Honas.Combinations
import Honas.Bloom
import Honas.HostName
import Honas.StateLayout
import Honas.Lib.Run
import Honas.Lib.FilterBank
import Honas.Aggregate
import Honas.StatePersist
import Honas.SearchDocumented
import Honas.GatherProtocol
import Honas.GatherFill
import Honas.GatherRotate
import Honas.StateRotate
import Honas.QueryBlacklist
import Honas.BloomOffsets
import Honas.BloomEntropy
import Honas.StateSelect
import Honas.HyperloglogCount
import Honas.HyperloglogBounds
import Honas.SubnetUsable
import Honas.SubnetLoad
import Honas.StateSize
import Honas.StateLoad
import Honas.GatherConfig
import Honas.GatherCount
import Honas.HostNameWrites
import Honas.DryRun
import Honas.SearchGrammar
import Honas.HashValue
import Honas.JsonPrinterString
import Honas.ConfigRead
import Honas.ByteSliceMemory
import Honas.ByteSliceMul
import Honas.BitsetStore
import Honas.Inet
import Honas.GatherLoopOrder
import Honas.Pipeline
import Honas.BlacklistSearch
import Honas.Restart
import Honas.SubnetHash
import Honas.SubnetDefinitions
