import Ooops.Basis.Count
import Ooops.Basis.CString
import Ooops.Basis.CInt
import Ooops.Basis.Run
import Ooops.Clock
import Ooops.Params
import Ooops.Throttle
import Ooops.RateLimit
import Ooops.SharedMutex
import Ooops.SetIoParam
import Ooops.Propagation
import Ooops.Basis.Bytes
import Ooops.Basis.Memory
import Ooops.Basis.Hex
import Ooops.Trampoline
import Ooops.Relocation
import Ooops.Basis.Journal
import Ooops.HookTable
import Ooops.InstallHook
import Ooops.Basis.Linked
import Ooops.Basis.Decimal
import Ooops.Basis.Fallible
import Ooops.Basis.Double
import Ooops.Basis.Sweep
import Ooops.Dict
import Ooops.HostList
import Ooops.Packet
import Ooops.Server
import Ooops.HostRanks
import Ooops.Aggregation
import Ooops.Rounds
import Ooops.Bounds
import Ooops.Framing
import Ooops.LogRates
import Ooops.DictRuns
import Ooops.Totals
import Ooops.CounterArea
import Ooops.StampRing
import Ooops.Attach
import Ooops.WorkingDir
import Ooops.Handshake
import Ooops.CommandLine
import Ooops.ConfigAgreement
import Ooops.PatchPlacement
import Ooops.Registration
import Ooops.JumpCode
import Ooops.OriginalFunctions
import Ooops.ModuleMaps
import Ooops.SymbolLookup
import Ooops.PathAttribution
import Ooops.SleepRequests
import Ooops.GetcwdCache
import Ooops.ConfigParsing
import Ooops.ConfigSafety
import Ooops.DictImage
import Ooops.InvalidCommands
import Ooops.ChartReports
import Ooops.LogText
import Ooops.WriteAll
import Ooops.Connections
import Ooops.Basis.Lines
import Ooops.JobScript
import Ooops.JobSummary
import Ooops.SlotAccounting
import Ooops.Basis.KnownText
import Ooops.WriteFilter
import Ooops.LibraryPaths
import Ooops.ScriptLaunch
import Ooops.Basis.Mixing
import Ooops.Basis.Blocks
import Ooops.XXHash
import Ooops.XXHashStream
import Ooops.XXHashKeys
import Ooops.Basis.Drain
import Ooops.MutexProgress
import Ooops.Basis.Jump
import Ooops.Interception
import Ooops.ClusterTotals
import Ooops.HandshakeProgress
import Ooops.Transparency
import Ooops.Throughput
import Ooops.Basis.Layout
import Ooops.Basis.FloatBits
import Ooops.ParamArea
import Ooops.JobVerdict
import Ooops.JobCalls
