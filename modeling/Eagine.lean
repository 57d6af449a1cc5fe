import Eagine.Serialization.FastRoundTrip
import Eagine.Serialization.Reassembly
import Eagine.Serialization.TransactionLog
import Eagine.Serialization.DataBuffer
import Eagine.Container.TrieTraversalOrder
import Eagine.Container.TrieAtomicity
import Eagine.Sorting.NetworkSortLaws
import Eagine.Serialization.IstreamDataSource
import Eagine.Serialization.StringBackend
import Eagine.Utility.SignalLaws
import Eagine.String.SubstitutionExactness
import Eagine.ValueTree.TraversalLaws
import Eagine.ValueTree.OverlayLookup
import Eagine.ValueTree.HandleAccounting
import Eagine.Serialization.ValtreeRoundTrip
import Eagine.Logging.ProxyTransparency
import Eagine.Runtime.StreamCompressionLaws
import Eagine.LogServer.Arrival
import Eagine.ValueTree.InputStreams
import Eagine.ValueTree.StructureEvents
import Eagine.Sudoku.SolverTermination
import Eagine.Container.ObjectPoolLaws
import Eagine.Container.ChunkListArithmetic
import Eagine.Container.ChunkListGrowth
import Eagine.String.Base64
import Eagine.Serialization.OptionalRoundTrip
import Eagine.Serialization.PortableIdentifier
import Eagine.Serialization.PaddedBlocks
import Eagine.Serialization.PlainAssertions
import Eagine.Math.GaussElimination
import Eagine.Runtime.Decompression
import Eagine.Memory.EditDistance
import Eagine.Runtime.ValueWithHistory
import Eagine.Types.Limits
import Eagine.String.VariableReplacement
import Eagine.String.NumberParsing
import Eagine.ValueTree.ValueFetching
import Eagine.ValueTree.JsonAccess
import Eagine.Math.BezierCurves
import Eagine.Runtime.UrlComponent
import Eagine.Runtime.UrlArguments
import Eagine.ValueTree.StringPath
import Eagine.Utility.Scheduler
import Eagine.Utility.SlidingAverage
import Eagine.Utility.Memoized
import Eagine.Container.EquivalentKeys
import Eagine.Serialization.CoveredRanges
import Eagine.Memory.StackByteAllocator
import Eagine.LogServer.IntervalAggregation
import Eagine.Units.UnitConversion
import Eagine.Runtime.WorkshopRuns
import Eagine.Logging.AsioOutputStream
import Eagine.LogServer.AsioOutput
