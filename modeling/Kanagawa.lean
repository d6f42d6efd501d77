import Kanagawa.Search.Minimum
import Kanagawa.Lower.FifoCodeLossless
import Kanagawa.Lower.FifoSizeSafe
import Kanagawa.Frontend.MangleUnique
import Kanagawa.Generate.ReorderBuffer
import Kanagawa.Lower.LiveInSound
import Kanagawa.Optimize.EarlyOptimizationSound
import Kanagawa.Library.MultiLock
import Kanagawa.Library.Cache
import Kanagawa.Library.ShardedMap
import Kanagawa.RiscV.Pipeline
import Kanagawa.Optimize.DecomposeAddSub
import Kanagawa.Library.AccumulatingCalls
import Kanagawa.Library.CyclicBuffer
import Kanagawa.Frontend.PartialFold
import Kanagawa.Frontend.DeductionOrder
import Kanagawa.ParseTree.LayoutSound
import Kanagawa.Frontend.SkipBraces
import Kanagawa.Generate.MultiplyParameterized
import Kanagawa.Optimize.DecomposeShift
import Kanagawa.Generate.Divide
import Kanagawa.Generate.KnownOperand
import Kanagawa.Placement.SortSound
import Kanagawa.Ram.MappingSound
import Kanagawa.Optimize.MemToArraySound
import Kanagawa.Optimize.PackLutsSound
import Kanagawa.Lower.GlobalViewsRun
import Kanagawa.Lower.UnusedBitsRun
import Kanagawa.Lower.UniqueNames
import Kanagawa.Library.Divider
import Kanagawa.Lower.CompareWidth
import Kanagawa.Library.FloatToInt
import Kanagawa.Library.TransposeFifo
import Kanagawa.Library.Crc
import Kanagawa.Lower.RemoveSemaphores
import Kanagawa.Library.MultiWord
import Kanagawa.Library.TreeOperations
import Kanagawa.Search.CompressedIntegerVector
import Kanagawa.Library.PartialSort
import Kanagawa.Optimize.ReductionTrees
import Kanagawa.Library.Toeplitz
import Kanagawa.Library.Vectors
import Kanagawa.Lower.CompactRegistersSound
import Kanagawa.Lower.RegisterTranslation
