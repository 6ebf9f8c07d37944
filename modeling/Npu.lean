import Npu.Lib.Bank
import Npu.Lib.Machine
import Npu.Lib.Session
import Npu.Lib.Program
import Npu.Lib.Elastic
import Npu.Lib.RingBuffer
import Npu.Lib.Lanes
import Npu.Lib.ByteMem
import Npu.MacPe
import Npu.MacPeResults
import Npu.SystolicArray
import Npu.SystolicCore
import Npu.RowPipe
import Npu.CoreRefines
import Npu.CoreState
import Npu.RowSums
import Npu.CoreRows
import Npu.ActTraffic
import Npu.CoreBounds
import Npu.Weights
import Npu.CoreLanes
import Npu.StreamCtrl
import Npu.StreamOrder
import Npu.StreamFrames
import Npu.Ctrl
import Npu.NpuUnit
import Npu.PeSequence
import Npu.CoreJob
import Npu.UnitJobs
import Npu.RowUnit
import Npu.UnitApart
import Npu.UnitFrames
import Npu.RowResults
import Npu.UnitOverlap
import Npu.UnitFlow
import Npu.UnitStatus
import Npu.UnitDrain
import Npu.Driver
import Npu.Dma
import Npu.DriverJob
import Npu.UnitRefines
import Npu.Soc
import Npu.UnitOwes
import Npu.SocRest
import Npu.SocLoad
import Npu.SocStream
import Npu.SocBatch
import Npu.Menu
import Npu.MenuPasses
import Npu.UnitCapacity
import Npu.UnitPorts
import Npu.UnitTiming
import Npu.WeightTiming
import Npu.Registers
import Npu.NiosMenu
