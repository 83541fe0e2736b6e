import OpenPowerMac.Cpu
import OpenPowerMac.Clock
import OpenPowerMac.Pace
import OpenPowerMac.Cache
import OpenPowerMac.Hierarchy
import OpenPowerMac.Block
import OpenPowerMac.CacheLevels
import OpenPowerMac.CacheMoves
import OpenPowerMac.CacheOps
import OpenPowerMac.Snoop
import OpenPowerMac.CacheRun
import OpenPowerMac.Isa
import OpenPowerMac.Mmu
import OpenPowerMac.FetchKept
import OpenPowerMac.FetchRun
import OpenPowerMac.ModeChange
import OpenPowerMac.L2Idle
import OpenPowerMac.WriteThrough
import OpenPowerMac.Rounding
import OpenPowerMac.Boundary
import OpenPowerMac.Sticky
import OpenPowerMac.Interchange
import OpenPowerMac.HostFloat
import OpenPowerMac.Encoding
import OpenPowerMac.Softfp
import OpenPowerMac.RoundPack
import OpenPowerMac.Window
import OpenPowerMac.Fused
import OpenPowerMac.FmaCore
import OpenPowerMac.FusedRounding
import OpenPowerMac.Trace
import OpenPowerMac.Sawtooth
import OpenPowerMac.SawtoothBounds
import OpenPowerMac.Dbdma
import OpenPowerMac.DbdmaTurn
import OpenPowerMac.DbdmaCost
import OpenPowerMac.DbdmaDelivery
import OpenPowerMac.DbdmaNesting
import OpenPowerMac.DbdmaRequests
import OpenPowerMac.DbdmaCursor
import OpenPowerMac.DbdmaParked
import OpenPowerMac.Exceptions
import OpenPowerMac.Storage
import OpenPowerMac.PageTable
import OpenPowerMac.TlbWalk
import OpenPowerMac.TlbRun
import OpenPowerMac.SamePage
import OpenPowerMac.DataXlate
import OpenPowerMac.Overlay
import OpenPowerMac.LoadStore
import OpenPowerMac.Frame
import OpenPowerMac.XlateFrame
import OpenPowerMac.AccessFrame
import OpenPowerMac.Bytes
import OpenPowerMac.OpenPic
import OpenPowerMac.Divide
import OpenPowerMac.Fpu
import OpenPowerMac.Fpscr
import OpenPowerMac.CanonicalCode
import OpenPowerMac.Deflate
import OpenPowerMac.Inflate
import OpenPowerMac.InflateBits
import OpenPowerMac.InflateHead
import OpenPowerMac.InflateCorrect
import OpenPowerMac.Cue
import OpenPowerMac.Extents
import OpenPowerMac.CueLayout
import OpenPowerMac.BStar
import OpenPowerMac.HfsTree
import OpenPowerMac.HfsNode
import OpenPowerMac.HfsKeys
import OpenPowerMac.HfsCatalog
import OpenPowerMac.HfsHeader
import OpenPowerMac.HfsFind
import OpenPowerMac.Reservation
import OpenPowerMac.Ata
import OpenPowerMac.AtaDma
import OpenPowerMac.AtaRead
import OpenPowerMac.DirectMapped
import OpenPowerMac.Gossamer
import OpenPowerMac.GossamerRoute
import OpenPowerMac.GossamerSized
import OpenPowerMac.GossamerExact
import OpenPowerMac.GossamerL2
import OpenPowerMac.Cuda
import OpenPowerMac.MacIo
import OpenPowerMac.CudaTalk
import OpenPowerMac.CudaKept
import OpenPowerMac.Arith
import OpenPowerMac.Convert
import OpenPowerMac.MacBinary
import OpenPowerMac.HfsScan
import OpenPowerMac.HfsBuild
import OpenPowerMac.HfsReserve
import OpenPowerMac.HfsClash
import OpenPowerMac.Ohci
import OpenPowerMac.OhciLists
import OpenPowerMac.OhciBounds
import OpenPowerMac.Deferral
import OpenPowerMac.Drive
import OpenPowerMac.AtaOwed
import OpenPowerMac.Deferred
import OpenPowerMac.DriveWrite
import OpenPowerMac.Udif
import OpenPowerMac.UdifRead
import OpenPowerMac.ClockSplit
import OpenPowerMac.HostPacer
import OpenPowerMac.AltiVec
import OpenPowerMac.AltiVecExact
import OpenPowerMac.AltiVecFloat
import OpenPowerMac.AltiVecOrder
import OpenPowerMac.AltiVecSingle
import OpenPowerMac.AltiVecConvert
import OpenPowerMac.ByteOrder
import OpenPowerMac.Identity
import OpenPowerMac.LittleEndian
import OpenPowerMac.AltiVecEstimate
import OpenPowerMac.CubicBounds
import OpenPowerMac.AltiVecQ30
import OpenPowerMac.AltiVecEstimateBounds
import OpenPowerMac.Pmu
import OpenPowerMac.PmuFraming
import OpenPowerMac.PmuTimers
import OpenPowerMac.MacIoTimer
import OpenPowerMac.SawtoothMemory
import OpenPowerMac.R128
import OpenPowerMac.R128Ddc
import OpenPowerMac.R128Vblank
import OpenPowerMac.Cce3d
import OpenPowerMac.Cce3dIndexed
import OpenPowerMac.R128Engine
import OpenPowerMac.R128Bounds
import OpenPowerMac.Footprint
import OpenPowerMac.R128Paths
import OpenPowerMac.R128Surface
import OpenPowerMac.R128Packets
import OpenPowerMac.R128Walk
import OpenPowerMac.R128Bitblt
import OpenPowerMac.SingleFormat
import OpenPowerMac.DigitRoot
import OpenPowerMac.SquareRoot
import OpenPowerMac.CarryChain
import OpenPowerMac.Integer
import OpenPowerMac.IntegerExact
import OpenPowerMac.LowBits
import OpenPowerMac.Awacs
import OpenPowerMac.UsbMouse
import OpenPowerMac.AwacsPace
import OpenPowerMac.R128Shade
import OpenPowerMac.R128Trace
import OpenPowerMac.BootFlash
import OpenPowerMac.BaseRegisters
import OpenPowerMac.Settling
import OpenPowerMac.CceParse
