import Mach.Device.BpfPacket
import Mach.Device.CspfSafe
import Mach.Device.NetFilterOrder
import Mach.Device.OpenCloseInv
import Mach.I386at.BiosmemFree
import Mach.Intel.PmapTrack
import Mach.Ipc.CircularityInv
import Mach.Ipc.CopyUserSize
import Mach.Ipc.Delivery
import Mach.Ipc.DeliveryOrder
import Mach.Ipc.EntryNames
import Mach.Ipc.KmsgAgree
import Mach.Ipc.RightBalance
import Mach.Ipc.RightUndo
import Mach.Kern.AtomspaceAttention
import Mach.Kern.AtomspaceInherit
import Mach.Kern.CfiIntegrity
import Mach.Kern.ClockAdjust
import Mach.Kern.ClockMapped
import Mach.Kern.ClockTickless
import Mach.Kern.ClockUptime
import Mach.Kern.EventCount
import Mach.Kern.GsyncRun
import Mach.Kern.GsyncWakeRun
import Mach.Kern.KmutexInv
import Mach.Kern.RwLockRun
import Mach.Kern.SuspendInv
import Mach.Kern.TaskSuspendInv
import Mach.Kern.TimerInv
import Mach.Vm.CompressStore
import Mach.Vm.CowMemory
import Mach.Vm.MapPlace
import Mach.Vm.MapWire
import Mach.Vm.PageBalance
import Mach.Vm.PageSegConserve
import Mach.Vm.Proxy
