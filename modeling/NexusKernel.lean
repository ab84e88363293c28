import NexusKernel.PmmAccounting
import NexusKernel.PmmExclusivity
import NexusKernel.RefcountProtocol
import NexusKernel.Priorities
import NexusKernel.XhciWindow
import NexusKernel.ReadOnlySegments
import NexusKernel.Execve
import NexusKernel.KernelFaults
import NexusKernel.ContextSwitch
import NexusKernel.SyscallEntry
import NexusKernel.TimedSleep
import NexusKernel.FileCreation
import NexusKernel.Mounts
import NexusKernel.FileArrays
import NexusKernel.ChildReports
import NexusKernel.ExitRaces
import NexusKernel.BufferFits
import NexusKernel.RecordBounds
import NexusKernel.ReadLimits
import NexusKernel.SectorSizes
import NexusKernel.DescriptorTables
import NexusKernel.DeviceReads
import NexusKernel.AllocationSizes
import NexusKernel.InputQueue
import NexusKernel.UsbEnumeration
import NexusKernel.ShellTokens
import NexusKernel.XhciEvents
import NexusKernel.DriverProbing
import NexusKernel.KernelLog
import NexusKernel.KeyInput
import NexusKernel.Debugger
