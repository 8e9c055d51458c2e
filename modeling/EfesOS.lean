import EfesOS.Drivers.AhciIrqState
import EfesOS.Drivers.Hpet
import EfesOS.Drivers.PciMsi
import EfesOS.Drivers.RtcTime
import EfesOS.Fs.FatChains
import EfesOS.Fs.FatListing
import EfesOS.Fs.FatMount
import EfesOS.Fs.Journal.Bursts
import EfesOS.Fs.Journal.CrashSafety
import EfesOS.Fs.Journal.Replay
import EfesOS.Fs.Partition
import EfesOS.Fs.Persistent.Boot
import EfesOS.Fs.Persistent.Confinement
import EfesOS.Fs.Persistent.Faults
import EfesOS.Fs.RamfsSlots
import EfesOS.Kernel.Restarts
import EfesOS.Kernel.Wakeup
import EfesOS.Memory.AddressMaps
import EfesOS.Memory.HeapRuns
import EfesOS.Memory.MapFailure
import EfesOS.Memory.Teardown
import EfesOS.Process.ElfSafety
import EfesOS.Process.Generations
import EfesOS.Process.Reclaim
import EfesOS.Process.Rotation
