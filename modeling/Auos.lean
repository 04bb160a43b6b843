import Auos.BootMem.Capacity
import Auos.BootMem.Wrap
import Auos.PageAlloc.InitZone
import Auos.PageAlloc.Guard
import Auos.PageAlloc.Effect
import Auos.SetupMemory
import Auos.MemoryMap
import Auos.Paging.Walk
import Auos.Paging.Translate
import Auos.Acpi.Tables
import Auos.Acpi.Madt
import Auos.Apic
import Auos.IsaSource
import Auos.IoApic
import Auos.Vectors
import Auos.I8259a
import Auos.SlabCache.Destroy
import Auos.SlabCache.Fresh
import Auos.Task.Scheduler
import Auos.Hw3.Echo
import Auos.Hw3.Preemption
import Auos.Task.Idt
import Auos.Memcmp
import Auos.Printf
import Auos.VgaConsole
import Auos.Hw3.Stdio
import Auos.Hw3.Switch
import Auos.Hw3.Interrupt
import Auos.Task.Alloc
import Auos.KernelLog
import Auos.Hw3.Irq
import Auos.PageAlloc.Stat
import Auos.Hw2.Main
import Auos.StartKernel
import Auos.Irqchip
