import EfesOS.Foundation.Program
import EfesOS.Kernel.Ipc

/-!
# The state the scheduler works on

The static variables of `src/process/scheduler.c`, `src/process/user_process.c` and
`src/kernel/ipc.c`, and the interface through which that code reaches memory: paging, the physical
allocator, the ELF loader, the words of mapped pages and the devices. The interface is a record of
functions on an abstract memory (`Platform`), so what is proved of the scheduler holds whatever
those functions return.

A frame pointer is modelled by the frame it points at. Saved frames are only ever copied or
replaced whole, so a task either has a frame (`some`) or the null pointer (`none`).
-/

set_option autoImplicit false

namespace EfesOS.Process

open EfesOS.Foundation

abbrev pageSize : UInt32 := 4096

/-- `struct interrupt_frame`, with the two words a ring transition leaves after it. -/
structure Frame where
  gs : UInt32
  fs : UInt32
  es : UInt32
  ds : UInt32
  edi : UInt32
  esi : UInt32
  ebp : UInt32
  espBeforePushad : UInt32
  ebx : UInt32
  edx : UInt32
  ecx : UInt32
  eax : UInt32
  vector : UInt32
  errorCode : UInt32
  eip : UInt32
  cs : UInt32
  eflags : UInt32
  userStackPointer : UInt32
  userStackSelector : UInt32
  deriving DecidableEq, Inhabited

/-- Whether a frame was saved on entry from user mode. -/
def Frame.fromUser (frame : Frame) : Bool := frame.cs &&& 3 == 3

/-- The functions outside the scheduler, the process table and the message queue that they call. -/
structure Platform (M : Type) where
  pagingKernelDirectory : M → UInt32
  pagingCurrentDirectory : M → UInt32
  pagingAddressSpaceIsValid : UInt32 → M → Bool
  pagingIsMapped : UInt32 → M → Bool
  pagingValidateUserRange : UInt32 → UInt32 → Bool → M → Bool
  pagingValidateUserExecute : UInt32 → M → Bool
  pagingCreateAddressSpace : Program M UInt32
  pagingDestroyAddressSpace : UInt32 → Program M Bool
  pagingSwitchAddressSpace : UInt32 → Program M Bool
  pagingMapPage : UInt32 → UInt32 → UInt32 → Program M Bool
  pagingUnmapPage : UInt32 → Program M UInt32
  /-- The copied bytes, or none when the copy is refused. -/
  pagingCopyFromUser : UInt32 → UInt32 → M → Option (List UInt8)
  pagingCopyToUser : UInt32 → List UInt8 → Program M Bool
  pmmAllocBlock : Program M UInt32
  pmmAllocUserBlock : Program M UInt32
  pmmFreeBlock : UInt32 → Program M Unit
  /-- The entry point and the bounds of the loaded image, or none when loading fails. -/
  elfLoadImage : List UInt8 → Program M (Option (UInt32 × UInt32 × UInt32))
  elfUnloadImage : UInt32 → UInt32 → Program M Bool
  loadWord : UInt32 → M → UInt32
  storeWord : UInt32 → UInt32 → Program M Unit
  clearPage : UInt32 → Program M Unit
  pitTicks : M → UInt32
  cpuRandomU32 : Program M (Option UInt32)
  serialWriteN : List UInt8 → Program M Unit
  /-- The address of `scheduler_task_trampoline`. -/
  trampoline : UInt32
  /-- The address of `layout_random_state`, which goes into its seed. -/
  layoutRandomAddress : UInt32

abbrev schedulerMaxTasks : ℕ := 16

abbrev schedulerStackPages : ℕ := 8

abbrev schedulerDefaultPriority : UInt32 := 1

abbrev schedulerMaxPriority : UInt32 := 8

abbrev schedulerMaxGeneration : UInt32 := 0x00FFFFFF

abbrev schedulerNameMax : ℕ := 16

inductive TaskState where
  | runnable
  | terminated
  | blocked
  deriving DecidableEq

inductive TaskMode where
  | kernel
  | user
  deriving DecidableEq

/-- `struct scheduler_task`; the name is the bytes before its terminator. -/
structure Task where
  name : List UInt8
  entry : UInt32
  frame : Option Frame
  stackBase : UInt32
  stackFrames : ℕ → UInt32
  stackCanary : UInt32
  userEntry : UInt32
  userStackTop : UInt32
  addressSpace : UInt32
  mode : TaskMode
  priority : UInt32
  ticksLeft : UInt32
  switches : UInt32
  state : TaskState
  taskId : UInt32

/-- The static variables of `scheduler.c`. The reap mask is read one bit at a time. -/
structure Scheduler where
  tasks : ℕ → Task
  taskCount : ℕ
  currentTask : ℕ
  started : Bool
  pendingReap : ℕ → Bool
  stackReapCount : UInt32
  lastAddedTask : ℕ
  slotGeneration : ℕ → UInt32

abbrev userProcessMax : ℕ := 8

/-- `struct user_process_record`. -/
structure ProcessRecord where
  loadedBase : UInt32
  loadedEnd : UInt32
  stackFrame : UInt32
  stackAddress : UInt32
  addressSpace : UInt32
  taskIndex : ℕ
  taskId : UInt32
  active : Bool

/-- The static variables of `user_process.c`. -/
structure Processes where
  records : ℕ → ProcessRecord
  reaps : UInt32
  layoutRandomState : UInt32

structure Machine (M : Type) where
  memory : M
  scheduler : Scheduler
  processes : Processes
  ipc : Kernel.Ipc.Queue

/-- Kernel code: it works on the machine and halts by `kernel_panic`. -/
abbrev KernelProgram (M α : Type) := Program (Machine M) α

variable {M α : Type}

/-- A call on memory. -/
def onMemory (program : Program M α) : KernelProgram M α :=
  Program.onPart Machine.memory (fun machine memory ↦ { machine with memory := memory }) program

def readMemory (observe : M → α) : KernelProgram M α :=
  Program.read fun machine ↦ observe machine.memory

def readScheduler (observe : Scheduler → α) : KernelProgram M α :=
  Program.read fun machine ↦ observe machine.scheduler

def changeScheduler (update : Scheduler → Scheduler) : KernelProgram M Unit :=
  Program.change fun machine ↦ { machine with scheduler := update machine.scheduler }

def changeProcesses (update : Processes → Processes) : KernelProgram M Unit :=
  Program.change fun machine ↦ { machine with processes := update machine.processes }

def kernelPanic (message : String) : KernelProgram M α := Program.halt message

/-- Panic unless a condition holds. -/
def require (condition : Bool) (message : String) : KernelProgram M Unit :=
  if condition then pure () else kernelPanic message

end EfesOS.Process
