import EfesOS.Process.Machine

/-!
# The scheduler

The functions of `src/process/scheduler.c`, with `user_process_reap_task` of
`src/process/user_process.c`, which the fault and exit paths call. They run with interrupts masked,
either by `scheduler_irq_save` or inside an interrupt gate, so each is one program on the machine.

`schedule_from_frame` and `scheduler_on_user_fault` call each other. A fault terminates the current
task, so the schedule it ends in never faults again; the model ties the knot once
(`scheduleAfterExit`), and `schedulerOnUserFault_eq` recovers the equation of the source.
-/

set_option autoImplicit false

namespace EfesOS.Process

open EfesOS.Foundation

variable {M : Type} (platform : Platform M)

/-! ### The task table -/

/-- `clear_task`. -/
def clearedTask : Task where
  name := []
  entry := 0
  frame := none
  stackBase := 0
  stackFrames := fun _ ↦ 0
  stackCanary := 0
  userEntry := 0
  userStackTop := 0
  addressSpace := 0
  mode := .kernel
  priority := schedulerDefaultPriority
  ticksLeft := schedulerDefaultPriority
  switches := 0
  state := .terminated
  taskId := 0

def Scheduler.current (scheduler : Scheduler) : Task := scheduler.tasks scheduler.currentTask

def Scheduler.setTask (scheduler : Scheduler) (index : ℕ) (task : Task) : Scheduler :=
  { scheduler with tasks := Function.update scheduler.tasks index task }

def Scheduler.updateTask (scheduler : Scheduler) (index : ℕ) (update : Task → Task) : Scheduler :=
  scheduler.setTask index (update (scheduler.tasks index))

/-- `copy_task_name`: whether the whole name fitted, and the bytes copied. -/
def copyTaskName (source : List UInt8) : Bool × List UInt8 :=
  let index := CString.boundedLength source (schedulerNameMax - 1)
  (source.getD index 0 == 0, source.take index)

def findTaskSlot (scheduler : Scheduler) : ℕ :=
  match (List.range' 1 (scheduler.taskCount - 1)).find? fun index ↦
      !scheduler.pendingReap index && (scheduler.tasks index).state == .terminated &&
        (scheduler.tasks index).stackBase == 0 && (scheduler.tasks index).frame.isNone with
  | some index => index
  | none =>
    if scheduler.taskCount < schedulerMaxTasks then scheduler.taskCount else schedulerMaxTasks

def schedulerCurrentTaskId (scheduler : Scheduler) : UInt32 :=
  if scheduler.taskCount ≤ scheduler.currentTask then 0 else scheduler.current.taskId

def schedulerTaskId (scheduler : Scheduler) (index : ℕ) : UInt32 :=
  if scheduler.taskCount ≤ index then 0 else (scheduler.tasks index).taskId

def schedulerBlockedCount (scheduler : Scheduler) : ℕ :=
  (List.range scheduler.taskCount).countP fun index ↦ (scheduler.tasks index).state == .blocked

/-- A slot the scheduler may dispatch. -/
def Task.dispatchable (task : Task) : Bool := task.state == .runnable && task.frame.isSome

def findNextRunnable (scheduler : Scheduler) : ℕ :=
  ((List.range' 1 scheduler.taskCount).map fun offset ↦
      (scheduler.currentTask + offset) % scheduler.taskCount).find?
    (fun index ↦ (scheduler.tasks index).dispatchable) |>.getD schedulerMaxTasks

def hasOtherRunnable (scheduler : Scheduler) : Bool :=
  (List.range scheduler.taskCount).any fun index ↦
    index != scheduler.currentTask && (scheduler.tasks index).dispatchable

def addressSpaceInUse (scheduler : Scheduler) (addressSpace : UInt32) : Bool :=
  (List.range' 1 (scheduler.taskCount - 1)).any fun index ↦
    (scheduler.tasks index).mode == .user && (scheduler.tasks index).state != .terminated &&
      (scheduler.tasks index).addressSpace == addressSpace

/-! ### Blocking and waking -/

/-- `scheduler_wake_task_unlocked`: whether the task was woken, and the table after it. -/
def schedulerWakeTaskUnlocked (index : ℕ) (scheduler : Scheduler) : Bool × Scheduler :=
  if index = 0 ∨ scheduler.taskCount ≤ index ∨ (scheduler.tasks index).state ≠ .blocked ∨
      (scheduler.tasks index).frame = none then (false, scheduler)
  else (true, scheduler.updateTask index fun task ↦
    { task with state := .runnable, ticksLeft := task.priority })

def schedulerWakeTask (index : ℕ) (scheduler : Scheduler) : Bool × Scheduler :=
  schedulerWakeTaskUnlocked index scheduler

def schedulerWakeTaskId (taskId : UInt32) (scheduler : Scheduler) : Bool × Scheduler :=
  if taskId = 0 then (false, scheduler)
  else
    match (List.range' 1 (scheduler.taskCount - 1)).find? fun index ↦
        (scheduler.tasks index).taskId == taskId with
    | some index => schedulerWakeTaskUnlocked index scheduler
    | none => (false, scheduler)

/-- The loop of `scheduler_wake_user_tasks` over the given slots. -/
def wakeUserTasksIn : List ℕ → Scheduler → ℕ × Scheduler
  | [], scheduler => (0, scheduler)
  | index :: rest, scheduler =>
    let outcome :=
      if (scheduler.tasks index).mode = .user then schedulerWakeTaskUnlocked index scheduler
      else (false, scheduler)
    let later := wakeUserTasksIn rest outcome.2
    (outcome.1.toNat + later.1, later.2)

def schedulerWakeUserTasks (scheduler : Scheduler) : ℕ × Scheduler :=
  wakeUserTasksIn (List.range' 1 (scheduler.taskCount - 1)) scheduler

def schedulerTaskIdIsActiveUser (taskId : UInt32) (scheduler : Scheduler) : Bool :=
  taskId != 0 && (List.range' 1 (scheduler.taskCount - 1)).any fun index ↦
    (scheduler.tasks index).taskId == taskId && (scheduler.tasks index).mode == .user &&
      (scheduler.tasks index).state != .terminated && (scheduler.tasks index).frame.isSome

def schedulerBlockCurrent (scheduler : Scheduler) : Bool × Scheduler :=
  if !scheduler.started ∨ scheduler.currentTask = 0 ∨
      scheduler.taskCount ≤ scheduler.currentTask ∨
      scheduler.current.state ≠ .runnable ∨ hasOtherRunnable scheduler = false then
    (false, scheduler)
  else (true, scheduler.updateTask scheduler.currentTask fun task ↦ { task with state := .blocked })

def schedulerBlockTask (index : ℕ) (scheduler : Scheduler) : Bool × Scheduler :=
  if index = 0 ∨ scheduler.taskCount ≤ index ∨ scheduler.started ∨
      (scheduler.tasks index).state ≠ .runnable ∨ (scheduler.tasks index).frame = none then
    (false, scheduler)
  else (true, scheduler.updateTask index fun task ↦ { task with state := .blocked })

def schedulerSetPriority (index : ℕ) (priority : UInt32) (scheduler : Scheduler) :
    Bool × Scheduler :=
  if index = 0 ∨ scheduler.taskCount ≤ index ∨ priority = 0 ∨ schedulerMaxPriority < priority ∨
      scheduler.started then (false, scheduler)
  else (true, scheduler.updateTask index fun task ↦
    { task with priority := priority, ticksLeft := priority })

def schedulerInit (kernelDirectory : UInt32) : Scheduler where
  tasks := Function.update (fun _ ↦ clearedTask) 0
    { clearedTask with
      name := CString.ascii "kernel", state := .runnable, addressSpace := kernelDirectory }
  taskCount := 1
  currentTask := 0
  started := false
  pendingReap := fun _ ↦ false
  stackReapCount := 0
  lastAddedTask := schedulerMaxTasks
  slotGeneration := fun _ ↦ 0

/-- `scheduler_start`: the boot stack is not a task that can be dispatched. -/
def schedulerStart (scheduler : Scheduler) : Scheduler :=
  { scheduler.updateTask 0 (fun task ↦ { task with state := .terminated }) with started := true }

/-! ### Kernel stacks -/

def verifyStackCanary (task : Task) : KernelProgram M Unit :=
  -- The bootstrap task has no stack of the scheduler's own to check.
  if task.stackBase = 0 then pure ()
  else do
    let word ← readMemory (platform.loadWord (task.stackBase + pageSize))
    require (task.stackCanary != 0 && word == task.stackCanary) "Scheduler stack canary corrupted."

/-- The address of a page of the stack at `base`; the first page is the guard. -/
def stackPageAddress (base : UInt32) (page : ℕ) : UInt32 :=
  base + pageSize + page.toUInt32 * pageSize

def reapStackPage (index : ℕ) (base : UInt32) (page : ℕ) : KernelProgram M Unit := do
  let expected ← readScheduler fun scheduler ↦ (scheduler.tasks index).stackFrames page
  require (expected != 0) "Kernel task stack ownership is incomplete."
  let physical ← onMemory (platform.pagingUnmapPage (stackPageAddress base page))
  require (physical == expected) "Kernel task stack mapping ownership mismatch."
  onMemory (platform.pmmFreeBlock physical)
  changeScheduler fun scheduler ↦ scheduler.updateTask index fun task ↦
    { task with stackFrames := Function.update task.stackFrames page 0 }

def reapTaskStack (index : ℕ) : KernelProgram M Unit := do
  let task ← readScheduler fun scheduler ↦ scheduler.tasks index
  if task.stackBase = 0 then pure ()
  else do
    verifyStackCanary platform task
    let guardMapped ← readMemory (platform.pagingIsMapped task.stackBase)
    require (!guardMapped) "Kernel task stack guard page is mapped."
    Program.forEach (reapStackPage platform index task.stackBase) (List.range schedulerStackPages)
    changeScheduler fun scheduler ↦
      { scheduler.updateTask index (fun task ↦ { task with stackBase := 0, frame := none }) with
        stackReapCount := scheduler.stackReapCount + 1 }

/-- Whether a terminated task other than the running one waits for its stack to be freed. -/
def reapDue (scheduler : Scheduler) (index : ℕ) : Bool :=
  scheduler.pendingReap index && index != scheduler.currentTask

def reapSlot (index : ℕ) : KernelProgram M Unit := do
  let due ← readScheduler fun scheduler ↦ reapDue scheduler index
  Program.when due do
    reapTaskStack platform index
    changeScheduler fun scheduler ↦
      { scheduler with pendingReap := Function.update scheduler.pendingReap index false }

def reapPendingStacks : KernelProgram M Unit := do
  let currentDirectory ← readMemory platform.pagingCurrentDirectory
  let kernelDirectory ← readMemory platform.pagingKernelDirectory
  let slots ← readScheduler fun scheduler ↦ List.range' 1 (scheduler.taskCount - 1)
  let due ← readScheduler fun scheduler ↦ slots.any (reapDue scheduler)
  let switches := due && currentDirectory != kernelDirectory
  Program.when switches do
    let switched ← onMemory (platform.pagingSwitchAddressSpace kernelDirectory)
    require switched "Failed to enter kernel address space for stack cleanup."
  Program.forEach (reapSlot platform) slots
  Program.when switches do
    let restored ← onMemory (platform.pagingSwitchAddressSpace currentDirectory)
    require restored "Failed to restore address space after stack cleanup."

abbrev schedulerStackBase : UInt32 := 0xC0000000

abbrev schedulerStackStride : UInt32 := pageSize * 9

abbrev schedulerStackCanary : UInt32 := 0x51ACCE55

abbrev pageFlagWritable : UInt32 := 2

/-- The rollback of `allocate_task_stack`: the first `index` pages are unmapped and freed. -/
def releaseStackPages (base : UInt32) : ℕ → KernelProgram M Unit
  | 0 => pure ()
  | index + 1 => do
    let physical ← onMemory (platform.pagingUnmapPage (stackPageAddress base index))
    Program.when (physical ≠ 0) (onMemory (platform.pmmFreeBlock physical))
    releaseStackPages base index

/-- Map a freshly allocated frame; an allocation that failed maps nothing. -/
def mapAllocated (address physical flags : UInt32) : KernelProgram M Bool :=
  if physical = 0 then pure false else onMemory (platform.pagingMapPage address physical flags)

/-- The page loop of `allocate_task_stack`, with the frames it mapped. -/
def allocateStackPages (base : UInt32) : ℕ → ℕ → (ℕ → UInt32) →
    KernelProgram M (Option (ℕ → UInt32))
  | 0, _, frames => pure (some frames)
  | remaining + 1, index, frames => do
    let physical ← onMemory platform.pmmAllocBlock
    let mapped ← mapAllocated platform (stackPageAddress base index) physical pageFlagWritable
    if mapped then do
      onMemory (platform.clearPage (stackPageAddress base index))
      allocateStackPages base remaining (index + 1) (Function.update frames index physical)
    else do
      Program.when (physical ≠ 0) (onMemory (platform.pmmFreeBlock physical))
      releaseStackPages platform base index
      pure none

/-- The frame a new task starts from. The address of `scheduler_task_trampoline` is a parameter. -/
def initialFrame (trampoline : UInt32) (task : Task) : Frame :=
  let data := if task.mode = .user then 0x23 else 0x10
  { gs := data, fs := data, es := data, ds := data, edi := 0, esi := 0, ebp := 0,
    espBeforePushad := 0, ebx := 0, edx := 0, ecx := 0, eax := 0, vector := 0, errorCode := 0,
    eip := if task.mode = .user then task.userEntry else trampoline
    cs := if task.mode = .user then 0x1B else 0x08
    eflags := 0x202
    userStackPointer := if task.mode = .user then task.userStackTop else 0
    userStackSelector := if task.mode = .user then 0x23 else 0 }

/-- `allocate_task_stack`: the task with its stack, or none when its pages could not be had. -/
def allocateTaskStack (task : Task) (slot : ℕ) : KernelProgram M (Option Task) := do
  let base := schedulerStackBase + slot.toUInt32 * schedulerStackStride
  let frames ← allocateStackPages platform base schedulerStackPages 0 task.stackFrames
  match frames with
  | none => pure none
  | some frames => do
    let canary := schedulerStackCanary ^^^ base ^^^ slot.toUInt32
    onMemory (platform.storeWord (base + pageSize) canary)
    pure (some { task with
      stackBase := base
      stackFrames := frames
      stackCanary := canary
      frame := some (initialFrame platform.trampoline task) })

/-! ### Adding tasks -/

/-- A slot's generation after one more task was given to it. -/
def nextGeneration (generation : UInt32) : UInt32 :=
  if generation + 1 = 0 then generation + 2 else generation + 1

def makeTaskId (generation : UInt32) (slot : ℕ) : UInt32 :=
  (generation <<< 8) ||| slot.toUInt32

/-- The end of `scheduler_add_task` and `scheduler_add_user_task_in_space`: the slot gets its next
generation and the task, with a stack, becomes its occupant. -/
def installTask (slot : ℕ) (task : Task) : KernelProgram M Bool := do
  changeScheduler fun scheduler ↦
    { scheduler with
      slotGeneration := Function.update scheduler.slotGeneration slot
        (nextGeneration (scheduler.slotGeneration slot)) }
  let generation ← readScheduler fun scheduler ↦ scheduler.slotGeneration slot
  let installed ←
    allocateTaskStack platform { task with taskId := makeTaskId generation slot } slot
  match installed with
  | none => do
    changeScheduler fun scheduler ↦ scheduler.setTask slot clearedTask
    pure false
  | some task => do
    changeScheduler fun scheduler ↦
      { scheduler.setTask slot task with
        taskCount :=
          if slot = scheduler.taskCount then scheduler.taskCount + 1 else scheduler.taskCount
        lastAddedTask := slot }
    pure true

/-- The slot for a new task, unless the table is full or the slot's generations are used up. -/
def freeSlot (scheduler : Scheduler) : Option ℕ :=
  let slot := findTaskSlot scheduler
  if slot = schedulerMaxTasks ∨ schedulerMaxGeneration ≤ scheduler.slotGeneration slot then none
  else some slot

/-- Name the task and install it; a name that does not fit leaves the slot cleared. -/
def installNamedTask (slot : ℕ) (name : List UInt8) (task : Task) : KernelProgram M Bool :=
  let copied := copyTaskName name
  if copied.1 then installTask platform slot { task with name := copied.2 }
  else do
    changeScheduler fun scheduler ↦ scheduler.setTask slot { clearedTask with name := copied.2 }
    pure false

def schedulerAddTask (name : Pointer) (entry : UInt32) : KernelProgram M Bool := do
  match name with
  | none => pure false
  | some name =>
    if entry = 0 then pure false
    else do
      let slot ← readScheduler freeSlot
      match slot with
      | none => pure false
      | some slot => do
        let kernelDirectory ← readMemory platform.pagingKernelDirectory
        installNamedTask platform slot name
          { clearedTask with entry := entry, addressSpace := kernelDirectory, state := .runnable }

abbrev schedulerUserMinAddress : UInt32 := 0x00400000

abbrev schedulerUserAddressLimit : UInt32 := 0xC0000000

/-- The checks of `scheduler_add_user_task_in_space` before it masks interrupts. -/
def userTaskArgumentsValid (entry userStackTop addressSpace : UInt32) (memory : M) : Bool :=
  !(entry < schedulerUserMinAddress || schedulerUserAddressLimit ≤ entry ||
    userStackTop < schedulerUserMinAddress || schedulerUserAddressLimit < userStackTop ||
    userStackTop &&& (pageSize - 1) != 0 ||
    !platform.pagingAddressSpaceIsValid addressSpace memory ||
    addressSpace == platform.pagingKernelDirectory memory ||
    platform.pagingCurrentDirectory memory != platform.pagingKernelDirectory memory)

/-- The supplied context checked in its own address space; none when it cannot be entered. -/
def userContextValid (entry userStackTop addressSpace : UInt32) :
    KernelProgram M Bool := do
  let entered ← onMemory (platform.pagingSwitchAddressSpace addressSpace)
  if entered then do
    let valid ← readMemory fun memory ↦ platform.pagingValidateUserExecute entry memory &&
      platform.pagingValidateUserRange (userStackTop - pageSize) pageSize true memory
    let kernelDirectory ← readMemory platform.pagingKernelDirectory
    let restored ← onMemory (platform.pagingSwitchAddressSpace kernelDirectory)
    require restored "Failed to restore kernel address space after user validation."
    pure valid
  else pure false

def schedulerAddUserTaskInSpace (name : Pointer) (entry userStackTop addressSpace : UInt32) :
    KernelProgram M Bool := do
  match name with
  | none => pure false
  | some name => do
    let argumentsValid ←
      readMemory (userTaskArgumentsValid platform entry userStackTop addressSpace)
    if argumentsValid then do
      let valid ← userContextValid platform entry userStackTop addressSpace
      if valid then do
        let inUse ← readScheduler fun scheduler ↦ addressSpaceInUse scheduler addressSpace
        let slot ← readScheduler freeSlot
        match slot, inUse with
        | some slot, false =>
          installNamedTask platform slot name
            { clearedTask with
              userEntry := entry
              userStackTop := userStackTop
              addressSpace := addressSpace
              mode := .user
              state := .runnable }
        | _, _ => pure false
      else pure false
    else pure false

/-! ### The process table -/

/-- The active record of a task slot. -/
def findProcess (processes : Processes) (taskIndex : ℕ) : Option ℕ :=
  (List.range userProcessMax).find? fun index ↦
    (processes.records index).active && (processes.records index).taskIndex == taskIndex

def updateRecord (index : ℕ) (update : ProcessRecord → ProcessRecord) : KernelProgram M Unit :=
  changeProcesses fun processes ↦
    { processes with
      records := Function.update processes.records index (update (processes.records index)) }

/-- The part of `user_process_reap_task` that gives the image back. -/
def reapImage (index : ℕ) (process : ProcessRecord) : KernelProgram M Unit :=
  Program.when (process.loadedBase ≠ 0 ∧ process.loadedBase < process.loadedEnd) do
    let unloaded ← onMemory (platform.elfUnloadImage process.loadedBase process.loadedEnd)
    require unloaded "Failed to unload user ELF image."
    updateRecord index fun record ↦ { record with loadedBase := 0, loadedEnd := 0 }

/-- The part of `user_process_reap_task` that gives the user stack back. -/
def reapUserStack (index : ℕ) (process : ProcessRecord) : KernelProgram M Unit := do
  Program.when (process.stackFrame ≠ 0) do
    let intact ← readMemory fun memory ↦ platform.pagingIsMapped process.stackAddress memory &&
      !platform.pagingIsMapped (process.stackAddress - pageSize) memory
    require intact "User stack mapping disappeared before cleanup."
    let physical ← onMemory (platform.pagingUnmapPage process.stackAddress)
    require (physical != 0 && physical == process.stackFrame) "User stack ownership mismatch."
    onMemory (platform.pmmFreeBlock physical)
  updateRecord index fun record ↦ { record with stackFrame := 0, stackAddress := 0 }

/-- The part of `user_process_reap_task` that gives the address space back. -/
def reapAddressSpace (index : ℕ) (process : ProcessRecord) : KernelProgram M Unit :=
  Program.when (process.addressSpace ≠ 0) do
    let kernelDirectory ← readMemory platform.pagingKernelDirectory
    let switched ← onMemory (platform.pagingSwitchAddressSpace kernelDirectory)
    require switched "Failed to destroy user address space."
    let destroyed ← onMemory (platform.pagingDestroyAddressSpace process.addressSpace)
    require destroyed "Failed to destroy user address space."
    updateRecord index fun record ↦ { record with addressSpace := 0 }

def userProcessReapTask (taskIndex : ℕ) (taskId : UInt32) : KernelProgram M Bool := do
  let processes ← Program.read Machine.processes
  match findProcess processes taskIndex with
  | none => pure false
  | some index =>
    let process := processes.records index
    if taskId = 0 ∨ process.taskId ≠ taskId then pure false
    else do
      let currentDirectory ← readMemory platform.pagingCurrentDirectory
      Program.when (process.addressSpace ≠ 0 ∧ currentDirectory ≠ process.addressSpace) do
        let switched ← onMemory (platform.pagingSwitchAddressSpace process.addressSpace)
        require switched "Failed to enter user address space for cleanup."
      reapImage platform index process
      reapUserStack platform index process
      reapAddressSpace platform index process
      updateRecord index fun record ↦ { record with taskIndex := 0, taskId := 0, active := false }
      changeProcesses fun processes ↦ { processes with reaps := processes.reaps + 1 }
      pure true

/-! ### Dispatching -/

/-- Keep the interrupted frame in the current task: a user task has its own frame to copy it to,
a kernel task is left on its stack. -/
def saveFrame (frame : Frame) (scheduler : Scheduler) : Scheduler :=
  scheduler.updateTask scheduler.currentTask fun task ↦
    if task.mode = .user then { task with frame := task.frame.map fun _ ↦ frame }
    else { task with frame := some frame }

def switchTo (next : ℕ) (scheduler : Scheduler) : Scheduler :=
  { scheduler.updateTask next (fun task ↦
      { task with switches := task.switches + 1, ticksLeft := task.priority }) with
    currentTask := next }

/-- The end of `schedule_from_frame`: spend a tick, stay, or switch to the next runnable task. -/
def dispatch (frame : Frame) (force : Bool) : KernelProgram M Frame := do
  let scheduler ← readScheduler id
  let next := findNextRunnable scheduler
  if force = false ∧ scheduler.current.state = .runnable ∧ 1 < scheduler.current.ticksLeft then do
    changeScheduler fun scheduler ↦ scheduler.updateTask scheduler.currentTask fun task ↦
      { task with ticksLeft := task.ticksLeft - 1 }
    pure frame
  else if next = schedulerMaxTasks then kernelPanic "Scheduler has no runnable task."
  else if next = scheduler.currentTask then pure frame
  else do
    changeScheduler (switchTo next)
    let switched ←
      onMemory (platform.pagingSwitchAddressSpace (scheduler.tasks next).addressSpace)
    require switched "Task address-space switch failed."
    pure ((scheduler.tasks next).frame.getD frame)

/-- Whether the current task is to be ended because it would resume at a bad address. -/
def resumeFaults (frame : Frame) (machine : Machine M) : Bool :=
  machine.scheduler.current.mode == .user && machine.scheduler.current.state == .runnable &&
    frame.fromUser && !platform.pagingValidateUserExecute frame.eip machine.memory

/-- `schedule_from_frame`, with the handler of a fault as its argument. -/
def scheduleFromFrameWith (onUserFault : Frame → KernelProgram M Frame) (frame : Frame)
    (force : Bool) : KernelProgram M Frame := do
  let scheduler ← readScheduler id
  if scheduler.started = false ∨ scheduler.taskCount = 0 then pure frame
  else do
    verifyStackCanary platform scheduler.current
    reapPendingStacks platform
    let faults ← Program.read (resumeFaults platform frame)
    if faults then onUserFault frame
    else do
      changeScheduler (saveFrame frame)
      dispatch platform frame force

/-- The schedule after the current task ended: it is not runnable, so it cannot fault. -/
def scheduleAfterExit (frame : Frame) : KernelProgram M Frame :=
  scheduleFromFrameWith platform pure frame true

/-- The current task marked as terminated, with its stack to be freed later. -/
def terminateCurrent (scheduler : Scheduler) : Scheduler :=
  { scheduler.updateTask scheduler.currentTask (fun task ↦ { task with state := .terminated }) with
    pendingReap := Function.update scheduler.pendingReap scheduler.currentTask true }

/-- The first statement of `scheduler_task_trampoline` after a kernel task has returned. -/
def markReturned (scheduler : Scheduler) : Scheduler :=
  scheduler.updateTask scheduler.currentTask fun task ↦ { task with state := .terminated }

/-- The second one; interrupts are not masked between the two. -/
def recordReturned (scheduler : Scheduler) : Scheduler :=
  { scheduler with
    pendingReap := Function.update scheduler.pendingReap scheduler.currentTask true }

/-- The messages to and from the current task are dropped and the task is terminated. -/
def retireCurrent (machine : Machine M) : Machine M :=
  let taskId := schedulerCurrentTaskId machine.scheduler
  { machine with
    ipc := (Kernel.Ipc.ipcPurgeSender taskId (Kernel.Ipc.ipcPurgeReceiver taskId machine.ipc).2).2
    scheduler := terminateCurrent machine.scheduler }

/-- `scheduler_on_user_fault` and `scheduler_on_user_exit`, which differ in their panic message. -/
def endUserTask (message : String) (schedule : Frame → KernelProgram M Frame) (frame : Frame) :
    KernelProgram M Frame := do
  let scheduler ← readScheduler id
  if scheduler.started = false ∨ scheduler.taskCount ≤ scheduler.currentTask ∨
      scheduler.current.mode ≠ .user then pure frame
  else do
    Program.change retireCurrent
    let reaped ← userProcessReapTask platform scheduler.currentTask
      (schedulerCurrentTaskId scheduler)
    require reaped message
    schedule frame

def schedulerOnUserFault (frame : Frame) : KernelProgram M Frame :=
  endUserTask platform "Unowned user task faulted." (scheduleAfterExit platform) frame

def schedulerOnUserExit (frame : Frame) : KernelProgram M Frame :=
  endUserTask platform "Unowned user task exited." (scheduleAfterExit platform) frame

def scheduleFromFrame (frame : Frame) (force : Bool) : KernelProgram M Frame :=
  scheduleFromFrameWith platform (schedulerOnUserFault platform) frame force

def schedulerOnTimer (frame : Frame) : KernelProgram M Frame :=
  scheduleFromFrame platform frame false

def schedulerOnYield (frame : Frame) : KernelProgram M Frame :=
  scheduleFromFrame platform frame true

end EfesOS.Process
