import EfesOS.Process.Scheduler

/-!
# Starting user processes

`user_process_spawn` of `src/process/user_process.c`: choose a process record and a stack region,
build an address space, map the stack, load the image and register the task; on a failure after the
address space exists, take everything back. It runs with interrupts masked from start to end.
-/

set_option autoImplicit false

namespace EfesOS.Process

open EfesOS.Foundation

variable {M : Type} (platform : Platform M)

abbrev userStackRegionBase : UInt32 := 0x00800000

abbrev userStackRegionStride : UInt32 := 0x00100000

abbrev userStackRegionCount : ℕ := 16

abbrev userProcessImageMaxSize : ℕ := 64 * 1024

abbrev pageFlagUser : UInt32 := 4

/-- One round of the xorshift generator. -/
def xorshift (state : UInt32) : UInt32 :=
  let state := state ^^^ (state <<< 13)
  let state := state ^^^ (state >>> 17)
  state ^^^ (state <<< 5)

/-- The first state of the generator; it is never zero. -/
def layoutSeed (ticks address : UInt32) (hardwareRandom : Option UInt32) : UInt32 :=
  let seed := ticks ^^^ address ^^^ 0xA5C39E17 ^^^ hardwareRandom.getD 0
  if seed = 0 then 1 else seed

def nextLayoutRandom : KernelProgram M UInt32 := do
  let state ← Program.read fun machine ↦ machine.processes.layoutRandomState
  Program.when (state = 0) do
    let ticks ← readMemory platform.pitTicks
    let hardwareRandom ← onMemory platform.cpuRandomU32
    changeProcesses fun processes ↦
      { processes with
        layoutRandomState := layoutSeed ticks platform.layoutRandomAddress hardwareRandom }
  changeProcesses fun processes ↦
    { processes with layoutRandomState := xorshift processes.layoutRandomState }
  Program.read fun machine ↦ machine.processes.layoutRandomState

def userStackRegionInUse (processes : Processes) (stackAddress : UInt32) : Bool :=
  (List.range userProcessMax).any fun index ↦
    (processes.records index).active && (processes.records index).stackAddress == stackAddress

/-- The unmapped page below the stack of a region. -/
def stackGuard (region : ℕ) : UInt32 :=
  userStackRegionBase + region.toUInt32 * userStackRegionStride

/-- The first free stack region from the random one on. -/
def findStackRegion (start : ℕ) (machine : Machine M) : Option ℕ :=
  ((List.range userStackRegionCount).map fun offset ↦ (start + offset) % userStackRegionCount).find?
    fun region ↦
      !userStackRegionInUse machine.processes (stackGuard region + pageSize) &&
        !platform.pagingIsMapped (stackGuard region) machine.memory &&
        !platform.pagingIsMapped (stackGuard region + pageSize) machine.memory

/-- What a spawn has built so far, for its cleanup. -/
structure SpawnProgress where
  addressSpace : UInt32
  stackAddress : UInt32
  stackFrame : UInt32
  stackMapped : Bool
  loaded : Option (UInt32 × UInt32)

/-- The end of the cleanup: back to the kernel's directory, and the new one destroyed. -/
def spawnCleanupSpace (kernelDirectory : UInt32) (progress : SpawnProgress) :
    KernelProgram M Unit :=
  Program.when (progress.addressSpace ≠ 0) do
    let current ← readMemory platform.pagingCurrentDirectory
    Program.when (current ≠ kernelDirectory) do
      let switched ← onMemory (platform.pagingSwitchAddressSpace kernelDirectory)
      require switched "Failed to restore kernel address space during spawn cleanup."
    let destroyed ← onMemory (platform.pagingDestroyAddressSpace progress.addressSpace)
    require destroyed "Failed to destroy user address space during spawn cleanup."

def spawnCleanupStack (progress : SpawnProgress) : KernelProgram M Unit :=
  if progress.stackMapped then do
    let physical ← onMemory (platform.pagingUnmapPage progress.stackAddress)
    require (physical != 0 && physical == progress.stackFrame)
      "User stack ownership mismatch during spawn cleanup."
    onMemory (platform.pmmFreeBlock physical)
  else Program.when (progress.stackFrame ≠ 0) (onMemory (platform.pmmFreeBlock progress.stackFrame))

def spawnCleanupImage (progress : SpawnProgress) : KernelProgram M Unit := do
  let current ← readMemory platform.pagingCurrentDirectory
  Program.when (progress.addressSpace ≠ 0 ∧ (progress.loaded.isSome ∨ progress.stackMapped) ∧
      current ≠ progress.addressSpace) do
    let switched ← onMemory (platform.pagingSwitchAddressSpace progress.addressSpace)
    require switched "Failed to enter user address space during spawn cleanup."
  match progress.loaded with
  | none => pure ()
  | some (loadedBase, loadedEnd) => do
    let unloaded ← onMemory (platform.elfUnloadImage loadedBase loadedEnd)
    require unloaded "Failed to unload user ELF image during spawn cleanup."

/-- The code after the `cleanup` label. -/
def spawnCleanup (kernelDirectory : UInt32) (progress : SpawnProgress) :
    KernelProgram M Bool := do
  spawnCleanupImage platform progress
  spawnCleanupStack platform progress
  spawnCleanupSpace platform kernelDirectory progress
  pure false

/-- The record of a new process is filled in and becomes active. -/
def recordProcess (processIndex : ℕ) (progress : SpawnProgress) (loadedBase loadedEnd : UInt32) :
    KernelProgram M Unit := do
  let scheduler ← readScheduler id
  updateRecord processIndex fun _ ↦
    { loadedBase := loadedBase
      loadedEnd := loadedEnd
      stackFrame := progress.stackFrame
      stackAddress := progress.stackAddress
      addressSpace := progress.addressSpace
      taskIndex := scheduler.lastAddedTask
      taskId := schedulerTaskId scheduler scheduler.lastAddedTask
      active := true }

/-- The image is loaded: register the task, unless the image covers the stack guard. -/
def spawnRegister (name : Pointer) (kernelDirectory : UInt32) (processIndex : ℕ)
    (guardAddress entry loadedBase loadedEnd : UInt32) (progress : SpawnProgress) :
    KernelProgram M Bool := do
  let guardMapped ← readMemory (platform.pagingIsMapped guardAddress)
  if guardMapped then spawnCleanup platform kernelDirectory progress
  else do
    let switched ← onMemory (platform.pagingSwitchAddressSpace kernelDirectory)
    require switched "Failed to restore kernel address space."
    let added ← schedulerAddUserTaskInSpace platform name entry
      (progress.stackAddress + pageSize) progress.addressSpace
    if added then do
      recordProcess processIndex progress loadedBase loadedEnd
      pure true
    else spawnCleanup platform kernelDirectory progress

/-- The new address space is current: map the stack and load the image. -/
def spawnInSpace (name : Pointer) (image : List UInt8) (kernelDirectory : UInt32)
    (processIndex : ℕ) (guardAddress addressSpace : UInt32) : KernelProgram M Bool := do
  let stackFrame ← onMemory platform.pmmAllocUserBlock
  let stackAddress := guardAddress + pageSize
  let mapped ←
    mapAllocated platform stackAddress stackFrame (pageFlagUser ||| pageFlagWritable)
  let progress : SpawnProgress := ⟨addressSpace, stackAddress, stackFrame, mapped, none⟩
  if mapped then do
    onMemory (platform.clearPage stackAddress)
    let loaded ← onMemory (platform.elfLoadImage image)
    match loaded with
    | none => spawnCleanup platform kernelDirectory progress
    | some (entry, loadedBase, loadedEnd) =>
      spawnRegister platform name kernelDirectory processIndex guardAddress entry loadedBase
        loadedEnd { progress with loaded := some (loadedBase, loadedEnd) }
  else spawnCleanup platform kernelDirectory progress

/-- A record and a stack region are found: create the address space and enter it. -/
def spawnCreate (name : Pointer) (image : List UInt8) (kernelDirectory : UInt32)
    (processIndex : ℕ) (guardAddress : UInt32) : KernelProgram M Bool := do
  let addressSpace ← onMemory platform.pagingCreateAddressSpace
  if addressSpace = 0 then pure false
  else do
    let switched ← onMemory (platform.pagingSwitchAddressSpace addressSpace)
    if switched then
      spawnInSpace platform name image kernelDirectory processIndex guardAddress addressSpace
    else do
      let current ← readMemory platform.pagingCurrentDirectory
      if current = kernelDirectory then do
        let _ ← onMemory (platform.pagingDestroyAddressSpace addressSpace)
        pure false
      else pure false

/-- `user_process_spawn`; the image carries its size. -/
def userProcessSpawn (name image : Pointer) : KernelProgram M Bool := do
  let kernelDirectory ← readMemory platform.pagingKernelDirectory
  let current ← readMemory platform.pagingCurrentDirectory
  match name, image with
  | some name, some image =>
    if image.length = 0 ∨ userProcessImageMaxSize < image.length ∨ current ≠ kernelDirectory then
      pure false
    else do
      let processes ← Program.read Machine.processes
      match (List.range userProcessMax).find? fun index ↦ !(processes.records index).active with
      | none => pure false
      | some processIndex => do
        let random ← nextLayoutRandom platform
        let region ← Program.read
          (findStackRegion platform (random.toNat % userStackRegionCount))
        match region with
        | none => pure false
        | some region =>
          spawnCreate platform (some name) image kernelDirectory processIndex (stackGuard region)
  | _, _ => pure false

end EfesOS.Process
