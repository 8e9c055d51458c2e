import EfesOS.Process.UserProcess

/-!
# System calls

`syscall_dispatch` of `src/kernel/syscall.c` and `ipc_send_from_to` of `src/kernel/ipc.c` with the
wakeup that ends it. Vector 0x80 is an interrupt gate, so a system call runs with interrupts masked
and is one program on the machine. The statistics counters of the dispatcher are left out: no other
modelled code reads them.
-/

set_option autoImplicit false

namespace EfesOS.Kernel

open EfesOS.Foundation EfesOS.Process

variable {M : Type} (platform : Platform M)

abbrev syscallGetTicks : UInt32 := 0

abbrev syscallYield : UInt32 := 1

abbrev syscallWrite : UInt32 := 2

abbrev syscallIpcSend : UInt32 := 3

abbrev syscallIpcReceive : UInt32 := 4

abbrev syscallGetPid : UInt32 := 5

abbrev syscallIpcSendTo : UInt32 := 6

abbrev syscallIpcReceiveWait : UInt32 := 7

abbrev syscallExit : UInt32 := 8

abbrev syscallMaxWrite : UInt32 := 128

abbrev syscallMaxIpc : UInt32 := 64

abbrev syscallEfault : UInt32 := 0xFFFFFFF2

abbrev syscallE2big : UInt32 := 0xFFFFFFFB

abbrev syscallEagain : UInt32 := 0xFFFFFFF5

abbrev syscallEnosys : UInt32 := 0xFFFFFFDA

/-! ### Messages -/

/-- The wakeup of `ipc_send_from_to`: the receiver, or every user task for an open message. -/
def wakeReceivers (receiverId : UInt32) (scheduler : Scheduler) : Scheduler :=
  if receiverId ≠ 0 then (schedulerWakeTaskId receiverId scheduler).2
  else (schedulerWakeUserTasks scheduler).2

/-- The part of `ipc_send_from_to` that runs with interrupts masked. -/
def enqueue (senderId receiverId type : UInt32) (data : Pointer) (length : ℕ) :
    KernelProgram M Bool := do
  let outcome ← Program.read fun machine ↦
    Ipc.ipcSendFromTo senderId receiverId type data length machine.ipc
  Program.change fun machine ↦ { machine with ipc := outcome.2 }
  pure outcome.1

/-- `ipc_send_from_to` where interrupts are already masked, so that nothing comes between. -/
def sendFromTo (senderId receiverId type : UInt32) (data : Pointer) (length : ℕ) :
    KernelProgram M Bool := do
  let sent ← enqueue senderId receiverId type data length
  if sent then do
    changeScheduler (wakeReceivers receiverId)
    pure true
  else pure false

def receiveFor (receiverId : UInt32) (buffers : Ipc.ReceiveBuffers) :
    KernelProgram M (Option Ipc.Delivery) := do
  let outcome ← Program.read fun machine ↦ Ipc.ipcReceiveFor receiverId buffers machine.ipc
  Program.change fun machine ↦ { machine with ipc := outcome.2 }
  pure outcome.1

/-- The arguments with which the system calls receive: every pointer is given. -/
def userBuffers (capacity : UInt32) : Ipc.ReceiveBuffers where
  type := true
  data := true
  capacity := capacity.toNat
  length := true

/-- The little-endian bytes of a word, as they lie in memory. -/
def wordBytes (word : UInt32) : List UInt8 :=
  [word.toUInt8, (word >>> 8).toUInt8, (word >>> 16).toUInt8, (word >>> 24).toUInt8]

/-! ### Frames -/

/-- `user_return_frame_is_valid`. -/
def userReturnFrameIsValid (frame : Frame) (memory : M) : Bool :=
  frame.cs == 0x1B && frame.ds == 0x23 && frame.es == 0x23 && frame.fs == 0x23 &&
    frame.gs == 0x23 && frame.eflags &&& 2 != 0 &&
    frame.eflags &&& (0x3000 ||| 0x4000 ||| 0x20000) == 0 &&
    frame.userStackSelector == 0x23 &&
    pageSize < frame.userStackPointer && frame.userStackPointer < 0xC0000000 &&
    platform.pagingValidateUserRange (frame.userStackPointer - 1) 1 true memory

/-! ### The dispatcher -/

def syscallWriteCall (frame : Frame) : KernelProgram M Frame := do
  let copied ← readMemory (platform.pagingCopyFromUser frame.ebx frame.ecx)
  if syscallMaxWrite < frame.ecx then pure { frame with eax := syscallE2big }
  else
    match copied with
    | none => pure { frame with eax := syscallEfault }
    | some bytes => do
      onMemory (platform.serialWriteN (bytes.take frame.ecx.toNat))
      pure { frame with eax := frame.ecx }

/-- The common end of the two sends: copy the message from the caller and enqueue it. -/
def sendCopied (receiverId type : UInt32) (frame : Frame) : KernelProgram M Frame := do
  let copied ← readMemory (platform.pagingCopyFromUser frame.ecx frame.edx)
  match copied with
  | none => pure { frame with eax := syscallEfault }
  | some bytes => do
    let senderId ← readScheduler schedulerCurrentTaskId
    let sent ← sendFromTo senderId receiverId type (some bytes) frame.edx.toNat
    pure { frame with eax := if sent then frame.edx else syscallEagain }

def ipcSendCall (frame : Frame) : KernelProgram M Frame :=
  if syscallMaxIpc < frame.edx then pure { frame with eax := syscallE2big }
  else sendCopied platform 0 frame.ebx frame

def ipcSendToCall (frame : Frame) : KernelProgram M Frame := do
  let active ← readScheduler (schedulerTaskIdIsActiveUser frame.ebx)
  if syscallMaxIpc < frame.edx then pure { frame with eax := syscallE2big }
  else if active = false then pure { frame with eax := syscallEfault }
  else sendCopied platform frame.ebx frame.esi frame

/-- The checks of both receives on the caller's buffers. -/
def receiveArgumentsValid (frame : Frame) (memory : M) : Bool :=
  frame.ecx ≤ syscallMaxIpc && platform.pagingValidateUserRange frame.ebx frame.ecx true memory &&
    platform.pagingValidateUserRange frame.edx 4 true memory

def receiveArgumentsError (frame : Frame) : UInt32 :=
  if syscallMaxIpc < frame.ecx then syscallE2big else syscallEfault

/-- Hand a received message to the caller. -/
def copyDelivery (delivery : Ipc.Delivery) (frame : Frame) : KernelProgram M Frame := do
  let copied ← onMemory (platform.pagingCopyToUser frame.ebx delivery.data)
  if copied then do
    let typeCopied ←
      onMemory (platform.pagingCopyToUser frame.edx (wordBytes (delivery.type.getD 0)))
    pure { frame with
      eax := if typeCopied then UInt32.ofNat (delivery.length.getD 0) else syscallEfault }
  else pure { frame with eax := syscallEfault }

def ipcReceiveCall (frame : Frame) : KernelProgram M Frame := do
  let valid ← readMemory (receiveArgumentsValid platform frame)
  if valid then do
    let taskId ← readScheduler schedulerCurrentTaskId
    let received ← receiveFor taskId (userBuffers frame.ecx)
    match received with
    | some delivery => copyDelivery platform delivery frame
    | none => do
      let pending ← Program.read fun machine ↦ Ipc.ipcPendingFor taskId machine.ipc
      pure { frame with eax := if pending ≠ 0 then syscallE2big else syscallEagain }
  else pure { frame with eax := receiveArgumentsError frame }

def ipcReceiveWaitCall (frame : Frame) : KernelProgram M Frame := do
  let valid ← readMemory (receiveArgumentsValid platform frame)
  if valid then do
    let taskId ← readScheduler schedulerCurrentTaskId
    let received ← receiveFor taskId (userBuffers frame.ecx)
    match received with
    | some delivery => copyDelivery platform delivery frame
    | none => do
      let pending ← Program.read fun machine ↦ Ipc.ipcPendingFor taskId machine.ipc
      if pending ≠ 0 then pure { frame with eax := syscallE2big }
      else do
        let outcome ← readScheduler schedulerBlockCurrent
        changeScheduler fun _ ↦ outcome.2
        -- A woken task retries the receive in user space.
        if outcome.1 then schedulerOnYield platform { frame with eax := syscallEagain }
        else pure { frame with eax := syscallEagain }
  else pure { frame with eax := receiveArgumentsError frame }

def exitCall (frame : Frame) : KernelProgram M Frame :=
  if frame.fromUser then schedulerOnUserExit platform frame
  else pure { frame with eax := syscallEfault }

/-- The call named by `eax`. -/
def syscallByNumber (frame : Frame) : KernelProgram M Frame :=
  if frame.eax = syscallGetPid then do
    let taskId ← readScheduler schedulerCurrentTaskId
    pure { frame with eax := taskId }
  else if frame.eax = syscallGetTicks then do
    let ticks ← readMemory platform.pitTicks
    pure { frame with eax := ticks }
  else if frame.eax = syscallYield then schedulerOnYield platform frame
  else if frame.eax = syscallWrite then syscallWriteCall platform frame
  else if frame.eax = syscallIpcSend then ipcSendCall platform frame
  else if frame.eax = syscallIpcReceive then ipcReceiveCall platform frame
  else if frame.eax = syscallIpcSendTo then ipcSendToCall platform frame
  else if frame.eax = syscallIpcReceiveWait then ipcReceiveWaitCall platform frame
  else if frame.eax = syscallExit then exitCall platform frame
  else pure { frame with eax := syscallEnosys }

def syscallDispatch (frame : Frame) : KernelProgram M Frame := do
  let valid ← readMemory fun memory ↦ userReturnFrameIsValid platform frame memory &&
    platform.pagingValidateUserExecute frame.eip memory
  if frame.fromUser ∧ valid = false then schedulerOnUserFault platform frame
  else syscallByNumber platform frame

end EfesOS.Kernel
