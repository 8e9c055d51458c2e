import EfesOS.Kernel.Syscall
import EfesOS.Process.Population

/-!
# The messages system calls move

A system call makes at most one call on the message queue (`syscallIpcCall`): a send in the name of
the running task, or a receive for it. `SyscallOutcome` says what a system call leaves apart from
memory, given that call, and `syscallDispatch_ensures` that it does. `traffic` is the message the
call put into the queue or handed over, as the mailbox sees it.
-/

set_option autoImplicit false

namespace EfesOS.Kernel

open EfesOS.Foundation EfesOS.Foundation.Program EfesOS.Process
open EfesOS.Kernel.Ipc (Letter letters Represents)

variable {M : Type}

/-- A message put into the queue, or taken out of it for a task. -/
inductive Traffic where
  | sent (letter : Letter)
  | delivered (taskId : UInt32) (letter : Letter)
  deriving DecidableEq

/-- The message a call on the queue moves. -/
def traffic (ipc : Ipc.Queue) : Ipc.Call → Option Traffic
  | .sendFromTo senderId receiverId type data length =>
    if (Ipc.ipcSendFromTo senderId receiverId type data length ipc).1 then
      some (.sent (Ipc.sentLetter senderId receiverId type data length))
    else none
  | .receiveFor receiverId buffers =>
    if (Ipc.ipcReceiveFor receiverId buffers ipc).1.isSome then
      ((letters ipc).find? (Letter.isFor receiverId)).map (.delivered receiverId)
    else none
  | .purgeReceiver _ | .purgeSender _ | .pendingFor _ => none

/-- The messages a piece of traffic puts into the queue. -/
def Traffic.sentLetters : Option Traffic → List Letter
  | some (.sent letter) => [letter]
  | _ => []

/-- The messages a piece of traffic takes out of it. -/
def Traffic.deliveredLetters : Option Traffic → List Letter
  | some (.delivered _ letter) => [letter]
  | _ => []

theorem perm_cons_eraseP_of_find? {α : Type} {wanted : α → Bool} {items : List α} {item : α}
    (hfound : items.find? wanted = some item) : items.Perm (item :: items.eraseP wanted) := by
  obtain ⟨hmatch, before, after, rfl, hbefore⟩ := List.find?_eq_some_iff_append.mp hfound
  have hskip : ∀ other ∈ before, ¬wanted other = true :=
    fun other hmem ↦ by simpa using hbefore other hmem
  rw [List.eraseP_append_right _ hskip, List.eraseP_cons_of_pos hmatch]
  exact List.perm_middle

variable {ipc : Ipc.Queue}

section

variable (hring : Represents ipc (letters ipc))
include hring

/-- A receive either hands over the first letter for its caller, or changes nothing. -/
theorem ipcReceiveFor_cases (receiverId : UInt32)
    (buffers : Ipc.ReceiveBuffers) :
    (traffic ipc (.receiveFor receiverId buffers) = none ∧
      letters (Ipc.ipcReceiveFor receiverId buffers ipc).2 = letters ipc) ∨
    ∃ letter, traffic ipc (.receiveFor receiverId buffers) = some (.delivered receiverId letter) ∧
      (Ipc.ipcReceiveFor receiverId buffers ipc).1 = some (letter.delivery buffers) ∧
      letter.isFor receiverId = true ∧
      (letters ipc).Perm (letter :: letters (Ipc.ipcReceiveFor receiverId buffers ipc).2) := by
  obtain ⟨hreply, hnext⟩ := Ipc.ipcReceiveFor_refines hring receiverId buffers
  cases hfound : (letters ipc).find? (Letter.isFor receiverId) with
  | none =>
    simp only [Ipc.runCall, Ipc.mailboxCall, hfound] at hreply hnext
    exact .inl ⟨by simp [traffic, hfound], hnext.letters_eq⟩
  | some letter =>
    simp only [Ipc.runCall, Ipc.mailboxCall, hfound] at hreply hnext
    split_ifs at hreply hnext with hfits
    · have hdelivery : (Ipc.ipcReceiveFor receiverId buffers ipc).1 =
          some (letter.delivery buffers) := by simpa using hreply
      refine .inr ⟨letter, ?_, hdelivery, List.find?_some hfound, ?_⟩
      · simp [traffic, hfound, hdelivery]
      · rw [hnext.letters_eq]
        exact perm_cons_eraseP_of_find? hfound
    · have hrefused : (Ipc.ipcReceiveFor receiverId buffers ipc).1 = none := by simpa using hreply
      exact .inl ⟨by simp [traffic, hrefused], hnext.letters_eq⟩

theorem ipcSendFromTo_cases
    (senderId receiverId type : UInt32) (data : Pointer) (length : ℕ) :
    (traffic ipc (.sendFromTo senderId receiverId type data length) = none ∧
      (Ipc.ipcSendFromTo senderId receiverId type data length ipc).2 = ipc) ∨
    (traffic ipc (.sendFromTo senderId receiverId type data length) =
        some (.sent (Ipc.sentLetter senderId receiverId type data length)) ∧
      letters (Ipc.ipcSendFromTo senderId receiverId type data length ipc).2 =
        letters ipc ++ [Ipc.sentLetter senderId receiverId type data length]) := by
  cases hsent : (Ipc.ipcSendFromTo senderId receiverId type data length ipc).1 with
  | false => exact .inl ⟨by simp [traffic, hsent], Ipc.ipcSendFromTo_refused hsent⟩
  | true => exact .inr ⟨by simp [traffic, hsent], Ipc.letters_ipcSendFromTo hring hsent⟩

/-- What is in the queue after a call, with what the call took out, was in it before or was put in
by the call, as often. -/
theorem traffic_subperm (call : Ipc.Call) :
    (Traffic.deliveredLetters (traffic ipc call) ++ letters (Ipc.runCall call ipc).2).Subperm
      (letters ipc ++ Traffic.sentLetters (traffic ipc call)) := by
  have hpurged : ∀ field taskId, (Ipc.mailboxPurge field taskId (letters ipc)).2.Subperm
      (letters ipc ++ []) := by
    intro field taskId
    rw [List.append_nil, Ipc.mailboxPurge]
    split_ifs
    · exact List.Subperm.refl _
    · exact List.filter_sublist.subperm
  cases call with
  | sendFromTo senderId receiverId type data length =>
    rcases ipcSendFromTo_cases hring senderId receiverId type data length with
      ⟨htraffic, hsame⟩ | ⟨htraffic, hletters⟩
    · rw [htraffic, Ipc.runCall, hsame]
      exact (List.append_nil _).symm ▸ List.Subperm.refl _
    · rw [htraffic, Ipc.runCall, hletters]
      exact List.Subperm.refl _
  | receiveFor receiverId buffers =>
    rcases ipcReceiveFor_cases hring receiverId buffers with
      ⟨htraffic, hsame⟩ | ⟨letter, htraffic, -, -, hperm⟩
    · rw [htraffic, Ipc.runCall, hsame]
      exact (List.append_nil _).symm ▸ List.Subperm.refl _
    · rw [htraffic, Ipc.runCall]
      exact (List.append_nil (letters ipc)).symm ▸ hperm.symm.subperm
  | purgeReceiver receiverId =>
    rw [(Ipc.runCall_refines hring (.purgeReceiver receiverId)).2.letters_eq]
    exact hpurged Letter.receiver receiverId
  | purgeSender senderId =>
    rw [(Ipc.runCall_refines hring (.purgeSender senderId)).2.letters_eq]
    exact hpurged Letter.sender senderId
  | pendingFor receiverId => exact (List.append_nil (letters ipc)).symm ▸ List.Subperm.refl _

end

/-! ### What a system call leaves -/

variable (platform : Platform M)

/-- The call on the queue that a system call makes, with its arguments. -/
def syscallIpcCall (frame : Frame) (machine : Machine M) : Option Ipc.Call :=
  let taskId := schedulerCurrentTaskId machine.scheduler
  let copied := platform.pagingCopyFromUser frame.ecx frame.edx machine.memory
  if frame.fromUser ∧ (userReturnFrameIsValid platform frame machine.memory &&
      platform.pagingValidateUserExecute frame.eip machine.memory) = false then none
  else if frame.eax = syscallIpcSend then
    if syscallMaxIpc < frame.edx then none
    else copied.map fun bytes ↦ .sendFromTo taskId 0 frame.ebx (some bytes) frame.edx.toNat
  else if frame.eax = syscallIpcSendTo then
    if syscallMaxIpc < frame.edx then none
    else if schedulerTaskIdIsActiveUser frame.ebx machine.scheduler = false then none
    else copied.map fun bytes ↦
      .sendFromTo taskId frame.ebx frame.esi (some bytes) frame.edx.toNat
  else if frame.eax = syscallIpcReceive ∨ frame.eax = syscallIpcReceiveWait then
    if receiveArgumentsValid platform frame machine.memory then
      some (.receiveFor taskId (userBuffers frame.ecx))
    else none
  else none

theorem wakeReceivers_wakes (receiverId : UInt32) (scheduler : Scheduler) :
    Wakes scheduler (wakeReceivers receiverId scheduler) := by
  unfold wakeReceivers
  split_ifs
  · exact schedulerWakeTaskId_wakes receiverId scheduler
  · exact wakeUserTasksIn_wakes _ scheduler

/-- What a system call leaves apart from memory, given the call on the queue it makes. -/
inductive SyscallOutcome (before : Machine Unit) : Option Ipc.Call → Machine Unit → Prop where
  | unchanged : SyscallOutcome before none before
  | yielded (frame resumed : Frame) (after : Machine Unit)
      (hresumes : Resumption frame true before resumed after) : SyscallOutcome before none after
  | ended (frame resumed : Frame) (after : Machine Unit)
      (hends : Ending frame before resumed after) : SyscallOutcome before none after
  | sends (receiverId type : UInt32) (data : Pointer) (length : ℕ) (after : Scheduler)
      (hreceiver : receiverId = 0 ∨ schedulerTaskIdIsActiveUser receiverId before.scheduler = true)
      (hafter : after = if (Ipc.ipcSendFromTo (schedulerCurrentTaskId before.scheduler) receiverId
        type data length before.ipc).1 then wakeReceivers receiverId before.scheduler
        else before.scheduler) :
      SyscallOutcome before
        (some (.sendFromTo (schedulerCurrentTaskId before.scheduler) receiverId type data length))
        { before with
          scheduler := after
          ipc := (Ipc.ipcSendFromTo (schedulerCurrentTaskId before.scheduler) receiverId type data
            length before.ipc).2 }
  | receives (buffers : Ipc.ReceiveBuffers) :
      SyscallOutcome before
        (some (.receiveFor (schedulerCurrentTaskId before.scheduler) buffers))
        { before with
          ipc := (Ipc.ipcReceiveFor (schedulerCurrentTaskId before.scheduler) buffers
            before.ipc).2 }
  | waits (buffers : Ipc.ReceiveBuffers) (frame resumed : Frame) (after : Machine Unit)
      (hnone : (Ipc.ipcReceiveFor (schedulerCurrentTaskId before.scheduler) buffers
        before.ipc).1 = none)
      (hpending : Ipc.ipcPendingFor (schedulerCurrentTaskId before.scheduler)
        (Ipc.ipcReceiveFor (schedulerCurrentTaskId before.scheduler) buffers before.ipc).2 = 0)
      (hresumes : Resumption frame true
        { before with
          scheduler := (schedulerBlockCurrent before.scheduler).2
          ipc := (Ipc.ipcReceiveFor (schedulerCurrentTaskId before.scheduler) buffers
            before.ipc).2 } resumed after) :
      SyscallOutcome before
        (some (.receiveFor (schedulerCurrentTaskId before.scheduler) buffers)) after

theorem sendCopied_outcome (receiverId type : UInt32) (frame : Frame) (machine : Machine M)
    (hreceiver : receiverId = 0 ∨
      schedulerTaskIdIsActiveUser receiverId machine.scheduler = true) :
    Ensures (sendCopied platform receiverId type frame) machine fun _ next ↦
      SyscallOutcome machine.control
        ((platform.pagingCopyFromUser frame.ecx frame.edx machine.memory).map fun bytes ↦
          .sendFromTo (schedulerCurrentTaskId machine.scheduler) receiverId type (some bytes)
            frame.edx.toNat) next.control := by
  simp only [sendCopied, readMemory, ensures_bind, ensures_read]
  cases platform.pagingCopyFromUser frame.ecx frame.edx machine.memory with
  | none => exact (ensures_pure _).mpr .unchanged
  | some bytes =>
    simp only [sendFromTo, enqueue, readScheduler, changeScheduler, ensures_bind, ensures_read,
      ensures_change, ensures_ite, ensures_pure]
    refine ⟨fun hsent ↦ ?_, fun hrefused ↦ ?_⟩
    · exact .sends receiverId type (some bytes) frame.edx.toNat _ hreceiver (if_pos hsent).symm
    · exact .sends receiverId type (some bytes) frame.edx.toNat _ hreceiver (if_neg hrefused).symm

/-- Handing a received message to the caller is a matter of memory. -/
theorem copyDelivery_control {control : Machine Unit} (delivery : Ipc.Delivery) (frame : Frame) :
    Keeps (HasControl control) (copyDelivery platform delivery frame) := by
  refine (keeps_onMemory _).bind fun _ ↦ Keeps.ite ?_ (keeps_pure _)
  exact (keeps_onMemory _).bind fun _ ↦ keeps_pure _

variable {machine : Machine M}

/-- The receive of both receiving calls, and what follows it when it finds nothing. -/
theorem receive_outcome (frame : Frame) {rest : UInt32 → KernelProgram M Frame}
    (hrest : (Ipc.ipcReceiveFor (schedulerCurrentTaskId machine.scheduler) (userBuffers frame.ecx)
        machine.ipc).1 = none →
      Ensures (rest (schedulerCurrentTaskId machine.scheduler))
        { machine with
          ipc := (Ipc.ipcReceiveFor (schedulerCurrentTaskId machine.scheduler)
            (userBuffers frame.ecx) machine.ipc).2 }
        fun _ next ↦ SyscallOutcome machine.control
          (some (.receiveFor (schedulerCurrentTaskId machine.scheduler) (userBuffers frame.ecx)))
          next.control) :
    Ensures (do
      let valid ← readMemory (receiveArgumentsValid platform frame)
      if valid then do
        let taskId ← readScheduler schedulerCurrentTaskId
        let received ← receiveFor taskId (userBuffers frame.ecx)
        match received with
        | some delivery => copyDelivery platform delivery frame
        | none => rest taskId
      else pure { frame with eax := receiveArgumentsError frame }) machine fun _ next ↦
      SyscallOutcome machine.control
        (if receiveArgumentsValid platform frame machine.memory then
          some (.receiveFor (schedulerCurrentTaskId machine.scheduler) (userBuffers frame.ecx))
        else none) next.control := by
  simp only [readMemory, ensures_bind, ensures_read, ensures_ite, ensures_pure]
  refine ⟨fun hvalid ↦ ?_, fun hinvalid ↦ ?_⟩
  · rw [if_pos hvalid]
    simp only [readScheduler, receiveFor, ensures_bind, ensures_read, ensures_change, ensures_pure]
    cases hdelivery : (Ipc.ipcReceiveFor (schedulerCurrentTaskId machine.scheduler)
        (userBuffers frame.ecx) machine.ipc).1 with
    | some delivery =>
      refine (copyDelivery_control platform delivery frame _ rfl).mono fun _ next hnext ↦ ?_
      rw [show next.control = _ from hnext]
      exact .receives (userBuffers frame.ecx)
    | none => exact hrest hdelivery
  · rw [if_neg hinvalid]
    exact .unchanged

theorem ipcReceiveCall_outcome (frame : Frame) (machine : Machine M) :
    Ensures (ipcReceiveCall platform frame) machine fun _ next ↦
      SyscallOutcome machine.control
        (if receiveArgumentsValid platform frame machine.memory then
          some (.receiveFor (schedulerCurrentTaskId machine.scheduler) (userBuffers frame.ecx))
        else none) next.control := by
  refine receive_outcome platform frame fun _ ↦ ?_
  simp only [ensures_bind, ensures_read, ensures_pure]
  exact .receives (userBuffers frame.ecx)

theorem schedulerBlockCurrent_refused {scheduler : Scheduler}
    (hrefused : (schedulerBlockCurrent scheduler).1 = false) :
    (schedulerBlockCurrent scheduler).2 = scheduler := by
  unfold schedulerBlockCurrent at hrefused ⊢
  split_ifs at hrefused ⊢
  rfl

theorem ipcReceiveWaitCall_outcome (frame : Frame) (machine : Machine M) :
    Ensures (ipcReceiveWaitCall platform frame) machine fun _ next ↦
      SyscallOutcome machine.control
        (if receiveArgumentsValid platform frame machine.memory then
          some (.receiveFor (schedulerCurrentTaskId machine.scheduler) (userBuffers frame.ecx))
        else none) next.control := by
  refine receive_outcome platform frame fun hnone ↦ ?_
  simp only [readScheduler, changeScheduler, ensures_bind, ensures_read, ensures_change,
    ensures_ite, ensures_pure, ne_eq, not_not]
  refine ⟨fun _ ↦ .receives (userBuffers frame.ecx), fun hpending ↦
    ⟨fun _ ↦ ?_, fun hrefused ↦ ?_⟩⟩
  · exact (scheduleFromFrame_ensures platform _ true rfl).mono fun resumed next hresumes ↦
      .waits (userBuffers frame.ecx) _ resumed next.control hnone hpending hresumes
  · have hsame := schedulerBlockCurrent_refused (by simpa using hrefused)
    rw [hsame]
    exact .receives (userBuffers frame.ecx)

variable {frame : Frame}

theorem syscallIpcCall_of_refused
    (hrefused : frame.fromUser ∧ (userReturnFrameIsValid platform frame machine.memory &&
      platform.pagingValidateUserExecute frame.eip machine.memory) = false) :
    syscallIpcCall platform frame machine = none :=
  if_pos hrefused

theorem syscallIpcCall_of_other
    (hother : frame.eax ≠ syscallIpcSend ∧ frame.eax ≠ syscallIpcSendTo ∧
      frame.eax ≠ syscallIpcReceive ∧ frame.eax ≠ syscallIpcReceiveWait) :
    syscallIpcCall platform frame machine = none := by
  simp [syscallIpcCall, hother]

/-- A call with another number does not touch the queue. -/
theorem syscallByNumber_other (machine : Machine M)
    (hother : frame.eax ≠ syscallIpcSend ∧ frame.eax ≠ syscallIpcSendTo ∧
      frame.eax ≠ syscallIpcReceive ∧ frame.eax ≠ syscallIpcReceiveWait) :
    Ensures (syscallByNumber platform frame) machine fun _ next ↦
      SyscallOutcome machine.control none next.control := by
  have hcontrol : HasControl machine.control machine := rfl
  have hunchanged : ∀ {program : KernelProgram M Frame},
      Keeps (HasControl machine.control) program →
      Ensures program machine fun _ next ↦ SyscallOutcome machine.control none next.control := by
    intro program hkeeps
    refine (hkeeps machine hcontrol).mono fun _ next hnext ↦ ?_
    rw [show next.control = _ from hnext]
    exact .unchanged
  simp only [syscallByNumber, if_neg hother.1, if_neg hother.2.1, if_neg hother.2.2.1,
    if_neg hother.2.2.2, ensures_ite]
  refine ⟨fun _ ↦ hunchanged ((keeps_read _).bind fun _ ↦ keeps_pure _), fun _ ↦
    ⟨fun _ ↦ hunchanged ((keeps_read _).bind fun _ ↦ keeps_pure _), fun _ ↦ ⟨fun _ ↦ ?_,
      fun _ ↦ ⟨fun _ ↦ hunchanged ?_, fun _ ↦ ⟨fun _ ↦ ?_, fun _ ↦ hunchanged (keeps_pure _)⟩⟩⟩⟩⟩
  · exact (scheduleFromFrame_ensures platform frame true hcontrol).mono
      fun resumed next hresumes ↦ .yielded frame resumed next.control hresumes
  · refine (keeps_read _).bind fun copied ↦ Keeps.ite (keeps_pure _) ?_
    cases copied with
    | none => exact keeps_pure _
    | some bytes => exact (keeps_onMemory _).bind fun _ ↦ keeps_pure _
  · unfold exitCall
    split_ifs
    · exact (endUserTask_ensures platform _ frame hcontrol).mono
        fun resumed next hends ↦ .ended frame resumed next.control hends
    · exact hunchanged (keeps_pure _)

theorem syscallByNumber_outcome (frame : Frame) (machine : Machine M)
    (hreturns : ¬(frame.fromUser ∧ (userReturnFrameIsValid platform frame machine.memory &&
      platform.pagingValidateUserExecute frame.eip machine.memory) = false)) :
    Ensures (syscallByNumber platform frame) machine fun _ next ↦
      SyscallOutcome machine.control (syscallIpcCall platform frame machine) next.control := by
  by_cases hsend : frame.eax = syscallIpcSend
  · have hprogram : syscallByNumber platform frame = ipcSendCall platform frame := by
      rw [syscallByNumber, hsend]
      rfl
    rw [hprogram, syscallIpcCall, if_neg hreturns, if_pos hsend, ipcSendCall, ensures_ite]
    refine ⟨fun hlong ↦ ?_, fun hshort ↦ ?_⟩
    · rw [if_pos hlong, ensures_pure]
      exact .unchanged
    · rw [if_neg hshort]
      exact sendCopied_outcome platform 0 frame.ebx frame machine (.inl rfl)
  by_cases hsendTo : frame.eax = syscallIpcSendTo
  · have hprogram : syscallByNumber platform frame = ipcSendToCall platform frame := by
      rw [syscallByNumber, hsendTo]
      rfl
    rw [hprogram, syscallIpcCall, if_neg hreturns, if_neg hsend, if_pos hsendTo]
    simp only [ipcSendToCall, readScheduler, ensures_bind, ensures_read, ensures_ite, ensures_pure]
    refine ⟨fun hlong ↦ ?_, fun hshort ↦ ⟨fun hended ↦ ?_, fun hactive ↦ ?_⟩⟩
    · rw [if_pos hlong]
      exact .unchanged
    · rw [if_neg hshort, if_pos hended]
      exact .unchanged
    · rw [if_neg hshort, if_neg hactive]
      exact sendCopied_outcome platform frame.ebx frame.esi frame machine
        (.inr (by simpa using hactive))
  by_cases hreceive : frame.eax = syscallIpcReceive
  · have hprogram : syscallByNumber platform frame = ipcReceiveCall platform frame := by
      rw [syscallByNumber, hreceive]
      rfl
    rw [hprogram, syscallIpcCall, if_neg hreturns, if_neg hsend, if_neg hsendTo,
      if_pos (.inl hreceive)]
    exact ipcReceiveCall_outcome platform frame machine
  by_cases hwait : frame.eax = syscallIpcReceiveWait
  · have hprogram : syscallByNumber platform frame = ipcReceiveWaitCall platform frame := by
      rw [syscallByNumber, hwait]
      rfl
    rw [hprogram, syscallIpcCall, if_neg hreturns, if_neg hsend, if_neg hsendTo,
      if_pos (.inr hwait)]
    exact ipcReceiveWaitCall_outcome platform frame machine
  · have hother : frame.eax ≠ syscallIpcSend ∧ frame.eax ≠ syscallIpcSendTo ∧
        frame.eax ≠ syscallIpcReceive ∧ frame.eax ≠ syscallIpcReceiveWait :=
      ⟨hsend, hsendTo, hreceive, hwait⟩
    rw [syscallIpcCall_of_other platform hother]
    exact syscallByNumber_other platform machine hother

/-- A system call leaves what `SyscallOutcome` says of the call it makes on the queue. -/
theorem syscallDispatch_ensures (frame : Frame) (machine : Machine M) :
    Ensures (syscallDispatch platform frame) machine fun _ next ↦
      SyscallOutcome machine.control (syscallIpcCall platform frame machine) next.control := by
  have hcontrol : HasControl machine.control machine := rfl
  simp only [syscallDispatch, readMemory, ensures_bind, ensures_read, ensures_ite]
  refine ⟨fun hrefused ↦ ?_, fun hreturns ↦ syscallByNumber_outcome platform frame machine hreturns⟩
  rw [syscallIpcCall_of_refused platform hrefused]
  exact (endUserTask_ensures platform _ frame hcontrol).mono
    fun resumed next hends ↦ .ended frame resumed next.control hends

end EfesOS.Kernel
