import EfesOS.Kernel.Identity

/-!
# No message waits for a sleeping task

A user task sleeps only in `IPC_RECEIVE_WAIT`, after it found no message it could receive. A message
is put in the queue with interrupts masked and its receivers are woken afterwards; a system call
does both in one go, kernel code can be preempted in between. Over every interleaving of interrupts,
system calls, process starts and kernel sends, a blocked user task then has no message waiting for
it, unless a kernel send that will wake it is still under way.

`SystemStep` says what the system can do. `Calm` is the invariant: what holds of the machine between
steps does (`Settled`), and every message a sleeping task could receive belongs to a send under way.
`Calm.systemStep` keeps it in one step and `no_lost_wakeup` draws the conclusion for every reachable
state.
-/

set_option autoImplicit false

namespace EfesOS.Kernel

open EfesOS.Foundation EfesOS.Foundation.Program EfesOS.Process
open EfesOS.Kernel.Ipc (Letter letters Represents)

variable {M : Type} (platform : Platform M)

section Invariant

/-! ### Who sleeps -/

variable {scheduler : Scheduler} {receiverId : UInt32}

/-- A user task that is still blocked after a wakeup is not one the message is for. -/
theorem blocked_of_wakeReceivers (hsound : Sound scheduler) {index : ℕ}
    (huser : ((wakeReceivers receiverId scheduler).tasks index).mode = .user)
    (hblocked : ((wakeReceivers receiverId scheduler).tasks index).state = .blocked) :
    receiverId ≠ 0 ∧ (scheduler.tasks index).taskId ≠ receiverId := by
  have hsame := (wakeReceivers_wakes receiverId scheduler).eq_of_blocked hblocked
  rw [hsame] at huser
  have hlive : (scheduler.tasks index).state ≠ .terminated := by
    rw [← hsame, hblocked]
    simp
  unfold wakeReceivers at hblocked
  by_cases hopen : receiverId ≠ 0
  · rw [if_pos hopen] at hblocked
    exact ⟨hopen, fun hid ↦ schedulerWakeTaskId_runs hsound huser hlive hid hblocked⟩
  · rw [if_neg hopen] at hblocked
    obtain ⟨-, -, hone, hlt⟩ := (hsound.fits index).live_user huser hlive
    have hmem : index ∈ List.range' 1 (scheduler.taskCount - 1) :=
      List.mem_range'_1.mpr ⟨hone, by omega⟩
    exact absurd hblocked (wakeUserTasksIn_runs _ hsound hmem huser hlive)

/-- A user task that sleeps after a change slept before it, under the same id. -/
def SleptBefore (before after : Scheduler) : Prop :=
  ∀ index, (after.tasks index).mode = .user → (after.tasks index).state = .blocked →
    (before.tasks index).mode = .user ∧ (before.tasks index).state = .blocked ∧
      (before.tasks index).taskId = (after.tasks index).taskId

variable {before after : Scheduler}

theorem SleptBefore.of_sameStates (hsame : SameStates before after) : SleptBefore before after := by
  intro index huser hblocked
  have htask := hsame index
  simp only [Task.identity, Prod.mk.injEq] at htask
  obtain ⟨hmode, hid, hstate⟩ := htask
  exact ⟨hmode.symm.trans huser, hstate.symm.trans hblocked, hid.symm⟩

theorem SleptBefore.trans {middle : Scheduler} (hfirst : SleptBefore before middle)
    (hsecond : SleptBefore middle after) : SleptBefore before after := by
  intro index huser hblocked
  obtain ⟨huserMiddle, hblockedMiddle, hid⟩ := hsecond index huser hblocked
  obtain ⟨huserBefore, hblockedBefore, hidBefore⟩ := hfirst index huserMiddle hblockedMiddle
  exact ⟨huserBefore, hblockedBefore, hidBefore.trans hid⟩

/-- Only one task is changed, and it does not sleep after the change. -/
theorem SleptBefore.of_update {index : ℕ} {task : Task}
    (htasks : after.tasks = Function.update before.tasks index task)
    (hawake : task.state ≠ .blocked) : SleptBefore before after := by
  intro other huser hblocked
  rw [htasks, Function.update_apply] at huser hblocked ⊢
  split_ifs at huser hblocked ⊢
  · exact absurd hblocked hawake
  · exact ⟨huser, hblocked, rfl⟩

variable {frame resumed : Frame} {force : Bool} {start next : Machine Unit}

theorem SleptBefore.ending (hends : Ending frame start resumed next) :
    SleptBefore start.scheduler next.scheduler := by
  cases hends with
  | ignored hnot => exact .of_sameStates fun _ ↦ rfl
  | ended resumed after hstarted hcurrent huser hid hschedules =>
    have hended : SleptBefore start.scheduler (terminateCurrent start.scheduler) :=
      .of_update rfl (by simp)
    exact hended.trans (.of_sameStates (Schedules.sameStates hschedules))

theorem SleptBefore.resumption (hresumes : Resumption frame force start resumed next) :
    SleptBefore start.scheduler next.scheduler := by
  cases hresumes with
  | idle hnot => exact .of_sameStates fun _ ↦ rfl
  | scheduled resumed after hstarted hschedules =>
    exact .of_sameStates (Schedules.sameStates hschedules)
  | faulted resumed after huser hstate hending =>
    exact SleptBefore.trans (.of_sameStates (sameStates_reaped start.scheduler)) (.ending hending)

/-- A task is added awake. -/
theorem SleptBefore.addition {trampoline : UInt32} {task : Task} {added : Bool}
    (hadds : Addition trampoline task before added after) (hawake : task.state ≠ .blocked) :
    SleptBefore before after := by
  rcases hadds.placed with rfl | ⟨slot, placed, -, htasks, -, -, hplaced⟩
  · exact .of_sameStates fun _ ↦ rfl
  · refine .of_update htasks ?_
    rcases hplaced with ⟨name, rfl⟩ | ⟨name, taskId, frames, rfl⟩
    · simp [clearedTask]
    · exact hawake

theorem SleptBefore.spawning {trampoline : UInt32} {spawned : Bool}
    (hspawning : Spawning trampoline start spawned next) :
    SleptBefore start.scheduler next.scheduler := by
  cases hspawning with
  | adds entry userStackTop addressSpace after hadds => exact .addition hadds (by simp [userTask])

/-! ### The invariant -/

/-- Every letter a sleeping user task could receive belongs to a send that is still under way. -/
def Covered (scheduler : Scheduler) (mailbox : List Letter) (sending : List UInt32) : Prop :=
  ∀ index, (scheduler.tasks index).mode = .user → (scheduler.tasks index).state = .blocked →
    ∀ letter ∈ mailbox, letter.isFor (scheduler.tasks index).taskId → letter.receiver ∈ sending

variable {mailbox : List Letter} {sending : List UInt32}

/-- Fewer sleeping tasks and fewer letters are still covered. -/
theorem Covered.mono {fewer : List Letter} (hcovered : Covered before mailbox sending)
    (hletters : ∀ letter ∈ fewer, letter ∈ mailbox) (hslept : SleptBefore before after) :
    Covered after fewer sending := by
  intro index huser hblocked letter hmem hfor
  obtain ⟨huserBefore, hblockedBefore, hid⟩ := hslept index huser hblocked
  exact hcovered index huserBefore hblockedBefore letter (hletters letter hmem) (hid ▸ hfor)

structure Calm (machine : Machine Unit) (sending : List UInt32) : Prop where
  settled : Settled machine
  covered : Covered machine.scheduler (letters machine.ipc) sending

variable {machine : Machine Unit}

/-- A change that sends nothing and puts no task to sleep. -/
theorem Calm.conserves (hcalm : Calm machine sending)
    (hnext : Settled next ∧ Conserves none machine next)
    (hslept : SleptBefore machine.scheduler next.scheduler) : Calm next sending :=
  ⟨hnext.1, hcalm.covered.mono (fun _ hmem ↦ hnext.2.subset hmem) hslept⟩

theorem Calm.resumption (hcalm : Calm machine sending)
    (hresumes : Resumption frame force machine resumed next) : Calm next sending :=
  hcalm.conserves (hcalm.settled.resumption hresumes) (.resumption hresumes)

theorem Calm.ending (hcalm : Calm machine sending)
    (hends : Ending frame machine resumed next) : Calm next sending :=
  hcalm.conserves (hcalm.settled.ending hends) (.ending hends)

/-- Once the receivers of a message are woken, its send no longer has to cover it. -/
theorem Covered.wake (hsound : Sound scheduler)
    (hcovered : Covered scheduler mailbox (receiverId :: sending)) :
    Covered (wakeReceivers receiverId scheduler) mailbox sending := by
  intro index huser hblocked letter hmem hfor
  obtain ⟨hopen, hother⟩ := blocked_of_wakeReceivers hsound huser hblocked
  have hsame := (wakeReceivers_wakes receiverId scheduler).eq_of_blocked hblocked
  rw [hsame] at huser hblocked hfor
  obtain ⟨hid, -⟩ := (hsound.fits index).live_user huser (by rw [hblocked]; simp)
  have hreceiver := hcovered index huser hblocked letter hmem hfor
  -- The letter is open or for this task; the woken receiver is neither.
  rcases List.mem_cons.mp hreceiver with heq | hmem
  · simp only [Letter.isFor, Bool.or_eq_true, beq_iff_eq, heq] at hfor
    rcases hfor with (hzero | hzero) | hsame
    · exact absurd hzero hid
    · exact absurd hzero hopen
    · exact absurd hsame.symm hother
  · exact hmem

/-- A new letter is covered by the send that brought it. -/
theorem Covered.push (hcovered : Covered scheduler mailbox sending) (letter : Letter) :
    Covered scheduler (mailbox ++ [letter]) (letter.receiver :: sending) := by
  intro index huser hblocked other hmem hfor
  rcases List.mem_append.mp hmem with hold | hnew
  · exact List.mem_cons_of_mem _ (hcovered index huser hblocked other hold hfor)
  · rw [List.mem_singleton.mp hnew]
    exact List.mem_cons_self

/-- A send that is accepted, before its receivers are woken. -/
theorem Calm.enqueue (hcalm : Calm machine sending) {senderId type : UInt32} {data : Pointer}
    {length : ℕ}
    (hsent : (Ipc.ipcSendFromTo senderId receiverId type data length machine.ipc).1 = true) :
    Calm
      { machine with
        ipc := (Ipc.ipcSendFromTo senderId receiverId type data length machine.ipc).2 }
      (receiverId :: sending) where
  settled := hcalm.settled.ipcCall (.sendFromTo senderId receiverId type data length)
  covered := by
    rw [Ipc.letters_ipcSendFromTo hcalm.settled.ring hsent]
    exact hcalm.covered.push (Ipc.sentLetter senderId receiverId type data length)

theorem Calm.wake (hcalm : Calm machine (receiverId :: sending)) :
    Calm { machine with scheduler := wakeReceivers receiverId machine.scheduler } sending where
  settled := (hcalm.settled.adjusts (wakeReceivers_wakes receiverId _).adjusts).1
  covered := hcalm.covered.wake hcalm.settled.ready.sound

theorem Calm.receive (hcalm : Calm machine sending) (taskId : UInt32)
    (buffers : Ipc.ReceiveBuffers) :
    Calm { machine with ipc := (Ipc.ipcReceiveFor taskId buffers machine.ipc).2 } sending where
  settled := hcalm.settled.ipcCall (.receiveFor taskId buffers)
  covered := hcalm.covered.mono (fun _ hmem ↦
    Ipc.mem_letters_of_mem_runCall hcalm.settled.ring (.receiveFor taskId buffers) rfl hmem)
    (.of_sameStates fun _ ↦ rfl)

/-- A task goes to sleep only when no letter is for it. -/
theorem Calm.block (hcalm : Calm machine sending)
    (hpending : Ipc.ipcPendingFor (schedulerCurrentTaskId machine.scheduler) machine.ipc = 0) :
    Calm { machine with scheduler := (schedulerBlockCurrent machine.scheduler).2 } sending := by
  refine ⟨(hcalm.settled.adjusts (adjusts_schedulerBlockCurrent _)).1, ?_⟩
  intro index huser hblocked letter hmem hfor
  unfold schedulerBlockCurrent at huser hblocked hfor
  split_ifs at huser hblocked hfor with hrefused
  · exact hcalm.covered index huser hblocked letter hmem hfor
  · rw [tasks_updateTask] at huser hblocked hfor
    split_ifs at huser hblocked hfor
    · have hnone := Ipc.ipcPendingFor_eq_zero_iff.mp hpending letter hmem
      rw [hcalm.settled.currentTaskId] at hnone
      cases hnone.symm.trans hfor
    · exact hcalm.covered index huser hblocked letter hmem hfor

theorem Calm.syscall {call : Option Ipc.Call} (hcalm : Calm machine sending)
    (houtcome : SyscallOutcome machine call next) : Calm next sending := by
  cases houtcome with
  | unchanged => exact hcalm
  | yielded frame resumed _ hresumes => exact hcalm.resumption hresumes
  | ended frame resumed _ hends => exact hcalm.ending hends
  | sends receiverId type data length woken hreceiver hwoken =>
    split_ifs at hwoken with hsent
    · rw [hwoken]
      exact (hcalm.enqueue hsent).wake
    · rw [hwoken, Ipc.ipcSendFromTo_refused (by simpa using hsent)]
      exact hcalm
  | receives buffers => exact hcalm.receive _ buffers
  | waits buffers frame resumed _ hnone hpending hresumes =>
    exact ((hcalm.receive _ buffers).block hpending).resumption hresumes

/-! ### The running system -/

/-- The machine, with the receivers of the kernel sends that have queued their message and not yet
woken anyone. -/
structure System (M : Type) where
  machine : Machine M
  sending : List UInt32

/-- What can happen once the scheduler runs. User code and kernel code outside the model may change
memory in any way. -/
inductive SystemStep : System M → System M → Prop where
  | memory (system : System M) (memory : M) :
      SystemStep system { system with machine := { system.machine with memory := memory } }
  | timer (system : System M) (frame resumed : Frame) (next : Machine M)
      (hrun : schedulerOnTimer platform frame system.machine = .ok (resumed, next)) :
      SystemStep system { system with machine := next }
  | yield (system : System M) (frame resumed : Frame) (next : Machine M)
      (hrun : schedulerOnYield platform frame system.machine = .ok (resumed, next)) :
      SystemStep system { system with machine := next }
  | fault (system : System M) (frame resumed : Frame) (next : Machine M)
      (hrun : schedulerOnUserFault platform frame system.machine = .ok (resumed, next)) :
      SystemStep system { system with machine := next }
  | syscall (system : System M) (frame resumed : Frame) (next : Machine M)
      (hrun : syscallDispatch platform frame system.machine = .ok (resumed, next)) :
      SystemStep system { system with machine := next }
  | spawn (system : System M) (name image : Pointer) (spawned : Bool) (next : Machine M)
      (hrun : userProcessSpawn platform name image system.machine = .ok (spawned, next)) :
      SystemStep system { system with machine := next }
  | enqueue (system : System M) (senderId receiverId type : UInt32) (data : Pointer) (length : ℕ)
      (hsent : (Ipc.ipcSendFromTo senderId receiverId type data length
        system.machine.ipc).1 = true) :
      SystemStep system
        { machine := { system.machine with
            ipc := (Ipc.ipcSendFromTo senderId receiverId type data length system.machine.ipc).2 }
          sending := receiverId :: system.sending }
  | wake (system : System M) (receiverId : UInt32) (hsending : receiverId ∈ system.sending) :
      SystemStep system
        { machine := { system.machine with
            scheduler := wakeReceivers receiverId system.machine.scheduler }
          sending := system.sending.erase receiverId }

theorem Calm.of_mem (hcalm : Calm machine sending) (hmem : receiverId ∈ sending) :
    Calm machine (receiverId :: sending.erase receiverId) where
  settled := hcalm.settled
  covered := fun index huser hblocked letter hletter hfor ↦
    (List.perm_cons_erase hmem).mem_iff.mp
      (hcalm.covered index huser hblocked letter hletter hfor)

/-- One step of the system. -/
theorem Calm.systemStep {system next : System M} (hstep : SystemStep platform system next)
    (hcalm : Calm system.machine.control system.sending) :
    Calm next.machine.control next.sending := by
  cases hstep with
  | memory memory => exact hcalm
  | timer frame resumed next hrun =>
    exact hcalm.resumption (scheduleFromFrame_ensures platform frame false rfl resumed next hrun)
  | yield frame resumed next hrun =>
    exact hcalm.resumption (scheduleFromFrame_ensures platform frame true rfl resumed next hrun)
  | fault frame resumed next hrun =>
    exact hcalm.ending (endUserTask_ensures platform _ frame rfl resumed next hrun)
  | syscall frame resumed next hrun =>
    exact hcalm.syscall (syscallDispatch_ensures platform frame _ resumed next hrun)
  | spawn name image spawned next hrun =>
    have hspawning := userProcessSpawn_ensures platform name image _ spawned next hrun
    exact hcalm.conserves (hcalm.settled.spawning hspawning) (.spawning hspawning)
  | enqueue senderId receiverId type data length hsent => exact hcalm.enqueue hsent
  | wake receiverId hsending => exact (hcalm.of_mem hsending).wake

/-! ### Every reachable state -/

/-- The states of the machine while `kernel_main` sets up, from `scheduler_init` and `ipc_init`
on. -/
inductive Setup : Machine M → Prop where
  | init (machine : Machine M) (kernelDirectory : UInt32) :
      Setup { machine with
        scheduler := schedulerInit kernelDirectory
        ipc := Ipc.ipcInit machine.ipc }
  | memory {machine : Machine M} (memory : M) (hsetup : Setup machine) :
      Setup { machine with memory := memory }
  | ipc {machine : Machine M} (call : Ipc.Call) (hsetup : Setup machine) :
      Setup { machine with ipc := (Ipc.runCall call machine.ipc).2 }
  | addTask {machine next : Machine M} (name : Pointer) (entry : UInt32) (added : Bool)
      (hrun : schedulerAddTask platform name entry machine = .ok (added, next))
      (hsetup : Setup machine) : Setup next
  | spawn {machine next : Machine M} (name image : Pointer) (spawned : Bool)
      (hrun : userProcessSpawn platform name image machine = .ok (spawned, next))
      (hsetup : Setup machine) : Setup next
  | setPriority {machine : Machine M} (index : ℕ) (priority : UInt32) (hsetup : Setup machine) :
      Setup { machine with
        scheduler := (schedulerSetPriority index priority machine.scheduler).2 }
  | blockTask {machine : Machine M} (index : ℕ) (hsetup : Setup machine) :
      Setup { machine with scheduler := (schedulerBlockTask index machine.scheduler).2 }
  | wakeTask {machine : Machine M} (index : ℕ) (hsetup : Setup machine) :
      Setup { machine with scheduler := (schedulerWakeTask index machine.scheduler).2 }

/-- The states of the system from `scheduler_start` on. `kernel_main` panics before it if a task is
blocked. -/
inductive Reachable : System M → Prop where
  | start {machine : Machine M} (hsetup : Setup platform machine)
      (hawake : schedulerBlockedCount machine.scheduler = 0) :
      Reachable { machine := { machine with scheduler := schedulerStart machine.scheduler },
                  sending := [] }
  | step {system next : System M} (hreachable : Reachable system)
      (hstep : SystemStep platform system next) : Reachable next

theorem Setup.settled {machine : Machine M} (hsetup : Setup platform machine) :
    Settled machine.control := by
  induction hsetup with
  | init machine kernelDirectory =>
    exact ⟨ready_schedulerInit kernelDirectory, (Ipc.represents_ipcInit machine.ipc).self,
      by rintro ⟨⟩⟩
  | memory memory hsetup ih => exact ih
  | ipc call hsetup ih => exact ih.ipcCall call
  | addTask name entry added hrun hsetup ih =>
    obtain ⟨hadds, hnext⟩ := schedulerAddTask_ensures platform name entry rfl _ _ hrun
    rw [show Machine.control _ = _ from hnext]
    exact ⟨ih.ready.addition hadds, ih.ring, ih.current.addition ih.ready hadds⟩
  | spawn name image spawned hrun hsetup ih =>
    exact (ih.spawning (userProcessSpawn_ensures platform name image _ spawned _ hrun)).1
  | setPriority index priority hsetup ih =>
    exact (ih.adjusts (adjusts_schedulerSetPriority index priority _)).1
  | blockTask index hsetup ih => exact (ih.adjusts (adjusts_schedulerBlockTask index _)).1
  | wakeTask index hsetup ih =>
    exact (ih.adjusts (schedulerWakeTaskUnlocked_wakes index _).adjusts).1

theorem Reachable.calm {system : System M} (hreachable : Reachable platform system) :
    Calm system.machine.control system.sending := by
  induction hreachable with
  | @start machine hsetup hawake =>
    obtain ⟨hready, hring, hcurrent⟩ := hsetup.settled
    have hstarts : Outcome 0 machine.control .start .nothing _ := .start
    refine ⟨⟨ready_schedulerStart hready, hring, hcurrent.outcome hready (by trivial) hstarts⟩,
      fun index huser hblocked ↦ ?_⟩
    have hslept : SleptBefore machine.scheduler (schedulerStart machine.scheduler) :=
      .of_update rfl (by simp)
    obtain ⟨huserBefore, hblockedBefore, -⟩ := hslept index huser hblocked
    -- Nothing was blocked when the scheduler was started.
    have hlt := ((hready.sound.fits index).live_user huserBefore
      fun hended ↦ by cases hblockedBefore.symm.trans hended).2.2.2
    have hnone := List.countP_eq_zero.mp hawake index (List.mem_range.mpr hlt)
    exact absurd (by simpa using hblockedBefore) hnone
  | step hreachable hstep ih => exact ih.systemStep platform hstep

/-- In every reachable state in which no send is under way, no user task sleeps while a message it
could receive is queued. -/
theorem no_lost_wakeup {system : System M} (hreachable : Reachable platform system)
    (hidle : system.sending = []) (index : ℕ)
    (huser : (system.machine.scheduler.tasks index).mode = .user)
    (hblocked : (system.machine.scheduler.tasks index).state = .blocked) :
    Ipc.ipcPendingFor (system.machine.scheduler.tasks index).taskId system.machine.ipc = 0 := by
  rw [Ipc.ipcPendingFor_eq_zero_iff]
  intro letter hmem
  by_contra hnot
  have hfor : letter.isFor (system.machine.scheduler.tasks index).taskId := by simpa using hnot
  have hsending := hreachable.calm.covered index huser hblocked letter hmem hfor
  rw [hidle] at hsending
  cases hsending

end Invariant

/-! ### A sleeping task

The process that was started waits for a message that nobody sent. -/

def sleepingMachine : Machine Unit :=
  after (syscallDispatch obligingPlatform waitFrame) runningMachine

theorem reachable_sleepingMachine : Reachable obligingPlatform ⟨sleepingMachine, []⟩ := by
  have hboot : Setup obligingPlatform bootMachine := .init bootMachine 0x1000
  obtain ⟨spawned, hspawn⟩ := run_eq_after spawnDemo bootMachine (by decide +kernel)
  obtain ⟨added, hadd⟩ := run_eq_after addShell (after spawnDemo bootMachine) (by decide +kernel)
  obtain ⟨first, htimer⟩ := run_eq_after (schedulerOnTimer obligingPlatform waitFrame)
    startedMachine (by decide +kernel)
  obtain ⟨second, hsyscall⟩ := run_eq_after (syscallDispatch obligingPlatform waitFrame)
    runningMachine (by decide +kernel)
  have hstarted : Reachable obligingPlatform ⟨startedMachine, []⟩ :=
    .start (.addTask _ _ _ hadd (.spawn _ _ _ hspawn hboot)) (by decide +kernel)
  exact (hstarted.step (.timer _ _ _ _ htimer)).step (.syscall _ _ _ _ hsyscall)

theorem no_lost_wakeup_sleeping :
    (sleepingMachine.scheduler.tasks 1).state = .blocked ∧
      Ipc.ipcPendingFor (sleepingMachine.scheduler.tasks 1).taskId sleepingMachine.ipc = 0 := by
  have huser : (sleepingMachine.scheduler.tasks 1).mode = .user := by decide +kernel
  have hblocked : (sleepingMachine.scheduler.tasks 1).state = .blocked := by decide +kernel
  exact ⟨hblocked, no_lost_wakeup obligingPlatform reachable_sleepingMachine rfl 1 huser hblocked⟩

end EfesOS.Kernel
