import EfesOS.Process.Outcomes
import EfesOS.Process.TaskTable

/-!
# Runs of the scheduler

The calls other code makes on the scheduler, as data (`Call`), with what each runs (`perform`) and
when it can be made (`Call.Enabled`): the two statements of `scheduler_task_trampoline` after an
entry function has returned are calls of their own, since interrupts are not masked between them. A
`Move` is one call, or anything that happens elsewhere and leaves the scheduler alone.

`Outcome` says what a call leaves apart from memory and `perform_outcome` that it does. A `Run` is a
sequence of moves, with what happened.
-/

set_option autoImplicit false

namespace EfesOS.Process

open EfesOS.Foundation EfesOS.Foundation.Program

variable {M : Type}

inductive Call where
  | addTask (name : Pointer) (entry : UInt32)
  | addUserTaskInSpace (name : Pointer) (entry userStackTop addressSpace : UInt32)
  | setPriority (index : ℕ) (priority : UInt32)
  | blockTask (index : ℕ)
  | blockCurrent
  | wakeTask (index : ℕ)
  | wakeTaskId (taskId : UInt32)
  | wakeUserTasks
  | start
  | onTimer (frame : Frame)
  | onYield (frame : Frame)
  | onUserFault (frame : Frame)
  | onUserExit (frame : Frame)
  | trampolineMark
  | trampolineRecord

def Call.isWake : Call → Bool
  | .wakeTask _ | .wakeTaskId _ | .wakeUserTasks => true
  | _ => false

def Call.isTimer : Call → Bool
  | .onTimer _ => true
  | _ => false

def Call.adds : Call → Bool
  | .addTask .. | .addUserTaskInSpace .. => true
  | _ => false

/-- What a call returns. -/
inductive Reply where
  | nothing
  | done (flag : Bool)
  | woken (number : ℕ)
  | resumed (frame : Frame)

/-- A routine that only works on the scheduler. -/
def onScheduler {α : Type} (routine : Scheduler → α × Scheduler) : KernelProgram M α := do
  let outcome ← readScheduler routine
  changeScheduler fun _ ↦ outcome.2
  pure outcome.1

variable (platform : Platform M)

def perform : Call → KernelProgram M Reply
  | .addTask name entry => Reply.done <$> schedulerAddTask platform name entry
  | .addUserTaskInSpace name entry userStackTop addressSpace =>
    Reply.done <$> schedulerAddUserTaskInSpace platform name entry userStackTop addressSpace
  | .setPriority index priority => Reply.done <$> onScheduler (schedulerSetPriority index priority)
  | .blockTask index => Reply.done <$> onScheduler (schedulerBlockTask index)
  | .blockCurrent => Reply.done <$> onScheduler schedulerBlockCurrent
  | .wakeTask index => Reply.done <$> onScheduler (schedulerWakeTask index)
  | .wakeTaskId taskId => Reply.done <$> onScheduler (schedulerWakeTaskId taskId)
  | .wakeUserTasks => Reply.woken <$> onScheduler schedulerWakeUserTasks
  | .start => (fun _ ↦ Reply.nothing) <$> changeScheduler schedulerStart
  | .onTimer frame => Reply.resumed <$> schedulerOnTimer platform frame
  | .onYield frame => Reply.resumed <$> schedulerOnYield platform frame
  | .onUserFault frame => Reply.resumed <$> schedulerOnUserFault platform frame
  | .onUserExit frame => Reply.resumed <$> schedulerOnUserExit platform frame
  | .trampolineMark => (fun _ ↦ Reply.nothing) <$> changeScheduler markReturned
  | .trampolineRecord => (fun _ ↦ Reply.nothing) <$> changeScheduler recordReturned

/-- When a call can be made. Only a kernel task returns, it is then the running one, and only a user
task exits or faults; everything else can happen at any time. -/
def Call.Enabled (scheduler : Scheduler) : Call → Prop
  | .onUserFault _ | .onUserExit _ => scheduler.current.mode = .user
  | .trampolineMark => 1 ≤ scheduler.currentTask ∧ scheduler.current.mode = .kernel ∧
      scheduler.current.state = .runnable
  | .trampolineRecord => 1 ≤ scheduler.currentTask ∧ scheduler.current.mode = .kernel ∧
      scheduler.current.state = .terminated
  | _ => True

/-- One thing that happens: a call with its reply, or something that leaves the scheduler alone. -/
inductive Move : Option (Call × Reply) → Machine M → Machine M → Prop where
  | elsewhere (machine next : Machine M) (hsame : next.scheduler = machine.scheduler) :
      Move none machine next
  | call (call : Call) (reply : Reply) (machine next : Machine M)
      (henabled : call.Enabled machine.scheduler)
      (hrun : perform platform call machine = .ok (reply, next)) :
      Move (some (call, reply)) machine next

/-- Something that happened, with the machine after it. -/
structure Event (M : Type) where
  call : Option (Call × Reply)
  after : Machine M

/-- A sequence of moves, each of which the given discipline lets happen in the scheduler it starts
from. -/
inductive Run (allowed : Scheduler → Option (Call × Reply) → Prop) :
    Machine M → List (Event M) → Machine M → Prop where
  | nil (machine : Machine M) : Run allowed machine [] machine
  | cons {machine next final : Machine M} {call : Option (Call × Reply)} {events : List (Event M)}
      (hallowed : allowed machine.scheduler call) (hmove : Move platform call machine next)
      (hrest : Run allowed next events final) :
      Run allowed machine (⟨call, next⟩ :: events) final

/-- Calls come in any order. -/
def AnyOrder (_ : Scheduler) (_ : Option (Call × Reply)) : Prop := True
  deriving Decidable

variable {machine final : Machine M} {events : List (Event M)}

variable {platform} in
/-- What every move keeps holds in every state of a run. -/
theorem Run.invariant {allowed : Scheduler → Option (Call × Reply) → Prop} {inv : Scheduler → Prop}
    (hrun : Run platform allowed machine events final)
    (hstep : ∀ {machine next : Machine M} {call}, allowed machine.scheduler call →
      Move platform call machine next → inv machine.scheduler → inv next.scheduler)
    (hstart : inv machine.scheduler) :
    inv final.scheduler ∧ ∀ event ∈ events, inv event.after.scheduler := by
  induction hrun with
  | nil machine => exact ⟨hstart, List.forall_mem_nil _⟩
  | cons hallowed hmove hrest ih =>
    have hnext := hstep hallowed hmove hstart
    obtain ⟨hfinal, hevents⟩ := ih hnext
    refine ⟨hfinal, ?_⟩
    rw [List.forall_mem_cons]
    exact ⟨hnext, hevents⟩

variable {platform} in
theorem Run.mono {allowed weaker : Scheduler → Option (Call × Reply) → Prop}
    (hrun : Run platform allowed machine events final)
    (himplies : ∀ scheduler call, allowed scheduler call → weaker scheduler call) :
    Run platform weaker machine events final := by
  induction hrun with
  | nil machine => exact .nil machine
  | cons hallowed hmove hrest ih => exact .cons (himplies _ _ hallowed) hmove ih

/-! ### Playing calls -/

instance (scheduler : Scheduler) (call : Call) : Decidable (call.Enabled scheduler) :=
  match call with
  | .onUserFault _ | .onUserExit _ => inferInstanceAs (Decidable (_ = _))
  | .trampolineMark | .trampolineRecord => inferInstanceAs (Decidable (_ ∧ _))
  | .addTask .. | .addUserTaskInSpace .. | .setPriority .. | .blockTask _ | .blockCurrent
  | .wakeTask _ | .wakeTaskId _ | .wakeUserTasks | .start | .onTimer _ | .onYield _ =>
    inferInstanceAs (Decidable True)

variable (allowed : Scheduler → Option (Call × Reply) → Prop)
  [∀ scheduler call, Decidable (allowed scheduler call)]

/-- The calls made one after the other, if each can be made, is allowed and returns. -/
def play : List Call → Machine M → Option (List (Event M) × Machine M)
  | [], machine => some ([], machine)
  | call :: rest, machine =>
    match perform platform call machine with
    | .error _ => none
    | .ok (reply, next) =>
      if call.Enabled machine.scheduler ∧ allowed machine.scheduler (some (call, reply)) then
        (play rest next).map fun played ↦ (⟨some (call, reply), next⟩ :: played.1, played.2)
      else none

theorem run_of_play {calls : List Call}
    (hplay : play platform allowed calls machine = some (events, final)) :
    Run platform allowed machine events final := by
  induction calls generalizing machine events with
  | nil =>
    cases hplay
    exact .nil _
  | cons call rest ih =>
    rw [play] at hplay
    cases hperform : perform platform call machine with
    | error message => rw [hperform] at hplay; cases hplay
    | ok outcome =>
      obtain ⟨reply, next⟩ := outcome
      simp only [hperform, Option.ite_none_right_eq_some, Option.map_eq_some_iff,
        Prod.mk.injEq] at hplay
      obtain ⟨⟨henabled, hallowed⟩, ⟨played, last⟩, hrest, rfl, rfl⟩ := hplay
      exact .cons hallowed (.call call reply machine next henabled hperform) (ih hrest)

/-! ### What a call leaves -/

/-- What a call returns and leaves apart from memory. -/
inductive Outcome (trampoline : UInt32) (before : Machine Unit) :
    Call → Reply → Machine Unit → Prop where
  | addTask {name : Pointer} {entry : UInt32} (kernelDirectory : UInt32) {added : Bool}
      {after : Scheduler}
      (hadds : Addition trampoline
        (kernelTask entry kernelDirectory) before.scheduler added after) :
      Outcome trampoline before (.addTask name entry) (.done added)
        { before with scheduler := after }
  | addUserTaskInSpace {name : Pointer} {entry userStackTop addressSpace : UInt32} {added : Bool}
      {after : Scheduler}
      (hadds : Addition trampoline (userTask entry userStackTop addressSpace) before.scheduler added
        after) :
      Outcome trampoline before (.addUserTaskInSpace name entry userStackTop addressSpace)
        (.done added) { before with scheduler := after }
  | setPriority {index : ℕ} {priority : UInt32} (answer : Bool) :
      Outcome trampoline before (.setPriority index priority) (.done answer)
        (before.mapScheduler fun scheduler ↦ (schedulerSetPriority index priority scheduler).2)
  | blockTask {index : ℕ} (answer : Bool) :
      Outcome trampoline before (.blockTask index) (.done answer)
        (before.mapScheduler fun scheduler ↦ (schedulerBlockTask index scheduler).2)
  | blockCurrent (answer : Bool) :
      Outcome trampoline before .blockCurrent (.done answer)
        (before.mapScheduler fun scheduler ↦ (schedulerBlockCurrent scheduler).2)
  | wakes {call : Call} {reply : Reply} {after : Scheduler} (hwakes : Wakes before.scheduler after)
      (hcall : call.isWake = true) :
      Outcome trampoline before call reply { before with scheduler := after }
  | start :
      Outcome trampoline before .start .nothing (before.mapScheduler schedulerStart)
  | onTimer {frame resumed : Frame} {after : Machine Unit}
      (hresumes : Resumption frame false before resumed after) :
      Outcome trampoline before (.onTimer frame) (.resumed resumed) after
  | onYield {frame resumed : Frame} {after : Machine Unit}
      (hresumes : Resumption frame true before resumed after) :
      Outcome trampoline before (.onYield frame) (.resumed resumed) after
  | onUserFault {frame resumed : Frame} {after : Machine Unit}
      (hends : Ending frame before resumed after) :
      Outcome trampoline before (.onUserFault frame) (.resumed resumed) after
  | onUserExit {frame resumed : Frame} {after : Machine Unit}
      (hends : Ending frame before resumed after) :
      Outcome trampoline before (.onUserExit frame) (.resumed resumed) after
  | trampolineMark :
      Outcome trampoline before .trampolineMark .nothing (before.mapScheduler markReturned)
  | trampolineRecord :
      Outcome trampoline before .trampolineRecord .nothing (before.mapScheduler recordReturned)

theorem ensures_onScheduler {α : Type} {routine : Scheduler → α × Scheduler} {machine : Machine M}
    {post : α → Machine M → Prop} : Ensures (onScheduler routine) machine post ↔
      post (routine machine.scheduler).1
        (machine.mapScheduler fun scheduler ↦ (routine scheduler).2) := by
  simp only [onScheduler, readScheduler, changeScheduler, ensures_bind, ensures_read,
    ensures_change, ensures_pure, Machine.mapScheduler]

theorem perform_outcome (call : Call) (machine : Machine M) :
    Ensures (perform platform call) machine fun reply next ↦
      Outcome platform.trampoline machine.control call reply next.control := by
  have hcontrol : HasControl machine.control machine := rfl
  cases call with
  | addTask name entry =>
    refine (ensures_map _).mpr ((schedulerAddTask_ensures platform name entry hcontrol).mono
      fun added next hadded ↦ ?_)
    rw [show next.control = _ from hadded.2]
    exact .addTask _ hadded.1
  | addUserTaskInSpace name entry userStackTop addressSpace =>
    refine (ensures_map _).mpr ((schedulerAddUserTaskInSpace_ensures platform name entry
      userStackTop addressSpace hcontrol).mono fun added next hadded ↦ ?_)
    rw [show next.control = _ from hadded.2]
    exact .addUserTaskInSpace hadded.1
  | setPriority index priority =>
    exact (ensures_map _).mpr (ensures_onScheduler.mpr (.setPriority _))
  | blockTask index =>
    exact (ensures_map _).mpr (ensures_onScheduler.mpr (.blockTask _))
  | blockCurrent =>
    exact (ensures_map _).mpr (ensures_onScheduler.mpr (.blockCurrent _))
  | wakeTask index =>
    exact (ensures_map _).mpr (ensures_onScheduler.mpr
      (.wakes (schedulerWakeTaskUnlocked_wakes index _) rfl))
  | wakeTaskId taskId =>
    exact (ensures_map _).mpr (ensures_onScheduler.mpr
      (.wakes (schedulerWakeTaskId_wakes taskId _) rfl))
  | wakeUserTasks =>
    exact (ensures_map _).mpr (ensures_onScheduler.mpr (.wakes (wakeUserTasksIn_wakes _ _) rfl))
  | start => exact (ensures_map _).mpr ((ensures_change _).mpr .start)
  | onTimer frame =>
    exact (ensures_map _).mpr ((scheduleFromFrame_ensures platform frame false hcontrol).mono
      fun _ _ hresumes ↦ .onTimer hresumes)
  | onYield frame =>
    exact (ensures_map _).mpr ((scheduleFromFrame_ensures platform frame true hcontrol).mono
      fun _ _ hresumes ↦ .onYield hresumes)
  | onUserFault frame =>
    exact (ensures_map _).mpr ((endUserTask_ensures platform _ frame hcontrol).mono
      fun _ _ hends ↦ .onUserFault hends)
  | onUserExit frame =>
    exact (ensures_map _).mpr ((endUserTask_ensures platform _ frame hcontrol).mono
      fun _ _ hends ↦ .onUserExit hends)
  | trampolineMark => exact (ensures_map _).mpr ((ensures_change _).mpr .trampolineMark)
  | trampolineRecord => exact (ensures_map _).mpr ((ensures_change _).mpr .trampolineRecord)

/-! ### What calls leave alone -/

/-- The part of the scheduler that only additions and the start touch. -/
structure SameTable (before after : Scheduler) : Prop where
  taskCount : after.taskCount = before.taskCount
  started : after.started = before.started
  lastAddedTask : after.lastAddedTask = before.lastAddedTask
  slotGeneration : after.slotGeneration = before.slotGeneration

theorem SameTable.refl (scheduler : Scheduler) : SameTable scheduler scheduler :=
  ⟨rfl, rfl, rfl, rfl⟩

theorem SameTable.trans {first second third : Scheduler} (hfirst : SameTable first second)
    (hsecond : SameTable second third) : SameTable first third :=
  ⟨hsecond.taskCount.trans hfirst.taskCount, hsecond.started.trans hfirst.started,
    hsecond.lastAddedTask.trans hfirst.lastAddedTask,
    hsecond.slotGeneration.trans hfirst.slotGeneration⟩

theorem sameTable_reaped (scheduler : Scheduler) : SameTable scheduler (reaped scheduler) :=
  have hsame := sameBut_reaped scheduler
  ⟨hsame.taskCount, hsame.started, hsame.lastAddedTask, hsame.slotGeneration⟩

section

variable {frame resumed : Frame} {force : Bool} {before after : Scheduler}
  {start next : Machine Unit}

theorem Adjusts.sameTable (hadjusts : Adjusts before after) : SameTable before after := by
  rw [hadjusts.same]
  exact ⟨rfl, rfl, rfl, rfl⟩

/-- What a dispatch does: it spends a tick, or stays with a task that can run or switches to one. -/
theorem Dispatches.cases (hdispatches : Dispatches frame force before resumed after) :
    SpendsTick force before ∧ after = before.updateTask before.currentTask (fun task ↦
        { task with ticksLeft := task.ticksLeft - 1 }) ∨
      ∃ next, next = findNextRunnable before ∧ next < before.taskCount ∧
        (before.tasks next).state = .runnable ∧
        (next = before.currentTask ∧ after = before ∨ after = switchTo next before) := by
  have houtcome : after = (dispatched frame force before).2 :=
    congrArg Prod.snd hdispatches.outcome
  by_cases hspends : SpendsTick force before
  · rw [dispatched_of_spendsTick hspends] at houtcome
    exact .inl ⟨hspends, houtcome⟩
  · obtain ⟨hlt, hdispatchable⟩ := findNextRunnable_ne_max (hdispatches.found.resolve_left hspends)
    simp only [Task.dispatchable, Bool.and_eq_true, beq_iff_eq] at hdispatchable
    refine .inr ⟨_, rfl, hlt, hdispatchable.1, ?_⟩
    by_cases hnext : findNextRunnable before = before.currentTask
    · rw [dispatched_of_same hspends hnext] at houtcome
      exact .inl ⟨hnext, houtcome⟩
    · rw [dispatched_of_other hspends hnext] at houtcome
      exact .inr houtcome

theorem Dispatches.sameTable (hdispatches : Dispatches frame force before resumed after) :
    SameTable before after := by
  rcases hdispatches.cases with ⟨-, rfl⟩ | ⟨next, -, -, -, ⟨-, rfl⟩ | rfl⟩ <;>
    exact ⟨rfl, rfl, rfl, rfl⟩

theorem Schedules.sameTable (hschedules : Schedules frame force before resumed after) :
    SameTable before after := by
  have hsaved : SameTable (reaped before) (saveFrame frame (reaped before)) := ⟨rfl, rfl, rfl, rfl⟩
  exact ((sameTable_reaped before).trans hsaved).trans (Dispatches.sameTable hschedules)

theorem Ending.sameTable (hending : Ending frame start resumed next) :
    SameTable start.scheduler next.scheduler := by
  cases hending with
  | ignored hnot => exact .refl _
  | ended resumed after hstarted hcurrent huser hid hschedules =>
    have hended : SameTable start.scheduler (terminateCurrent start.scheduler) :=
      ⟨rfl, rfl, rfl, rfl⟩
    exact hended.trans (Schedules.sameTable hschedules)

theorem Resumption.sameTable (hresumes : Resumption frame force start resumed next) :
    SameTable start.scheduler next.scheduler := by
  cases hresumes with
  | idle hnot => exact .refl _
  | scheduled resumed after hstarted hschedules => exact Schedules.sameTable hschedules
  | faulted resumed after huser hstate hending =>
    exact (sameTable_reaped start.scheduler).trans (Ending.sameTable hending)

end

variable {trampoline : UInt32}

section

variable {task : Task} {before after : Scheduler} {added : Bool}
  (hadds : Addition trampoline task before added after)
include hadds

theorem Addition.started :
    after.started = before.started := by
  cases hadds <;> rfl

/-- What an addition does to the tasks: nothing, or the free slot gets a cleared task or the new
one. -/
theorem Addition.placed :
    after = before ∨ ∃ slot placed, freeSlot before = some slot ∧
      after.tasks = Function.update before.tasks slot placed ∧
      after.currentTask = before.currentTask ∧ after.pendingReap = before.pendingReap ∧
      ((∃ name, placed = { clearedTask with name := name }) ∨ ∃ name taskId frames, placed =
        withStack trampoline { task with name := name, taskId := taskId } slot frames) := by
  cases hadds with
  | refused => exact .inl rfl
  | misnamed slot name hslot => exact .inr ⟨slot, _, hslot, rfl, rfl, rfl, .inl ⟨name, rfl⟩⟩
  | noStack slot hslot => exact .inr ⟨slot, _, hslot, rfl, rfl, rfl, .inl ⟨[], rfl⟩⟩
  | added slot name frames hslot =>
    exact .inr ⟨slot, _, hslot, rfl, rfl, rfl, .inr ⟨name, _, frames, rfl⟩⟩

end

variable {start next : Machine Unit} {reply : Reply}

/-- Of all the calls only additions and the start touch the table. -/
theorem Outcome.sameTable {call : Call} (houtcome : Outcome trampoline start call reply next)
    (hadds : call.adds = false) : SameTable start.scheduler next.scheduler ∨ call = .start := by
  cases houtcome with
  | addTask kernelDirectory hadded | addUserTaskInSpace hadded => cases hadds
  | start => exact .inr rfl
  | setPriority answer => exact .inl (adjusts_schedulerSetPriority _ _ _).sameTable
  | blockTask answer => exact .inl (adjusts_schedulerBlockTask _ _).sameTable
  | blockCurrent answer => exact .inl (adjusts_schedulerBlockCurrent _).sameTable
  | wakes hwakes hcall => exact .inl hwakes.adjusts.sameTable
  | onTimer hresumes | onYield hresumes => exact .inl hresumes.sameTable
  | onUserFault hends | onUserExit hends => exact .inl hends.sameTable
  | trampolineMark | trampolineRecord => exact .inl ⟨rfl, rfl, rfl, rfl⟩

theorem Outcome.slotGeneration {call : Call} (houtcome : Outcome trampoline start call reply next)
    (hadds : call.adds = false) :
    next.scheduler.slotGeneration = start.scheduler.slotGeneration := by
  rcases houtcome.sameTable hadds with hsame | rfl
  · exact hsame.slotGeneration
  · cases houtcome with
    | start => rfl
    | wakes hwakes hcall => cases hcall

theorem Outcome.onTimer_resumes {frame : Frame}
    (houtcome : Outcome trampoline start (.onTimer frame) reply next) :
    ∃ resumed, reply = .resumed resumed ∧ Resumption frame false start resumed next := by
  cases houtcome with
  | onTimer hresumes => exact ⟨_, rfl, hresumes⟩
  | wakes hwakes hcall => cases hcall

theorem Outcome.onYield_resumes {frame : Frame}
    (houtcome : Outcome trampoline start (.onYield frame) reply next) :
    ∃ resumed, reply = .resumed resumed ∧ Resumption frame true start resumed next := by
  cases houtcome with
  | onYield hresumes => exact ⟨_, rfl, hresumes⟩
  | wakes hwakes hcall => cases hcall

/-- A call of either kind of addition is an addition. -/
theorem Outcome.addition {call : Call} (houtcome : Outcome trampoline start call reply next)
    (hadds : call.adds = true) :
    ∃ task added, reply = .done added ∧
      Addition trampoline task start.scheduler added next.scheduler := by
  cases houtcome with
  | addTask kernelDirectory hadded | addUserTaskInSpace hadded => exact ⟨_, _, rfl, hadded⟩
  | wakes hwakes hcall =>
    cases call <;> first
      | exact absurd hadds Bool.false_ne_true
      | exact absurd hcall Bool.false_ne_true
  | setPriority | blockTask | blockCurrent | start | onTimer | onYield | onUserFault
  | onUserExit | trampolineMark | trampolineRecord => cases hadds

/-- A scheduler that runs keeps running. -/
theorem Outcome.started {call : Call} (houtcome : Outcome trampoline start call reply next)
    (hstarted : start.scheduler.started = true) : next.scheduler.started = true := by
  cases hadds : call.adds with
  | false =>
    rcases houtcome.sameTable hadds with hsame | rfl
    · exact hsame.started.trans hstarted
    · cases houtcome with
      | start => rfl
      | wakes hwakes hcall => cases hcall
  | true =>
    obtain ⟨task, added, -, hadded⟩ := houtcome.addition hadds
    exact hadded.started.trans hstarted

/-! ### A platform that grants everything -/

def obligingPlatform : Platform Unit where
  pagingKernelDirectory := fun _ ↦ 0x1000
  pagingCurrentDirectory := fun _ ↦ 0x1000
  pagingAddressSpaceIsValid := fun _ _ ↦ true
  pagingIsMapped := fun _ _ ↦ false
  pagingValidateUserRange := fun _ _ _ _ ↦ true
  pagingValidateUserExecute := fun _ _ ↦ true
  pagingCreateAddressSpace := pure 0x2000
  pagingDestroyAddressSpace := fun _ ↦ pure true
  pagingSwitchAddressSpace := fun _ ↦ pure true
  pagingMapPage := fun _ _ _ ↦ pure true
  pagingUnmapPage := fun _ ↦ pure 0x3000
  pagingCopyFromUser := fun _ _ _ ↦ some []
  pagingCopyToUser := fun _ _ ↦ pure true
  pmmAllocBlock := pure 0x3000
  pmmAllocUserBlock := pure 0x3000
  pmmFreeBlock := fun _ ↦ pure ()
  elfLoadImage := fun _ ↦ pure (some (0x00400000, 0x00400000, 0x00401000))
  elfUnloadImage := fun _ _ ↦ pure true
  -- Every stack holds the canary it was given.
  loadWord := fun address _ ↦ schedulerStackCanary ^^^ (address - pageSize) ^^^
    ((address - pageSize - schedulerStackBase) / schedulerStackStride)
  storeWord := fun _ _ ↦ pure ()
  clearPage := fun _ ↦ pure ()
  pitTicks := fun _ ↦ 0
  cpuRandomU32 := pure none
  serialWriteN := fun _ ↦ pure ()
  trampoline := 0x00100000
  layoutRandomAddress := 0x00200000

def bootMachine : Machine Unit where
  memory := ()
  scheduler := schedulerInit 0x1000
  processes := ⟨fun _ ↦ ⟨0, 0, 0, 0, 0, 0, 0, false⟩, 0, 0⟩
  ipc := Kernel.Ipc.ipcInit ⟨fun _ ↦ ⟨0, 0, 0, 0, Buffer.zeroed _, Nat.zero_le _⟩, 0, 0, 0⟩

/-- The machine after a routine that returns. -/
@[irreducible] def after {α : Type} (program : KernelProgram M α) (machine : Machine M) :
    Machine M :=
  match program machine with
  | .ok (_, next) => next
  | .error _ => machine

theorem run_eq_after {α : Type} (program : KernelProgram M α) (machine : Machine M)
    (hok : (program machine).isOk = true) :
    ∃ value, program machine = .ok (value, after program machine) := by
  unfold after
  cases hrun : program machine with
  | error message => rw [hrun] at hok; cases hok
  | ok outcome => exact ⟨outcome.1, rfl⟩

end EfesOS.Process
