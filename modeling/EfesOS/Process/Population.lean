import EfesOS.Process.Readiness

/-!
# Who lives in the task table

Most calls of the scheduler leave every slot with the task it had, ended or not. `Population` lists
what else can happen to the inhabitants of the table and to the message queue: a free slot is filled
or cleared, a kernel task ends, the running user task ends together with its messages.
`Outcome.population` shows that every call is one of these, and `CurrentLives` is what follows for
the running task: it has not ended if it is a user task.
-/

set_option autoImplicit false

namespace EfesOS.Process

open EfesOS.Foundation EfesOS.Foundation.Program

variable {M : Type} {trampoline : UInt32} {scheduler before after : Scheduler}
  {frame resumed : Frame} {force : Bool} {start next : Machine Unit}

/-- The same task, ended if and only if it was. -/
structure SameTask (old new : Task) : Prop where
  mode : new.mode = old.mode
  taskId : new.taskId = old.taskId
  ended : new.state = .terminated ↔ old.state = .terminated

theorem SameTask.refl (task : Task) : SameTask task task := ⟨rfl, rfl, Iff.rfl⟩

theorem SameTask.trans {first second third : Task} (hfirst : SameTask first second)
    (hsecond : SameTask second third) : SameTask first third :=
  ⟨hsecond.mode.trans hfirst.mode, hsecond.taskId.trans hfirst.taskId,
    hsecond.ended.trans hfirst.ended⟩

def SameTasks (before after : Scheduler) : Prop :=
  ∀ slot, SameTask (before.tasks slot) (after.tasks slot)

theorem SameTasks.refl (scheduler : Scheduler) : SameTasks scheduler scheduler :=
  fun _ ↦ .refl _

/-! ### Scheduling points -/

/-- What scheduling leaves of a task. -/
def Task.identity (task : Task) : TaskMode × UInt32 × TaskState :=
  (task.mode, task.taskId, task.state)

/-- Every slot has the task it had, in the state it was in. -/
def SameStates (before after : Scheduler) : Prop :=
  ∀ slot, (after.tasks slot).identity = (before.tasks slot).identity

theorem SameStates.sameTasks (hsame : SameStates before after) : SameTasks before after := by
  intro slot
  obtain ⟨hmode, hid, hstate⟩ : _ ∧ _ ∧ _ := by
    simpa only [Task.identity, Prod.mk.injEq] using hsame slot
  exact ⟨hmode, hid, by rw [hstate]⟩

theorem sameStates_updateTask {index : ℕ} {update : Task → Task}
    (hsame : (update (scheduler.tasks index)).identity = (scheduler.tasks index).identity) :
    SameStates scheduler (scheduler.updateTask index update) := by
  intro slot
  rw [tasks_updateTask]
  split_ifs with heq
  · exact heq ▸ hsame
  · rfl

theorem sameStates_reaped (scheduler : Scheduler) : SameStates scheduler (reaped scheduler) := by
  intro slot
  rw [(reaped_spec scheduler slot).1, reapedTask]
  split_ifs <;> rfl

theorem Dispatches.sameStates (hdispatches : Dispatches frame force before resumed after) :
    SameStates before after := by
  rcases hdispatches.cases with ⟨-, rfl⟩ | ⟨next, -, -, -, ⟨-, rfl⟩ | rfl⟩
  · exact sameStates_updateTask rfl
  · exact fun _ ↦ rfl
  · have hswitched : SameStates before (before.updateTask next fun task ↦
        { task with switches := task.switches + 1, ticksLeft := task.priority }) :=
      sameStates_updateTask rfl
    exact hswitched

theorem Schedules.sameStates (hschedules : Schedules frame force before resumed after) :
    SameStates before after := by
  have hsaved : SameStates (reaped before) (saveFrame frame (reaped before)) := by
    refine sameStates_updateTask ?_
    split_ifs <;> rfl
  exact fun slot ↦ (Dispatches.sameStates hschedules slot).trans
    ((hsaved slot).trans (sameStates_reaped before slot))

/-- After a dispatch the running task is a runnable one. -/
theorem Dispatches.current_runnable (hdispatches : Dispatches frame force before resumed after) :
    after.current.state = .runnable := by
  rcases hdispatches.cases with ⟨hspends, rfl⟩ | ⟨next, -, -, hrunnable, ⟨rfl, rfl⟩ | rfl⟩
  · rw [current_updateCurrent]
    exact hspends.2.1
  · exact hrunnable
  · have htask : (switchTo next before).current =
        { before.tasks next with
          switches := (before.tasks next).switches + 1
          ticksLeft := (before.tasks next).priority } :=
      Function.update_self _ _ _
    rw [htask]
    exact hrunnable

theorem Adjusts.sameTasks (hadjusts : Adjusts before after) : SameTasks before after := by
  intro slot
  have hadjusted := hadjusts.adjusted slot
  have hended := hadjusted.ended
  rw [hadjusted.same]
  exact ⟨rfl, rfl, hended⟩

/-! ### Calls -/

/-- The running user task has ended and its messages are dropped. -/
structure UserEnds (before after : Machine Unit) : Prop where
  lt_count : before.scheduler.currentTask < before.scheduler.taskCount
  id_ne : before.scheduler.current.taskId ≠ 0
  others : ∀ slot, slot ≠ before.scheduler.currentTask →
    SameTask (before.scheduler.tasks slot) (after.scheduler.tasks slot)
  ipc : after.ipc = (retireCurrent before).ipc

/-- What a call does to the tasks and the messages. -/
inductive Population (before after : Machine Unit) : Prop where
  | same (htasks : SameTasks before.scheduler after.scheduler) (hipc : after.ipc = before.ipc)
  | filled (slot : ℕ) (hslot : freeSlot before.scheduler = some slot)
      (hothers : ∀ other, other ≠ slot →
        SameTask (before.scheduler.tasks other) (after.scheduler.tasks other))
      (hipc : after.ipc = before.ipc)
  | kernelEnded (slot : ℕ) (hkernel : (before.scheduler.tasks slot).mode = .kernel)
      (hothers : ∀ other, other ≠ slot →
        SameTask (before.scheduler.tasks other) (after.scheduler.tasks other))
      (hipc : after.ipc = before.ipc)
  | userEnded (hends : UserEnds before after)

variable {task : Task} {added : Bool}

theorem Addition.others (hadds : Addition trampoline task before added after) :
    SameTasks before after ∨ ∃ slot, freeSlot before = some slot ∧
      ∀ other, other ≠ slot → after.tasks other = before.tasks other := by
  rcases hadds.placed with rfl | ⟨slot, placed, hslot, htasks, -⟩
  · exact .inl (.refl after)
  · exact .inr ⟨slot, hslot, fun other hne ↦ by rw [htasks, Function.update_of_ne hne]⟩

theorem Ending.userEnds (hending : Ending frame start resumed next) :
    next = start ∨ UserEnds start next := by
  cases hending with
  | ignored hnot => exact .inl rfl
  | ended resumed after hstarted hcurrent huser hid hschedules =>
    refine .inr ⟨hcurrent, hid, fun slot hother ↦ ?_, rfl⟩
    have htask : (terminateCurrent start.scheduler).tasks slot = start.scheduler.tasks slot :=
      Function.update_of_ne hother _ _
    exact htask ▸ (Schedules.sameStates hschedules).sameTasks slot

theorem schedulerCurrentTaskId_reaped (scheduler : Scheduler) :
    schedulerCurrentTaskId (reaped scheduler) = schedulerCurrentTaskId scheduler := by
  have hsame := sameBut_reaped scheduler
  rw [schedulerCurrentTaskId, schedulerCurrentTaskId, hsame.taskCount, hsame.currentTask,
    reaped_current]

/-- The stacks freed before a task ends change nothing in how it ends. -/
theorem UserEnds.of_reaped (hends : UserEnds (start.mapScheduler reaped) next) :
    UserEnds start next := by
  have hsame := sameBut_reaped start.scheduler
  have hcurrentTask : (start.mapScheduler reaped).scheduler.currentTask =
      start.scheduler.currentTask := hsame.currentTask
  have hcurrent : (start.mapScheduler reaped).scheduler.current = start.scheduler.current :=
    reaped_current start.scheduler
  have hipc : (retireCurrent (start.mapScheduler reaped)).ipc = (retireCurrent start).ipc := by
    simp only [retireCurrent, Machine.mapScheduler, schedulerCurrentTaskId_reaped]
  refine ⟨?_, hcurrent ▸ hends.id_ne, fun slot hother ↦ ?_, hends.ipc.trans hipc⟩
  · rw [← hcurrentTask, ← hsame.taskCount]
    exact hends.lt_count
  · exact ((sameStates_reaped start.scheduler).sameTasks slot).trans
      (hends.others slot (hcurrentTask ▸ hother))

variable {call : Call}

theorem Ending.population (hending : Ending frame start resumed next) :
    Population start next := by
  rcases hending.userEnds with rfl | hends
  · exact .same (.refl _) rfl
  · exact .userEnded hends

theorem Resumption.population (hresumes : Resumption frame force start resumed next) :
    Population start next := by
  cases hresumes with
  | idle hnot => exact .same (.refl _) rfl
  | scheduled resumed after hstarted hschedules =>
    exact .same (Schedules.sameStates hschedules).sameTasks rfl
  | faulted resumed after huser hstate hending =>
    rcases hending.userEnds with rfl | hends
    · exact .same (sameStates_reaped start.scheduler).sameTasks rfl
    · exact .userEnded hends.of_reaped

/-- Every call does to the population of the table one of the things listed. -/
theorem Outcome.population {reply : Reply} (hready : Ready start.scheduler)
    (henabled : call.Enabled start.scheduler)
    (houtcome : Outcome trampoline start call reply next) : Population start next := by
  cases houtcome with
  | addTask kernelDirectory hadds | addUserTaskInSpace hadds =>
    rcases hadds.others with hsame | ⟨slot, hslot, hothers⟩
    · exact .same hsame rfl
    · exact .filled slot hslot (fun other hne ↦ hothers other hne ▸ .refl _) rfl
  | setPriority answer => exact .same (adjusts_schedulerSetPriority _ _ _).sameTasks rfl
  | blockTask answer => exact .same (adjusts_schedulerBlockTask _ _).sameTasks rfl
  | blockCurrent answer => exact .same (adjusts_schedulerBlockCurrent _).sameTasks rfl
  | wakes hwakes hcall => exact .same hwakes.adjusts.sameTasks rfl
  | start =>
    refine .kernelEnded 0 hready.boot.mode (fun other hne ↦ ?_) rfl
    have htask : (schedulerStart start.scheduler).tasks other = start.scheduler.tasks other :=
      Function.update_of_ne hne _ _
    exact htask ▸ .refl _
  | onTimer hresumes | onYield hresumes => exact hresumes.population
  | onUserFault hends | onUserExit hends => exact hends.population
  | trampolineMark =>
    refine .kernelEnded start.scheduler.currentTask henabled.2.1 (fun other hne ↦ ?_) rfl
    have htask : (markReturned start.scheduler).tasks other = start.scheduler.tasks other :=
      Function.update_of_ne hne _ _
    exact htask ▸ .refl _
  | trampolineRecord => exact .same (.refl _) rfl

/-! ### The running task -/

/-- The running task has not ended if it is a user task. -/
def CurrentLives (scheduler : Scheduler) : Prop :=
  scheduler.current.mode = .user → scheduler.current.state ≠ .terminated

theorem CurrentLives.of_runnable (hstate : scheduler.current.state = .runnable) :
    CurrentLives scheduler := by
  intro _
  rw [hstate]
  simp

theorem CurrentLives.of_same (hlives : CurrentLives before) (hsame : SameTasks before after)
    (hcurrent : after.currentTask = before.currentTask) : CurrentLives after := by
  intro huser hended
  have htask := hsame before.currentTask
  rw [Scheduler.current, hcurrent] at huser hended
  exact hlives (htask.mode.symm.trans huser) (htask.ended.mp hended)

theorem CurrentLives.schedules (hschedules : Schedules frame force before resumed after) :
    CurrentLives after :=
  .of_runnable (Dispatches.current_runnable hschedules)

theorem CurrentLives.ending (hlives : CurrentLives start.scheduler)
    (hending : Ending frame start resumed next) : CurrentLives next.scheduler := by
  cases hending with
  | ignored hnot => exact hlives
  | ended resumed after hstarted hcurrent huser hid hschedules =>
    exact .schedules hschedules

theorem CurrentLives.resumption (hlives : CurrentLives start.scheduler)
    (hresumes : Resumption frame force start resumed next) : CurrentLives next.scheduler := by
  cases hresumes with
  | idle hnot => exact hlives
  | scheduled resumed after hstarted hschedules => exact .schedules hschedules
  | faulted resumed after huser hstate hending =>
    have hreaped : CurrentLives (start.mapScheduler reaped).scheduler :=
      hlives.of_same (sameStates_reaped start.scheduler).sameTasks
        (sameBut_reaped start.scheduler).currentTask
    exact hreaped.ending hending

theorem CurrentLives.addition (hlives : CurrentLives before) (hready : Ready before)
    (hadds : Addition trampoline task before added after) : CurrentLives after := by
  rw [CurrentLives, (hadds.current hready).2]
  exact hlives

theorem CurrentLives.adjusts (hlives : CurrentLives before) (hadjusts : Adjusts before after) :
    CurrentLives after :=
  hlives.of_same hadjusts.sameTasks (by rw [hadjusts.same])

theorem CurrentLives.outcome {reply : Reply} (hlives : CurrentLives start.scheduler)
    (hready : Ready start.scheduler) (henabled : call.Enabled start.scheduler)
    (houtcome : Outcome trampoline start call reply next) : CurrentLives next.scheduler := by
  cases houtcome with
  | addTask kernelDirectory hadds | addUserTaskInSpace hadds =>
    exact hlives.addition hready hadds
  | setPriority answer => exact hlives.adjusts (adjusts_schedulerSetPriority _ _ _)
  | blockTask answer => exact hlives.adjusts (adjusts_schedulerBlockTask _ _)
  | blockCurrent answer => exact hlives.adjusts (adjusts_schedulerBlockCurrent _)
  | wakes hwakes hcall => exact hlives.adjusts hwakes.adjusts
  | start =>
    intro huser
    have hone : 1 ≤ (schedulerStart start.scheduler).currentTask :=
      (ready_schedulerStart hready).one_le_current huser
    have htask : (schedulerStart start.scheduler).current = start.scheduler.current :=
      Function.update_of_ne (Nat.one_le_iff_ne_zero.mp hone) _ _
    have huserBefore : start.scheduler.current.mode = .user := htask ▸ huser
    exact htask ▸ hlives huserBefore
  | onTimer hresumes | onYield hresumes => exact hlives.resumption hresumes
  | onUserFault hends | onUserExit hends => exact hlives.ending hends
  | trampolineMark =>
    intro huser
    have htask : (markReturned start.scheduler).current = _ := current_updateCurrent _ _
    exact absurd ((congrArg Task.mode htask).symm.trans huser) (by simp [henabled.2.1])
  | trampolineRecord => exact hlives

end EfesOS.Process
