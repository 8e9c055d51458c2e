import EfesOS.Process.Readiness

/-!
# The stacks of tasks that return

A kernel task that returns goes on in `scheduler_task_trampoline`, which marks it as terminated and
then, in a second statement and with interrupts enabled, records that its stack is to be freed. A
timer interrupt between the two (`HalfReturned`) takes the processor away for good: the task is not
runnable any more, so the record is never made, and neither its stack nor its slot is used again.

`Reclaimed` says that the stack of every ended task other than the running one is freed or recorded.
`returned_stacks_are_reclaimed_iff` shows that a run keeps it exactly if no timer interrupt comes
between the two statements, and that the next scheduling point frees what is recorded.
-/

set_option autoImplicit false

namespace EfesOS.Process

open EfesOS.Foundation EfesOS.Foundation.Program

variable {M : Type} {trampoline : UInt32} {scheduler before after : Scheduler} {slot : ℕ}
  {frame resumed : Frame} {force : Bool} {start next : Machine Unit}

/-- The stack of the slot has been freed. -/
def Vacated (scheduler : Scheduler) (slot : ℕ) : Prop :=
  (scheduler.tasks slot).stackBase = 0 ∧ (scheduler.tasks slot).frame = none

/-- What `find_task_slot` looks for. -/
structure Reusable (scheduler : Scheduler) (slot : ℕ) : Prop where
  pending : scheduler.pendingReap slot = false
  state : (scheduler.tasks slot).state = .terminated
  vacated : Vacated scheduler slot

/-- The task in the slot has ended and another one runs. -/
structure Ended (scheduler : Scheduler) (slot : ℕ) : Prop where
  one_le : 1 ≤ slot
  state : (scheduler.tasks slot).state = .terminated
  other : slot ≠ scheduler.currentTask

/-- The stack of the slot is freed or recorded. -/
def Reclaims (scheduler : Scheduler) (slot : ℕ) : Prop :=
  Vacated scheduler slot ∨ scheduler.pendingReap slot = true

def Reclaimed (scheduler : Scheduler) : Prop := ∀ slot, Ended scheduler slot →
    Reclaims scheduler slot

/-- The running task has returned and is marked, but not yet recorded. -/
def HalfReturned (scheduler : Scheduler) : Prop :=
  1 ≤ scheduler.currentTask ∧ scheduler.current.state = .terminated ∧
    scheduler.pendingReap scheduler.currentTask = false
  deriving Decidable

/-- The order of `scheduler_task_trampoline`: a task that is marked goes on to record itself. Only
interrupts come in between; those of devices may wake tasks. -/
def TrampolineOrder (scheduler : Scheduler) : Option (Call × Reply) → Prop
  | none => True
  | some (.trampolineRecord, _) => True
  | some (.onTimer _, _) => True
  | some (call, _) => HalfReturned scheduler → call.isWake = true

instance (scheduler : Scheduler) (call : Option (Call × Reply)) :
    Decidable (TrampolineOrder scheduler call) :=
  match call with
  | none | some (.trampolineRecord, _) | some (.onTimer _, _) => inferInstanceAs (Decidable True)
  | some (.onYield _, _) | some (.addTask .., _) | some (.addUserTaskInSpace .., _)
  | some (.setPriority .., _) | some (.blockTask _, _) | some (.blockCurrent, _)
  | some (.wakeTask _, _) | some (.wakeTaskId _, _) | some (.wakeUserTasks, _) | some (.start, _)
  | some (.onUserFault _, _) | some (.onUserExit _, _) | some (.trampolineMark, _) =>
    inferInstanceAs (Decidable (_ → _))

/-- The same order without timer interrupts between the two statements. -/
def TrampolineUninterrupted (scheduler : Scheduler) (call : Option (Call × Reply)) : Prop :=
  TrampolineOrder scheduler call ∧
    (call.any (fun made ↦ made.1.isTimer) = true → ¬HalfReturned scheduler)
  deriving Decidable

/-! ### Scheduling points -/

/-- What a dispatch leaves of the other fields: it changes slices and the running task only. -/
theorem Dispatches.same_stacks (hdispatches : Dispatches frame force before resumed after)
    (slot : ℕ) :
    (after.tasks slot).state = (before.tasks slot).state ∧
      (after.tasks slot).stackBase = (before.tasks slot).stackBase ∧
      (after.tasks slot).frame = (before.tasks slot).frame ∧
      after.pendingReap = before.pendingReap := by
  have hupdated : ∀ (index : ℕ) (update : Task → Task),
      (∀ task, (update task).state = task.state ∧ (update task).stackBase = task.stackBase ∧
        (update task).frame = task.frame) →
      ((before.updateTask index update).tasks slot).state = (before.tasks slot).state ∧
        ((before.updateTask index update).tasks slot).stackBase = (before.tasks slot).stackBase ∧
        ((before.updateTask index update).tasks slot).frame = (before.tasks slot).frame := by
    intro index update hsame
    rw [tasks_updateTask]
    split_ifs with heq
    · exact heq ▸ hsame _
    · exact ⟨rfl, rfl, rfl⟩
  rcases hdispatches.cases with ⟨-, rfl⟩ | ⟨next, -, -, -, ⟨-, rfl⟩ | rfl⟩
  · obtain ⟨hstate, hbase, hframe⟩ := hupdated before.currentTask
      (fun task ↦ { task with ticksLeft := task.ticksLeft - 1 }) fun _ ↦ ⟨rfl, rfl, rfl⟩
    exact ⟨hstate, hbase, hframe, rfl⟩
  · exact ⟨rfl, rfl, rfl, rfl⟩
  · obtain ⟨hstate, hbase, hframe⟩ := hupdated next
      (fun task ↦ { task with switches := task.switches + 1, ticksLeft := task.priority })
      fun _ ↦ ⟨rfl, rfl, rfl⟩
    exact ⟨hstate, hbase, hframe, rfl⟩

/-- A task that has ended does not stay the running one. -/
theorem Dispatches.leaves_ended (hdispatches : Dispatches frame force before resumed after)
    (hended : before.current.state = .terminated) : after.currentTask ≠ before.currentTask := by
  rcases hdispatches.cases with ⟨hspends, -⟩ | ⟨next, -, -, hrunnable, ⟨rfl, -⟩ | rfl⟩
  · cases hended.symm.trans hspends.2.1
  · cases hended.symm.trans hrunnable
  · rintro rfl
    cases hended.symm.trans hrunnable

theorem state_reaped (scheduler : Scheduler) (slot : ℕ) :
    ((reaped scheduler).tasks slot).state = (scheduler.tasks slot).state := by
  rw [(reaped_spec scheduler slot).1, reapedTask]
  split_ifs <;> rfl

section

variable (hschedules : Schedules frame force before resumed after)
include hschedules

/-- Scheduling ends no task and revives none. -/
theorem Schedules.state (slot : ℕ) :
    (after.tasks slot).state = (before.tasks slot).state := by
  rw [(Dispatches.same_stacks hschedules slot).1, ← state_reaped before slot,
    Process.saveFrame, tasks_updateTask]
  split_ifs with heq huser
  · rw [heq]
  · rw [heq]
  · rfl

/-- The slot of an ended task at the next scheduling point. -/
theorem Schedules.vacates (hready : Ready before) (hended : Ended before slot)
    (hreclaims : Reclaims before slot) : Reusable after slot := by
  have hstate := (Schedules.state hschedules slot).trans hended.state
  obtain ⟨-, hbase, hframe, hpending⟩ := Dispatches.same_stacks hschedules slot
  have htask : (saveFrame frame (reaped before)).tasks slot = (reaped before).tasks slot := by
    rw [Process.saveFrame, tasks_updateTask, if_neg]
    rw [(sameBut_reaped before).currentTask]
    exact hended.other
  have hpendingSaved : after.pendingReap slot = (reaped before).pendingReap slot :=
    congrFun hpending slot
  rw [htask] at hbase hframe
  rcases hready.reaped_cases hended.one_le with ⟨-, hreaped, hcleared⟩ | ⟨hnot, hreaped, hkept⟩
  · rw [hreaped] at hbase hframe
    exact ⟨hpendingSaved.trans hcleared, hstate, hbase, hframe⟩
  · rw [hreaped] at hbase hframe
    -- A recorded slot other than the running one is visited, so this one was not recorded.
    have hclear : before.pendingReap slot = false := by
      by_contra hwaits
      have hwaits : before.pendingReap slot = true := by simpa using hwaits
      have hin := ((hready.sound.fits slot).reap hwaits).2
      have hvisits := reapVisits_iff.mpr ⟨⟨hended.one_le, hin⟩, hwaits, hended.other⟩
      cases hnot.symm.trans hvisits
    rw [Reclaims, hclear] at hreclaims
    obtain ⟨hnoBase, hnoFrame⟩ := hreclaims.resolve_right (by simp)
    exact ⟨hpendingSaved.trans (hkept.trans hclear), hstate, hbase.trans hnoBase,
      hframe.trans hnoFrame⟩

/-- The slot of the running task at a scheduling point keeps its stack, and its record if any. -/
theorem Schedules.current :
    (after.tasks before.currentTask).stackBase = before.current.stackBase ∧
      after.pendingReap before.currentTask = before.pendingReap before.currentTask := by
  obtain ⟨-, hbase, -, hpending⟩ := Dispatches.same_stacks hschedules before.currentTask
  have hnot : reapVisits before before.currentTask = false := by simp [reapVisits, reapDue]
  have htask : (reaped before).tasks before.currentTask = before.current := by
    rw [(reaped_spec before _).1, hnot]
    rfl
  have hkept : (reaped before).pendingReap before.currentTask =
      before.pendingReap before.currentTask := by
    rw [(reaped_spec before _).2, hnot, Bool.not_false, Bool.and_true]
  have hsaved : (saveFrame frame (reaped before)).tasks before.currentTask =
      if before.current.mode = .user then
        { before.current with frame := before.current.frame.map fun _ ↦ frame }
      else { before.current with frame := some frame } := by
    rw [Process.saveFrame, (sameBut_reaped before).currentTask, tasks_updateTask, if_pos rfl, htask]
  rw [hbase, hpending, hsaved]
  refine ⟨?_, hkept⟩
  split_ifs <;> rfl

theorem Schedules.currentTask_ne (hended : before.current.state = .terminated) :
    after.currentTask ≠ before.currentTask := by
  have hsame := (sameBut_reaped before).currentTask
  have hsaved : (saveFrame frame (reaped before)).current.state = .terminated := by
    rw [Process.saveFrame, current_updateCurrent, reaped_current]
    split_ifs <;> exact hended
  have hleaves := Dispatches.leaves_ended hschedules hsaved
  exact fun heq ↦ hleaves (heq.trans hsame.symm)

end

/-- A scheduling point keeps stacks reclaimed unless the running task is half returned. -/
theorem Reclaimed.schedules (hreclaimed : Reclaimed before) (hready : Ready before)
    (hreturned : ¬HalfReturned before)
    (hschedules : Schedules frame force before resumed after) : Reclaimed after := by
  intro slot hended
  have hstate : (before.tasks slot).state = .terminated :=
    (Schedules.state hschedules slot).symm.trans hended.state
  by_cases hcurrent : slot = before.currentTask
  · subst hcurrent
    rw [Reclaims, (Schedules.current hschedules).2]
    exact .inr (by_contra fun hnot ↦ hreturned ⟨hended.one_le, hstate, by simpa using hnot⟩)
  · have hbefore : Ended before slot := ⟨hended.one_le, hstate, hcurrent⟩
    exact .inl (Schedules.vacates hschedules hready hbefore (hreclaimed slot hbefore)).vacated

/-- A scheduling point with a half returned task leaves its stack behind. -/
theorem HalfReturned.schedules (hreturned : HalfReturned before) (hready : Ready before)
    (hschedules : Schedules frame force before resumed after) : ¬Reclaimed after := by
  intro hreclaimed
  obtain ⟨hone, hended, hclear⟩ := hreturned
  obtain ⟨hbase, hpending⟩ := Schedules.current hschedules
  have hleft : Ended after before.currentTask :=
    ⟨hone, (Schedules.state hschedules _).trans hended,
      (Schedules.currentTask_ne hschedules hended).symm⟩
  rcases hreclaimed _ hleft with hvacated | hrecorded
  · exact (hready.slots _ hone).current rfl (hbase.symm.trans hvacated.1)
  · cases (hpending.trans hclear).symm.trans hrecorded

theorem ended_reaped : Ended (reaped scheduler) slot ↔ Ended scheduler slot := by
  have hcurrent := (sameBut_reaped scheduler).currentTask
  have hstate := state_reaped scheduler slot
  exact ⟨fun h ↦ ⟨h.one_le, hstate.symm.trans h.state, hcurrent ▸ h.other⟩,
    fun h ↦ ⟨h.one_le, hstate.trans h.state, hcurrent ▸ h.other⟩⟩

theorem Reclaims.reaped (hreclaims : Reclaims scheduler slot) (hready : Ready scheduler)
    (hone : 1 ≤ slot) : Reclaims (reaped scheduler) slot := by
  unfold Reclaims Vacated
  rcases hready.reaped_cases hone with ⟨-, htask, -⟩ | ⟨-, htask, hkept⟩
  · rw [htask]
    exact .inl ⟨rfl, rfl⟩
  · rw [htask, hkept]
    exact hreclaims

theorem Reclaimed.reaped (hreclaimed : Reclaimed scheduler) (hready : Ready scheduler) :
    Reclaimed (reaped scheduler) :=
  fun slot hended ↦ (hreclaimed slot (ended_reaped.mp hended)).reaped hready hended.one_le

theorem ended_terminateCurrent (hended : Ended (terminateCurrent scheduler) slot ∨
      Ended scheduler slot) :
    Ended scheduler slot ∧ Ended (terminateCurrent scheduler) slot ∧
      (Reclaims (terminateCurrent scheduler) slot ↔ Reclaims scheduler slot) := by
  have hother : slot ≠ scheduler.currentTask := hended.elim (·.other) (·.other)
  have htask : (terminateCurrent scheduler).tasks slot = scheduler.tasks slot :=
    Function.update_of_ne hother _ _
  have hpending : (terminateCurrent scheduler).pendingReap slot = scheduler.pendingReap slot :=
    Function.update_of_ne hother _ _
  have hone : 1 ≤ slot := hended.elim (·.one_le) (·.one_le)
  have hstate : (scheduler.tasks slot).state = .terminated :=
    hended.elim (fun h ↦ htask ▸ h.state) (·.state)
  refine ⟨⟨hone, hstate, hother⟩, ⟨hone, htask ▸ hstate, hother⟩, ?_⟩
  unfold Reclaims Vacated
  rw [htask, hpending]

theorem not_halfReturned_terminateCurrent (scheduler : Scheduler) :
    ¬HalfReturned (terminateCurrent scheduler) := by
  intro hreturned
  have hrecorded : (terminateCurrent scheduler).pendingReap scheduler.currentTask = true :=
    Function.update_self _ _ _
  cases hreturned.2.2.symm.trans hrecorded

section

variable (hreclaimed : Reclaimed start.scheduler) (hready : Ready start.scheduler)
include hreclaimed hready

theorem Reclaimed.ending
    (hending : Ending frame start resumed next) : Reclaimed next.scheduler := by
  cases hending with
  | ignored hnot => exact hreclaimed
  | ended resumed after hstarted hcurrent huser hid hschedules =>
    have hready' := ready_terminateCurrent hready (hready.one_le_current huser)
    have hreclaimed' : Reclaimed (terminateCurrent start.scheduler) := by
      intro slot hended
      obtain ⟨hbefore, -, hiff⟩ := ended_terminateCurrent (.inl hended)
      exact hiff.mpr (hreclaimed slot hbefore)
    exact hreclaimed'.schedules hready' (not_halfReturned_terminateCurrent _) hschedules

theorem Reclaimed.resumption (hreturned : ¬HalfReturned start.scheduler)
    (hresumes : Resumption frame force start resumed next) : Reclaimed next.scheduler := by
  cases hresumes with
  | idle hnot => exact hreclaimed
  | scheduled resumed after hstarted hschedules =>
    exact hreclaimed.schedules hready hreturned hschedules
  | faulted resumed after huser hstate hending =>
    have hreaped : Reclaimed (start.mapScheduler Process.reaped).scheduler :=
      hreclaimed.reaped hready
    exact hreaped.ending hready.reaped hending

end

theorem HalfReturned.resumption (hreturned : HalfReturned start.scheduler)
    (hready : Ready start.scheduler) (hresumes : Resumption frame force start resumed next) :
    ¬Reclaimed next.scheduler := by
  cases hresumes with
  | idle hnot =>
    rcases hnot with hnot | hzero
    · have hone := hreturned.1
      rw [hready.idle hnot] at hone
      omega
    · exact absurd hready.sound.count_pos (by omega)
  | scheduled resumed after hstarted hschedules => exact hreturned.schedules hready hschedules
  | faulted resumed after huser hstate hending =>
    cases hreturned.2.1.symm.trans hstate

theorem Ending.vacates (hending : Ending frame start resumed next) (hready : Ready start.scheduler)
    (hstarted : start.scheduler.started = true) (huser : start.scheduler.current.mode = .user)
    (hended : Ended start.scheduler slot) (hreclaims : Reclaims start.scheduler slot) :
    Reusable next.scheduler slot := by
  cases hending with
  | ignored hnot =>
    rcases hnot with hnot | hout | hkernel
    · cases hstarted.symm.trans hnot
    · exact absurd hready.current_lt (by omega)
    · exact absurd huser hkernel
  | ended resumed after _ hcurrent _ hid hschedules =>
    have hready' := ready_terminateCurrent hready (hready.one_le_current huser)
    obtain ⟨-, hended', hiff⟩ := ended_terminateCurrent (.inr hended)
    exact Schedules.vacates hschedules hready' hended' (hiff.mpr hreclaims)

/-- In a scheduler that runs, the next timer interrupt or yield frees the stack of an ended task
that is recorded. -/
theorem Resumption.vacates (hresumes : Resumption frame force start resumed next)
    (hready : Ready start.scheduler) (hstarted : start.scheduler.started = true)
    (hended : Ended start.scheduler slot) (hreclaims : Reclaims start.scheduler slot) :
    Reusable next.scheduler slot := by
  cases hresumes with
  | idle hnot =>
    rcases hnot with hnot | hzero
    · cases hstarted.symm.trans hnot
    · exact absurd hready.sound.count_pos (by omega)
  | scheduled resumed after _ hschedules =>
    exact Schedules.vacates hschedules hready hended hreclaims
  | faulted resumed after huser hstate hending =>
    have hstarted' := (sameBut_reaped start.scheduler).started.trans hstarted
    have huser' := (congrArg Task.mode (reaped_current start.scheduler)).trans huser
    exact hending.vacates hready.reaped hstarted' huser' (ended_reaped.mpr hended)
      (hreclaims.reaped hready hended.one_le)

/-! ### Calls -/

theorem reclaimed_schedulerInit (kernelDirectory : UInt32) :
    Reclaimed (schedulerInit kernelDirectory) := by
  intro slot hended
  have hne : slot ≠ 0 := by
    have hone := hended.one_le
    omega
  refine .inl ?_
  simp [Vacated, schedulerInit, hne, clearedTask]

/-- A change of tasks that ends only tasks without a stack. -/
theorem Reclaimed.keep (hreclaimed : Reclaimed before)
    (hcurrent : after.currentTask = before.currentTask)
    (hpending : ∀ slot, slot ≠ before.currentTask → after.pendingReap slot =
      before.pendingReap slot)
    (htasks : ∀ slot, 1 ≤ slot → slot ≠ before.currentTask → Vacated after slot ∨
      (after.tasks slot).state ≠ .terminated ∨
      ((after.tasks slot).state = (before.tasks slot).state ∧
        (after.tasks slot).stackBase = (before.tasks slot).stackBase ∧
        (after.tasks slot).frame = (before.tasks slot).frame)) :
    Reclaimed after := by
  intro slot hended
  have hother : slot ≠ before.currentTask := hcurrent ▸ hended.other
  rcases htasks slot hended.one_le hother with hvacated | hlive | ⟨hstate, hbase, hframe⟩
  · exact .inl hvacated
  · exact absurd hended.state hlive
  · have hbefore := hreclaimed slot ⟨hended.one_le, hstate ▸ hended.state, hother⟩
    unfold Reclaims Vacated at hbefore ⊢
    rwa [hbase, hframe, hpending slot hother]

theorem Reclaimed.addition {task : Task} {added : Bool} (hreclaimed : Reclaimed before)
    (hrunnable : task.state = .runnable) (hadds : Addition trampoline task before added after) :
    Reclaimed after := by
  rcases hadds.placed with rfl | ⟨free, placed, -, htasks, hcurrent, hpending, hplaced⟩
  · exact hreclaimed
  · refine hreclaimed.keep hcurrent (fun slot _ ↦ by rw [hpending]) fun slot _ _ ↦ ?_
    rw [Vacated, htasks, Function.update_apply]
    split_ifs
    · rcases hplaced with ⟨name, rfl⟩ | ⟨name, taskId, frames, rfl⟩
      · exact .inl ⟨rfl, rfl⟩
      · refine .inr (.inl ?_)
        change task.state ≠ .terminated
        rw [hrunnable]
        simp
    · exact .inr (.inr ⟨rfl, rfl, rfl⟩)

theorem Reclaimed.adjusts (hreclaimed : Reclaimed before) (hadjusts : Adjusts before after) :
    Reclaimed after := by
  refine hreclaimed.keep (by rw [hadjusts.same]) (fun slot _ ↦ by rw [hadjusts.same])
    fun slot _ _ ↦ .inr ?_
  have hadjusted := hadjusts.adjusted slot
  rcases hadjusted.state with hsame | ⟨-, hlive⟩
  · rw [hadjusted.same]
    exact .inr ⟨hsame, rfl, rfl⟩
  · exact .inl hlive

/-- A change of one task that does not end it, unless it is the running one or the boot stack's. -/
theorem Reclaimed.updateTask {index : ℕ} {update : Task → Task} (hreclaimed : Reclaimed scheduler)
    (htask : 1 ≤ index → index ≠ scheduler.currentTask →
      (update (scheduler.tasks index)).state ≠ .terminated ∨
      ((update (scheduler.tasks index)).state = (scheduler.tasks index).state ∧
        (update (scheduler.tasks index)).stackBase = (scheduler.tasks index).stackBase ∧
        (update (scheduler.tasks index)).frame = (scheduler.tasks index).frame)) :
    Reclaimed (scheduler.updateTask index update) := by
  refine hreclaimed.keep rfl (fun _ _ ↦ rfl) fun slot hone hother ↦ .inr ?_
  rw [tasks_updateTask]
  split_ifs with heq
  · subst heq
    exact htask hone hother
  · exact .inr ⟨rfl, rfl, rfl⟩

/-- A call keeps stacks reclaimed unless it is a timer interrupt between the two statements. -/
theorem Reclaimed.outcome {call : Call} {reply : Reply} (hreclaimed : Reclaimed start.scheduler)
    (hready : Ready start.scheduler) (houtcome : Outcome trampoline start call reply next)
    (hallowed : TrampolineUninterrupted start.scheduler (some (call, reply))) :
    Reclaimed next.scheduler := by
  cases houtcome with
  | addTask kernelDirectory hadds | addUserTaskInSpace hadds =>
    exact hreclaimed.addition rfl hadds
  | setPriority answer => exact hreclaimed.adjusts (adjusts_schedulerSetPriority _ _ _)
  | blockTask answer => exact hreclaimed.adjusts (adjusts_schedulerBlockTask _ _)
  | blockCurrent answer => exact hreclaimed.adjusts (adjusts_schedulerBlockCurrent _)
  | wakes hwakes hcall => exact hreclaimed.adjusts hwakes.adjusts
  | start =>
    have hupdated : Reclaimed (start.scheduler.updateTask 0 fun task ↦
        { task with state := .terminated }) := hreclaimed.updateTask fun hone ↦
          absurd hone (by omega)
    exact fun slot hended ↦ hupdated slot ⟨hended.one_le, hended.state, hended.other⟩
  | onTimer hresumes => exact hreclaimed.resumption hready (hallowed.2 rfl) hresumes
  | onYield hresumes =>
    refine hreclaimed.resumption hready (fun hreturned ↦ ?_) hresumes
    exact absurd (hallowed.1 hreturned) Bool.false_ne_true
  | onUserFault hends | onUserExit hends => exact hreclaimed.ending hready hends
  | trampolineMark =>
    have hupdated : Reclaimed (start.scheduler.updateTask start.scheduler.currentTask fun task ↦
        { task with state := .terminated }) :=
      hreclaimed.updateTask fun _ hother ↦ absurd rfl hother
    exact hupdated
  | trampolineRecord =>
    refine hreclaimed.keep rfl (fun slot hother ↦ ?_) fun _ _ _ ↦ .inr (.inr ⟨rfl, rfl, rfl⟩)
    exact Function.update_of_ne hother _ _

/-! ### Runs -/

theorem Reclaimed.move {platform : Platform M} {call : Option (Call × Reply)}
    {machine after : Machine M} (hreclaimed : Reclaimed machine.scheduler)
    (hready : Ready machine.scheduler) (hmove : Move platform call machine after)
    (hallowed : TrampolineUninterrupted machine.scheduler call) : Reclaimed after.scheduler := by
  cases hmove with
  | elsewhere _ _ hsame => exact hsame ▸ hreclaimed
  | call call reply _ _ henabled hrun =>
    have hcontrol : Reclaimed machine.control.scheduler := hreclaimed
    exact hcontrol.outcome hready (perform_outcome platform call machine _ _ hrun) hallowed

/-- A timer interrupt between the two statements leaves a stack behind. -/
theorem HalfReturned.move {platform : Platform M} {reply : Reply} {machine after : Machine M}
    (hreturned : HalfReturned machine.scheduler) (hready : Ready machine.scheduler)
    (hmove : Move platform (some (.onTimer frame, reply)) machine after) :
    ¬Reclaimed after.scheduler := by
  cases hmove with
  | call _ _ _ _ henabled hrun =>
    have hcontrol : HalfReturned machine.control.scheduler := hreturned
    obtain ⟨_, -, hresumes⟩ :=
      (perform_outcome platform (.onTimer frame) machine _ _ hrun).onTimer_resumes
    exact hcontrol.resumption hready hresumes

theorem Run.reclaimed_iff {platform : Platform M} {machine final : Machine M}
    {events : List (Event M)} (hrun : Run platform TrampolineOrder machine events final)
    (hready : Ready machine.scheduler) (hreclaimed : Reclaimed machine.scheduler) :
    (∀ event ∈ events, Reclaimed event.after.scheduler) ↔
      Run platform TrampolineUninterrupted machine events final := by
  induction hrun with
  | nil machine => exact ⟨fun _ ↦ .nil machine, fun _ ↦ List.forall_mem_nil _⟩
  | @cons machine next final call events hallowed hmove hrest ih =>
    constructor
    · intro hevents
      obtain ⟨hnext, hlater⟩ := List.forall_mem_cons.mp hevents
      refine .cons ⟨hallowed, fun htimer hreturned ↦ ?_⟩ hmove
        ((ih (hready.move hmove) hnext).mp hlater)
      obtain ⟨⟨made, reply⟩, rfl, htimer⟩ := (Option.any_eq_true _ _).mp htimer
      cases made with
      | onTimer frame => exact hreturned.move hready hmove hnext
      | _ => cases htimer
    · intro huninterrupted
      cases huninterrupted with
      | cons hallowed hmove hrest =>
        have hnext := hreclaimed.move hready hmove hallowed
        exact List.forall_mem_cons.mpr ⟨hnext, (ih (hready.move hmove) hnext).mpr hrest⟩

/-- In any run from `scheduler_init` that follows the order of the trampoline, the stack of every
ended task other than the running one is freed or recorded in every state, exactly if no timer
interrupt is taken between marking a task and recording it. What is recorded is freed by the next
timer interrupt or yield, and its slot can be used again. -/
theorem returned_stacks_are_reclaimed_iff (platform : Platform M) {kernelDirectory : UInt32}
    {boot final : Machine M} {events : List (Event M)}
    (hinit : boot.scheduler = schedulerInit kernelDirectory)
    (hrun : Run platform TrampolineOrder boot events final) :
    ((∀ event ∈ events, Reclaimed event.after.scheduler) ↔
      Run platform TrampolineUninterrupted boot events final) ∧
    (∀ event ∈ events, ∀ slot frame reply after, event.after.scheduler.started = true →
      Ended event.after.scheduler slot → Reclaims event.after.scheduler slot →
      (Move platform (some (.onTimer frame, reply)) event.after after ∨
        Move platform (some (.onYield frame, reply)) event.after after) →
      Reusable after.scheduler slot) := by
  have hready : Ready boot.scheduler := hinit ▸ ready_schedulerInit kernelDirectory
  refine ⟨hrun.reclaimed_iff hready (hinit ▸ reclaimed_schedulerInit kernelDirectory), ?_⟩
  intro event hevent slot frame reply after hstarted hended hreclaims hmove
  have hreached := (hrun.ready hready).2 event hevent
  rcases hmove with hmove | hmove
  · cases hmove with
    | call _ _ _ _ henabled hperform =>
      obtain ⟨_, -, hresumes⟩ :=
        (perform_outcome platform (.onTimer frame) event.after _ _ hperform).onTimer_resumes
      exact hresumes.vacates hreached hstarted hended hreclaims
  · cases hmove with
    | call _ _ _ _ henabled hperform =>
      obtain ⟨_, -, hresumes⟩ :=
        (perform_outcome platform (.onYield frame) event.after _ _ hperform).onYield_resumes
      exact hresumes.vacates hreached hstarted hended hreclaims

/-- Two kernel tasks run; the first one returns and leaves the processor to the second. -/
def returnOfFirst : List Call :=
  [.addTask (some (CString.ascii "shell")) 0x00101000,
    .addTask (some (CString.ascii "idle")) 0x00102000, .start, .onTimer default, .trampolineMark,
    .trampolineRecord, .onYield default, .onTimer default]

theorem returned_stacks_are_reclaimed_first :
    ∃ events final, Run obligingPlatform TrampolineOrder bootMachine events final ∧
      Vacated final.scheduler 1 ∧ ∀ event ∈ events, Reclaimed event.after.scheduler := by
  have hplays : (play obligingPlatform TrampolineUninterrupted returnOfFirst bootMachine).any
      (fun played ↦ decide ((played.2.scheduler.tasks 1).stackBase = 0) &&
        (played.2.scheduler.tasks 1).frame.isNone) = true := by
    decide +kernel
  obtain ⟨⟨events, final⟩, hplay, hfacts⟩ := (Option.any_eq_true _ _).mp hplays
  simp only [Bool.and_eq_true, decide_eq_true_eq, Option.isNone_iff_eq_none] at hfacts
  have huninterrupted := run_of_play obligingPlatform TrampolineUninterrupted hplay
  have hrun := huninterrupted.mono fun _ _ hallowed ↦ hallowed.1
  have hinit : bootMachine.scheduler = schedulerInit 0x1000 := rfl
  exact ⟨events, final, hrun, hfacts,
    (returned_stacks_are_reclaimed_iff obligingPlatform hinit hrun).1.mpr huninterrupted⟩

/-- The timer interrupt comes between the two statements, and again later. -/
def interruptedReturn : List Call :=
  [.addTask (some (CString.ascii "shell")) 0x00101000,
    .addTask (some (CString.ascii "idle")) 0x00102000, .start, .onTimer default, .trampolineMark,
    .onTimer default, .onTimer default]

/-- The stack of the first task is neither freed nor recorded, and stays so. -/
theorem interrupted_return_loses_stack :
    ∃ events final, Run obligingPlatform TrampolineOrder bootMachine events final ∧
      Ended final.scheduler 1 ∧ ¬Reclaims final.scheduler 1 := by
  have hplays : (play obligingPlatform TrampolineOrder interruptedReturn bootMachine).any
      (fun played ↦ decide ((played.2.scheduler.tasks 1).state = .terminated) &&
        decide (1 ≠ played.2.scheduler.currentTask) && !played.2.scheduler.pendingReap 1 &&
        decide ((played.2.scheduler.tasks 1).stackBase ≠ 0)) = true := by
    decide +kernel
  obtain ⟨⟨events, final⟩, hplay, hfacts⟩ := (Option.any_eq_true _ _).mp hplays
  simp only [Bool.and_eq_true, decide_eq_true_eq, Bool.not_eq_true'] at hfacts
  obtain ⟨⟨⟨hstate, hother⟩, hclear⟩, hbase⟩ := hfacts
  refine ⟨events, final, run_of_play obligingPlatform TrampolineOrder hplay,
    ⟨le_rfl, hstate, hother⟩, ?_⟩
  rintro (hvacated | hrecorded)
  · exact hbase hvacated.1
  · cases hclear.symm.trans hrecorded

end EfesOS.Process
