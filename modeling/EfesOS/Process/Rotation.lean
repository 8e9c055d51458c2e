import EfesOS.Process.Readiness

/-!
# A runnable task is reached in one rotation

The scheduler looks for the next task in slot order, round the table. Count the slots between the
running task and a task that waits for its turn (`distance`): every switch makes the distance
smaller, whatever else is added, ended or woken meanwhile, and the length of the table only decides
which slots exist. A task keeps the processor for at most eight ticks, so the distance and the ticks
left of the running task together (`rank`) fall with every timer interrupt.

`Approaches` says this of one call (`Outcome.approaches`) and `waiting_task_is_reached` of a stretch
of a run in which the task is runnable and waits.
-/

set_option autoImplicit false

namespace EfesOS.Process

open EfesOS.Foundation EfesOS.Foundation.Program

variable {M : Type} {trampoline : UInt32} {scheduler before after : Scheduler} {slot : ℕ}

/-! ### Time slices -/

/-- A task's priority and what is left of its slice are between one and eight ticks. -/
structure Paced (task : Task) : Prop where
  ticks_pos : 1 ≤ task.ticksLeft.toNat
  ticks_le : task.ticksLeft.toNat ≤ 8
  priority_pos : 1 ≤ task.priority.toNat
  priority_le : task.priority.toNat ≤ 8

def AllPaced (scheduler : Scheduler) : Prop := ∀ index, Paced (scheduler.tasks index)

variable {task : Task}

theorem paced_of_default (hpriority : task.priority = schedulerDefaultPriority)
    (hticks : task.ticksLeft = schedulerDefaultPriority) : Paced task := by
  have hpriorityOne : task.priority.toNat = 1 := congrArg UInt32.toNat hpriority
  have hticksOne : task.ticksLeft.toNat = 1 := congrArg UInt32.toNat hticks
  constructor <;> omega

/-- A task whose slice begins anew. -/
theorem Paced.renew {renewed : Task} (hpaced : Paced task)
    (hpriority : renewed.priority = task.priority) (hticks : renewed.ticksLeft = task.priority) :
    Paced renewed := by
  constructor
  · exact hticks ▸ hpaced.priority_pos
  · exact hticks ▸ hpaced.priority_le
  · exact hpriority ▸ hpaced.priority_pos
  · exact hpriority ▸ hpaced.priority_le

theorem Paced.congr {other : Task} (hpaced : Paced task)
    (hpriority : other.priority = task.priority) (hticks : other.ticksLeft = task.ticksLeft) :
    Paced other := by
  constructor
  · exact hticks ▸ hpaced.ticks_pos
  · exact hticks ▸ hpaced.ticks_le
  · exact hpriority ▸ hpaced.priority_pos
  · exact hpriority ▸ hpaced.priority_le

theorem toNat_sub_one {ticks : UInt32} (hmore : 1 < ticks) :
    (ticks - 1).toNat + 1 = ticks.toNat := by
  have hlt : 1 < ticks.toNat := hmore
  rw [UInt32.toNat_sub_of_le _ _ (UInt32.le_of_lt hmore), UInt32.toNat_one]
  omega

variable {index : ℕ}

theorem AllPaced.setTask (hpaced : AllPaced scheduler) (htask : Paced task) :
    AllPaced (scheduler.setTask index task) := by
  intro other
  rw [tasks_setTask]
  split_ifs
  · exact htask
  · exact hpaced other

theorem AllPaced.updateTask (hpaced : AllPaced scheduler) {update : Task → Task}
    (htask : Paced (scheduler.tasks index) → Paced (update (scheduler.tasks index))) :
    AllPaced (scheduler.updateTask index update) :=
  hpaced.setTask (htask (hpaced index))

theorem allPaced_schedulerInit (kernelDirectory : UInt32) :
    AllPaced (schedulerInit kernelDirectory) := by
  intro index
  simp only [schedulerInit, Function.update_apply]
  split_ifs <;> exact paced_of_default rfl rfl

theorem AllPaced.reaped (hpaced : AllPaced scheduler) : AllPaced (reaped scheduler) := by
  intro index
  rw [(reaped_spec scheduler index).1, reapedTask]
  split_ifs
  · exact hpaced index
  · exact (hpaced index).congr rfl rfl
  · exact hpaced index

theorem AllPaced.saveFrame (hpaced : AllPaced scheduler) (frame : Frame) :
    AllPaced (saveFrame frame scheduler) := by
  refine hpaced.updateTask fun htask ↦ ?_
  split_ifs <;> exact htask.congr rfl rfl

variable {frame resumed : Frame} {force : Bool}

theorem AllPaced.dispatches (hpaced : AllPaced before)
    (hdispatches : Dispatches frame force before resumed after) : AllPaced after := by
  rcases hdispatches.cases with ⟨hspends, rfl⟩ | ⟨next, -, -, -, ⟨-, rfl⟩ | rfl⟩
  · refine hpaced.updateTask fun htask ↦ ?_
    have hmore : 1 < (before.tasks before.currentTask).ticksLeft := hspends.2.2
    have hless := toNat_sub_one hmore
    have hlt : 1 < (before.tasks before.currentTask).ticksLeft.toNat := hmore
    have hle := htask.ticks_le
    refine ⟨?_, ?_, htask.priority_pos, htask.priority_le⟩
    · change 1 ≤ (_ - 1 : UInt32).toNat
      omega
    · change (_ - 1 : UInt32).toNat ≤ 8
      omega
  · exact hpaced
  · have hrenewed : AllPaced (before.updateTask next fun task ↦
        { task with switches := task.switches + 1, ticksLeft := task.priority }) :=
      hpaced.updateTask fun htask ↦ htask.renew rfl rfl
    exact hrenewed

theorem AllPaced.schedules (hpaced : AllPaced before)
    (hschedules : Schedules frame force before resumed after) : AllPaced after :=
  (hpaced.reaped.saveFrame frame).dispatches hschedules

/-- Ending a task leaves its slice as it is. -/
theorem AllPaced.terminate (hpaced : AllPaced scheduler) (index : ℕ) :
    AllPaced (scheduler.updateTask index fun task ↦ { task with state := .terminated }) :=
  hpaced.updateTask fun htask ↦ htask.congr rfl rfl

theorem AllPaced.terminateCurrent (hpaced : AllPaced scheduler) :
    AllPaced (terminateCurrent scheduler) :=
  hpaced.terminate scheduler.currentTask

variable {start next : Machine Unit}

theorem AllPaced.ending (hpaced : AllPaced start.scheduler)
    (hending : Ending frame start resumed next) :
    AllPaced next.scheduler := by
  cases hending with
  | ignored hnot => exact hpaced
  | ended resumed after hstarted hcurrent huser hid hschedules =>
    exact hpaced.terminateCurrent.schedules hschedules

theorem AllPaced.resumption (hpaced : AllPaced start.scheduler)
    (hresumes : Resumption frame force start resumed next) :
    AllPaced next.scheduler := by
  cases hresumes with
  | idle hnot => exact hpaced
  | scheduled resumed after hstarted hschedules => exact hpaced.schedules hschedules
  | faulted resumed after huser hstate hending =>
    have hreaped : AllPaced (start.mapScheduler Process.reaped).scheduler := hpaced.reaped
    exact hreaped.ending hending

theorem AllPaced.addition (hpaced : AllPaced before) {added : Bool} (htask : Paced task)
    (hadds : Addition trampoline task before added after) :
    AllPaced after := by
  cases hadds with
  | refused => exact hpaced
  | misnamed slot name hslot => exact hpaced.setTask (paced_of_default rfl rfl)
  | noStack slot hslot =>
    have hadvanced : AllPaced (advanceGeneration slot before) := hpaced
    exact hadvanced.setTask (paced_of_default rfl rfl)
  | added slot name frames hslot =>
    have hadvanced : AllPaced (advanceGeneration slot before) := hpaced
    exact hadvanced.setTask (htask.congr rfl rfl)

theorem AllPaced.adjusts (hpaced : AllPaced before) (hadjusts : Adjusts before after) :
    AllPaced after := by
  intro index
  rcases (hadjusts.adjusted index).slice with ⟨hpriority, hticks | hticks⟩ | ⟨hticks, hne, hle⟩
  · exact (hpaced index).congr hpriority hticks
  · exact (hpaced index).renew hpriority hticks
  · have hbound : (after.tasks index).priority.toNat ≤ 8 := hle
    have hpos : (after.tasks index).priority.toNat ≠ 0 :=
      fun hzero ↦ hne (UInt32.toNat_inj.mp hzero)
    have hone := Nat.one_le_iff_ne_zero.mpr hpos
    exact ⟨hticks ▸ hone, hticks ▸ hbound, hone, hbound⟩

theorem AllPaced.outcome {call : Call} {reply : Reply} (hpaced : AllPaced start.scheduler)
    (houtcome : Outcome trampoline start call reply next) :
    AllPaced next.scheduler := by
  cases houtcome with
  | addTask kernelDirectory hadds | addUserTaskInSpace hadds =>
    exact hpaced.addition (paced_of_default rfl rfl) hadds
  | setPriority answer => exact hpaced.adjusts (adjusts_schedulerSetPriority _ _ _)
  | blockTask answer => exact hpaced.adjusts (adjusts_schedulerBlockTask _ _)
  | blockCurrent answer => exact hpaced.adjusts (adjusts_schedulerBlockCurrent _)
  | wakes hwakes hcall => exact hpaced.adjusts hwakes.adjusts
  | start => exact hpaced.terminate 0
  | onTimer hresumes | onYield hresumes => exact hpaced.resumption hresumes
  | onUserFault hends | onUserExit hends => exact hpaced.ending hends
  | trampolineMark => exact hpaced.terminate start.scheduler.currentTask
  | trampolineRecord => exact hpaced

variable {call : Option (Call × Reply)} {platform : Platform M} {machine : Machine M}

theorem AllPaced.move {next : Machine M} (hpaced : AllPaced machine.scheduler)
    (hmove : Move platform call machine next) : AllPaced next.scheduler := by
  cases hmove with
  | elsewhere _ _ hsame => exact hsame ▸ hpaced
  | call call reply _ _ henabled hrun =>
    have hcontrol : AllPaced machine.control.scheduler := hpaced
    exact hcontrol.outcome (perform_outcome platform call machine _ _ hrun)

/-! ### The search for the next task -/

/-- How many slots the scheduler passes from an index until it is at the slot, in a full table. -/
def distance (slot index : ℕ) : ℕ := (slot + schedulerMaxTasks - index) % schedulerMaxTasks

/-- Stepping round a table of `count` slots towards a slot comes nearer to it. -/
theorem distance_lt_of_offset {count current offset : ℕ} (hcount : count ≤ schedulerMaxTasks)
    (hcurrent : current < count) (hslot : slot < count) (hpos : 1 ≤ offset)
    (hreach : offset ≤ (slot + count - current) % count) :
    distance slot ((current + offset) % count) < distance slot current := by
  have hmax : count ≤ 16 := hcount
  change (slot + 16 - (current + offset) % count) % 16 < (slot + 16 - current) % 16
  have hreaches : offset ≤ if current ≤ slot then slot - current else slot + count - current := by
    split_ifs with hle
    · have hmod : (slot + count - current) % count = slot - current := by
        rw [show slot + count - current = slot - current + count by omega, Nat.add_mod_right,
          Nat.mod_eq_of_lt (by omega)]
      omega
    · have hmod : (slot + count - current) % count = slot + count - current :=
        Nat.mod_eq_of_lt (by omega)
      omega
  by_cases hwraps : current + offset < count
  · rw [Nat.mod_eq_of_lt hwraps]
    split_ifs at hreaches <;> omega
  · have hmod : (current + offset) % count = current + offset - count := by
      rw [Nat.mod_eq_sub_mod (by omega), Nat.mod_eq_of_lt]
      split_ifs at hreaches <;> omega
    split_ifs at hreaches <;> omega

/-- The next task is on the way to any other task that could be dispatched. -/
theorem findNextRunnable_approaches (hcount : scheduler.taskCount ≤ schedulerMaxTasks)
    (hcurrent : scheduler.currentTask < scheduler.taskCount) (hslot : slot < scheduler.taskCount)
    (hother : slot ≠ scheduler.currentTask)
    (hdispatchable : (scheduler.tasks slot).dispatchable = true) :
    distance slot (findNextRunnable scheduler) < distance slot scheduler.currentTask := by
  generalize hreach : (slot + scheduler.taskCount - scheduler.currentTask) % scheduler.taskCount =
    reach
  have hreachLt : reach < scheduler.taskCount := hreach ▸ Nat.mod_lt _ (by omega)
  have hreachPos : 1 ≤ reach := by
    by_contra hzero
    have hdvd : scheduler.taskCount ∣ slot + scheduler.taskCount - scheduler.currentTask :=
      Nat.dvd_of_mod_eq_zero (by omega)
    obtain ⟨quotient, hquotient⟩ := hdvd
    have hone : quotient = 1 := by
      rcases Nat.lt_or_ge quotient 2 with hlt | hge
      · interval_cases quotient <;> omega
      · have := Nat.mul_le_mul_left scheduler.taskCount hge
        omega
    rw [hone] at hquotient
    omega
  have harrives : (scheduler.currentTask + reach) % scheduler.taskCount = slot := by
    rw [← hreach, Nat.add_mod_mod,
      show scheduler.currentTask + (slot + scheduler.taskCount - scheduler.currentTask) =
        slot + scheduler.taskCount by omega, Nat.add_mod_right, Nat.mod_eq_of_lt hslot]
  unfold findNextRunnable
  rw [List.find?_map]
  cases hsearch : (List.range' 1 scheduler.taskCount).find? ((fun index ↦
      (scheduler.tasks index).dispatchable) ∘ fun offset ↦
        (scheduler.currentTask + offset) % scheduler.taskCount) with
  | none =>
    have hnone := List.find?_eq_none.mp hsearch reach (List.mem_range'_1.mpr (by omega))
    simp only [Function.comp_apply, harrives] at hnone
    exact absurd hdispatchable hnone
  | some offset =>
    obtain ⟨-, hmem, hfirst⟩ := List.find?_range'_eq_some.mp hsearch
    have hle : offset ≤ reach := by
      by_contra hlater
      have hskipped := hfirst reach hreachPos (by omega)
      simp only [Function.comp_apply, harrives, hdispatchable, Bool.not_true] at hskipped
      cases hskipped
    exact distance_lt_of_offset hcount hcurrent hslot (List.mem_range'_1.mp hmem).1 (hreach ▸ hle)

/-! ### Waiting for a turn -/

/-- The task in the slot could run, and another one does. -/
@[mk_iff]
structure Waits (scheduler : Scheduler) (slot : ℕ) : Prop where
  state : (scheduler.tasks slot).state = .runnable
  frame : (scheduler.tasks slot).frame ≠ none
  other : slot ≠ scheduler.currentTask

instance (scheduler : Scheduler) (slot : ℕ) : Decidable (Waits scheduler slot) :=
  decidable_of_iff _ (waits_iff scheduler slot).symm

/-- What falls while a task waits: the slots before its turn and the ticks of the running task. -/
def rank (slot : ℕ) (scheduler : Scheduler) : ℕ :=
  8 * distance slot scheduler.currentTask + scheduler.current.ticksLeft.toNat

/-- The running task is the same or one nearer to the slot, and the rank has fallen by the cost. -/
structure Approaches (slot cost : ℕ) (before after : Scheduler) : Prop where
  turn : after.currentTask = before.currentTask ∨
    distance slot after.currentTask < distance slot before.currentTask
  rank : rank slot after + cost ≤ rank slot before

theorem approaches_of_same (hcurrent : after.currentTask = before.currentTask)
    (hticks : after.current.ticksLeft = before.current.ticksLeft) :
    Approaches slot 0 before after where
  turn := .inl hcurrent
  rank := by
    unfold Process.rank
    rw [hcurrent, hticks, Nat.add_zero]

theorem approaches_of_updateTask {update : Task → Task}
    (hticks : ∀ task, (update task).ticksLeft = task.ticksLeft) :
    Approaches slot 0 scheduler (scheduler.updateTask index update) := by
  refine approaches_of_same rfl ?_
  change ((scheduler.updateTask index update).tasks scheduler.currentTask).ticksLeft = _
  rw [tasks_updateTask]
  split_ifs with heq
  · rw [hticks, ← heq]
    rfl
  · rfl

theorem Approaches.weaken {cost less : ℕ} (happroaches : Approaches slot cost before after)
    (hle : less ≤ cost) : Approaches slot less before after :=
  ⟨happroaches.turn, le_trans (by omega) happroaches.rank⟩

/-- In a started scheduler a runnable task is not the boot stack's, so it lies inside the table. -/
theorem Waits.lt_taskCount (hwaits : Waits scheduler slot) (hready : Ready scheduler)
    (hstarted : scheduler.started = true) : 1 ≤ slot ∧ slot < scheduler.taskCount := by
  have hlive : (scheduler.tasks slot).state ≠ .terminated := by
    rw [hwaits.state]
    simp
  have hone : 1 ≤ slot := by
    refine Nat.one_le_iff_ne_zero.mpr fun hzero ↦ hlive ?_
    rw [hzero, hready.boot.state, if_pos hstarted]
  exact ⟨hone, (hready.live hone hlive).2.2.1⟩

theorem rank_le (hpaced : AllPaced scheduler) (slot : ℕ) : rank slot scheduler ≤ 128 := by
  have hticks : scheduler.current.ticksLeft.toNat ≤ 8 := (hpaced _).ticks_le
  have hdistance : distance slot scheduler.currentTask < 16 := Nat.mod_lt _ (by decide)
  unfold rank
  omega

theorem Waits.le_rank (hwaits : Waits scheduler slot) (hready : Ready scheduler)
    (hstarted : scheduler.started = true) (hpaced : AllPaced scheduler) :
    9 ≤ rank slot scheduler := by
  have hticks : 1 ≤ scheduler.current.ticksLeft.toNat := (hpaced _).ticks_pos
  have hcount : scheduler.taskCount ≤ 16 := hready.sound.count_le
  have hslot := (hwaits.lt_taskCount hready hstarted).2
  have hcurrent := hready.current_lt
  have hother := hwaits.other
  have hdistance : 1 ≤ distance slot scheduler.currentTask := by
    change 1 ≤ (slot + 16 - scheduler.currentTask) % 16
    omega
  unfold rank
  omega

/-- Changes of other slots do not end the wait. -/
theorem Waits.congr (hwaits : Waits before slot) (htask : after.tasks slot = before.tasks slot)
    (hcurrent : after.currentTask = before.currentTask) : Waits after slot where
  state := htask ▸ hwaits.state
  frame := htask ▸ hwaits.frame
  other := hcurrent ▸ hwaits.other

section

variable (hwaits : Waits scheduler slot)
include hwaits

theorem Waits.reaped (hready : Ready scheduler) (hone : 1 ≤ slot) :
    Waits (reaped scheduler) slot := by
  refine hwaits.congr ?_ (sameBut_reaped scheduler).currentTask
  rcases hready.reaped_cases hone with ⟨hvisits, -, -⟩ | ⟨-, htask, -⟩
  · have hended := ((hready.sound.fits slot).reap (reapVisits_iff.mp hvisits).2.1).1
    rw [hwaits.state] at hended
    cases hended
  · exact htask

theorem Waits.updateCurrent (update : Task → Task) :
    Waits (scheduler.updateTask scheduler.currentTask update) slot := by
  refine hwaits.congr ?_ rfl
  rw [tasks_updateTask, if_neg hwaits.other]

theorem Waits.saveFrame (frame : Frame) :
    Waits (saveFrame frame scheduler) slot :=
  hwaits.updateCurrent _

theorem Waits.terminateCurrent :
    Waits (terminateCurrent scheduler) slot := by
  have hupdated := hwaits.updateCurrent fun task ↦ { task with state := .terminated }
  exact ⟨hupdated.state, hupdated.frame, hupdated.other⟩

end

/-- A dispatch while a task waits spends a tick or switches to a task nearer to it. -/
theorem Dispatches.approaches (hdispatches : Dispatches frame force before resumed after)
    (hready : Ready before) (hstarted : before.started = true) (hpaced : AllPaced before)
    (hwaits : Waits before slot) :
    Approaches slot 1 before after := by
  have hdispatchable : (before.tasks slot).dispatchable = true := by
    simp [Task.dispatchable, hwaits.state, Option.isSome_iff_ne_none, hwaits.frame]
  have hnearer := findNextRunnable_approaches hready.sound.count_le hready.current_lt
    (hwaits.lt_taskCount hready hstarted).2 hwaits.other hdispatchable
  -- A new task has at most eight ticks, which is what the shorter distance is worth.
  have hticks : after.current.ticksLeft.toNat ≤ 8 := (hpaced.dispatches hdispatches _).ticks_le
  have hpos : 1 ≤ before.current.ticksLeft.toNat := (hpaced _).ticks_pos
  rcases hdispatches.cases with ⟨hspends, rfl⟩ | ⟨next, rfl, -, -, ⟨hsame, -⟩ | rfl⟩
  · have hless := toNat_sub_one hspends.2.2
    refine ⟨.inl rfl, ?_⟩
    unfold Process.rank
    rw [current_updateCurrent]
    change 8 * distance slot before.currentTask + (before.current.ticksLeft - 1).toNat + 1 ≤ _
    omega
  · rw [hsame] at hnearer
    exact absurd hnearer (lt_irrefl _)
  · have hcurrent : (switchTo (findNextRunnable before) before).currentTask =
        findNextRunnable before := rfl
    refine ⟨.inr hnearer, ?_⟩
    unfold Process.rank
    rw [hcurrent]
    omega

theorem Schedules.approaches (hschedules : Schedules frame force before resumed after)
    (hready : Ready before) (hstarted : before.started = true) (hpaced : AllPaced before)
    (hwaits : Waits before slot) :
    Approaches slot 1 before after := by
  have hone := (hwaits.lt_taskCount hready hstarted).1
  have hsame := sameBut_reaped before
  have happroaches := Dispatches.approaches hschedules (hready.reaped.saveFrame frame)
    (hsame.started.trans hstarted) (hpaced.reaped.saveFrame frame)
    ((hwaits.reaped hready hone).saveFrame frame)
  have hcurrent : (saveFrame frame (reaped before)).currentTask = before.currentTask :=
    hsame.currentTask
  have hticks : (saveFrame frame (reaped before)).current.ticksLeft =
      before.current.ticksLeft := by
    rw [Process.saveFrame, current_updateCurrent, reaped_current]
    split_ifs <;> rfl
  have hrank : rank slot (saveFrame frame (reaped before)) = rank slot before := by
    unfold Process.rank
    rw [hcurrent, hticks]
  refine ⟨?_, hrank ▸ happroaches.rank⟩
  rw [← hcurrent]
  exact happroaches.turn

theorem Ending.approaches (hending : Ending frame start resumed next)
    (hready : Ready start.scheduler) (hstarted : start.scheduler.started = true)
    (huser : start.scheduler.current.mode = .user) (hpaced : AllPaced start.scheduler)
    (hwaits : Waits start.scheduler slot) :
    Approaches slot 1 start.scheduler next.scheduler := by
  cases hending with
  | ignored hnot =>
    rcases hnot with hnot | hout | hkernel
    · cases hstarted.symm.trans hnot
    · exact absurd hready.current_lt (by omega)
    · exact absurd huser hkernel
  | ended resumed after _ hcurrent _ hid hschedules =>
    have hone := hready.one_le_current huser
    have happroaches := Schedules.approaches hschedules (ready_terminateCurrent hready hone)
      hstarted hpaced.terminateCurrent hwaits.terminateCurrent
    have hrank : rank slot (terminateCurrent start.scheduler) = rank slot start.scheduler := by
      unfold Process.rank
      rw [current_terminateCurrent]
      rfl
    exact ⟨happroaches.turn, hrank ▸ happroaches.rank⟩

theorem Resumption.approaches (hresumes : Resumption frame force start resumed next)
    (hready : Ready start.scheduler) (hstarted : start.scheduler.started = true)
    (hpaced : AllPaced start.scheduler) (hwaits : Waits start.scheduler slot) :
    Approaches slot 1 start.scheduler next.scheduler := by
  cases hresumes with
  | idle hnot =>
    rcases hnot with hnot | hzero
    · cases hstarted.symm.trans hnot
    · exact absurd hready.sound.count_pos (by omega)
  | scheduled resumed after _ hschedules =>
    exact hschedules.approaches hready hstarted hpaced hwaits
  | faulted resumed after huser hstate hending =>
    have hsame := sameBut_reaped start.scheduler
    have hone := (hwaits.lt_taskCount hready hstarted).1
    have hstill : (start.mapScheduler Process.reaped).scheduler.current.mode = .user :=
      (congrArg Task.mode (reaped_current start.scheduler)).trans huser
    have happroaches := hending.approaches hready.reaped (hsame.started.trans hstarted) hstill
      hpaced.reaped (hwaits.reaped hready hone)
    have hrank : rank slot (Process.reaped start.scheduler) = rank slot start.scheduler := by
      unfold Process.rank
      rw [reaped_current, hsame.currentTask]
    refine ⟨?_, hrank ▸ happroaches.rank⟩
    rw [← hsame.currentTask]
    exact happroaches.turn

/-! ### Calls -/

/-- The system call that blocks the running task yields before interrupts are let in again. -/
def YieldsAfterBlocking (scheduler : Scheduler) : Option (Call × Reply) → Prop
  | none => True
  | some (.onYield _, _) => True
  | some _ => scheduler.current.state ≠ .blocked

instance (scheduler : Scheduler) (call : Option (Call × Reply)) :
    Decidable (YieldsAfterBlocking scheduler call) :=
  match call with
  | none => inferInstanceAs (Decidable True)
  | some (.onYield _, _) => inferInstanceAs (Decidable True)
  | some (.addTask .., _) | some (.addUserTaskInSpace .., _) | some (.setPriority .., _)
  | some (.blockTask _, _) | some (.blockCurrent, _) | some (.wakeTask _, _)
  | some (.wakeTaskId _, _) | some (.wakeUserTasks, _) | some (.start, _) | some (.onTimer _, _)
  | some (.onUserFault _, _) | some (.onUserExit _, _) | some (.trampolineMark, _)
  | some (.trampolineRecord, _) => inferInstanceAs (Decidable (_ ≠ _))

theorem Addition.approaches {added : Bool} (hadds : Addition trampoline task before added after)
    (hready : Ready before) :
    Approaches slot 0 before after :=
  approaches_of_same (hadds.current hready).1 (congrArg Task.ticksLeft (hadds.current hready).2)

/-- While a task waits, every call leaves the running task or brings it nearer, and every timer
interrupt costs a unit of the rank. -/
theorem Outcome.approaches {call : Call} {reply : Reply}
    (houtcome : Outcome trampoline start call reply next) (hready : Ready start.scheduler)
    (hstarted : start.scheduler.started = true) (hpaced : AllPaced start.scheduler)
    (hallowed : YieldsAfterBlocking start.scheduler (some (call, reply)))
    (henabled : call.Enabled start.scheduler) (hwaits : Waits start.scheduler slot) :
    Approaches slot call.isTimer.toNat start.scheduler next.scheduler := by
  cases houtcome with
  | addTask kernelDirectory hadds | addUserTaskInSpace hadds =>
    exact hadds.approaches hready
  | setPriority answer =>
    simp only [Machine.mapScheduler, schedulerSetPriority, hstarted, or_true, if_true]
    exact approaches_of_same rfl rfl
  | blockTask answer =>
    simp only [Machine.mapScheduler, schedulerBlockTask, hstarted, true_or, or_true, if_true]
    exact approaches_of_same rfl rfl
  | blockCurrent answer =>
    simp only [Machine.mapScheduler, schedulerBlockCurrent]
    split_ifs
    · exact approaches_of_same rfl rfl
    · dsimp only
      exact approaches_of_updateTask fun _ ↦ rfl
  | @wakes call reply after hwakes hcall =>
    have hawake : call.isTimer = false ∧ start.scheduler.current.state ≠ .blocked := by
      cases call <;> first
        | exact absurd hcall Bool.false_ne_true
        | exact ⟨rfl, hallowed⟩
    have hcurrent : after.currentTask = start.scheduler.currentTask := by rw [hwakes.same]
    have htask := (hwakes.task start.scheduler.currentTask).resolve_right
      fun hwoken ↦ hawake.2 hwoken.1
    rw [hawake.1]
    refine approaches_of_same hcurrent ?_
    rw [Scheduler.current, hcurrent, htask]
    rfl
  | start =>
    have happroaches : Approaches slot 0 start.scheduler (start.scheduler.updateTask 0 fun task ↦
        { task with state := .terminated }) := approaches_of_updateTask fun _ ↦ rfl
    exact ⟨happroaches.turn, happroaches.rank⟩
  | onTimer hresumes => exact hresumes.approaches hready hstarted hpaced hwaits
  | onYield hresumes =>
    exact (hresumes.approaches hready hstarted hpaced hwaits).weaken (Nat.zero_le _)
  | onUserFault hends =>
    exact (hends.approaches hready hstarted henabled hpaced hwaits).weaken (Nat.zero_le _)
  | onUserExit hends =>
    exact (hends.approaches hready hstarted henabled hpaced hwaits).weaken (Nat.zero_le _)
  | trampolineMark =>
    have happroaches : Approaches slot 0 start.scheduler (start.scheduler.updateTask
        start.scheduler.currentTask fun task ↦ { task with state := .terminated }) :=
      approaches_of_updateTask fun _ ↦ rfl
    exact ⟨happroaches.turn, happroaches.rank⟩
  | trampolineRecord => exact approaches_of_same rfl rfl

/-! ### Stretches of a run -/

def Event.isTimer (event : Event M) : Bool := event.call.any fun call ↦ call.1.isTimer

/-- The slots that are made current, in order, from a point where the given one is. -/
def madeCurrent : ℕ → List (Event M) → List ℕ
  | _, [] => []
  | current, event :: rest =>
    let next := event.after.scheduler.currentTask
    if next = current then madeCurrent current rest else next :: madeCurrent next rest

theorem started_move {next : Machine M} (hstarted : machine.scheduler.started = true)
    (hmove : Move platform call machine next) : next.scheduler.started = true := by
  cases hmove with
  | elsewhere _ _ hsame => exact hsame ▸ hstarted
  | call call reply _ _ henabled hrun =>
    exact (perform_outcome platform call machine _ _ hrun).started hstarted

theorem Move.approaches {next : Machine M} (hmove : Move platform call machine next)
    (hready : Ready machine.scheduler) (hstarted : machine.scheduler.started = true)
    (hpaced : AllPaced machine.scheduler) (hallowed : YieldsAfterBlocking machine.scheduler call)
    (hwaits : Waits machine.scheduler slot) :
    Approaches slot (Event.isTimer ⟨call, next⟩).toNat machine.scheduler next.scheduler := by
  cases hmove with
  | elsewhere _ _ hsame =>
    rw [hsame]
    exact approaches_of_same rfl rfl
  | call call reply _ _ henabled hrun =>
    exact (perform_outcome platform call machine _ _ hrun).approaches hready hstarted hpaced
      hallowed
      henabled hwaits

/-- What a stretch of a run does while the slot waits: the slots made current come nearer one by
one, and the timer interrupts are paid for by the rank. -/
theorem Run.approaches {final : Machine M} {events : List (Event M)}
    (hrun : Run platform YieldsAfterBlocking machine events final)
    (hready : Ready machine.scheduler) (hstarted : machine.scheduler.started = true)
    (hpaced : AllPaced machine.scheduler) (hwaits : Waits machine.scheduler slot)
    (hkeeps : ∀ event ∈ events, Waits event.after.scheduler slot) :
    (machine.scheduler.currentTask :: madeCurrent machine.scheduler.currentTask events).Pairwise
        (fun earlier later ↦ distance slot later < distance slot earlier) ∧
      events.countP Event.isTimer + 9 ≤ rank slot machine.scheduler := by
  induction hrun with
  | nil machine =>
    refine ⟨List.pairwise_singleton _ _, ?_⟩
    exact hwaits.le_rank hready hstarted hpaced
  | @cons machine next final call events hallowed hmove hrest ih =>
    obtain ⟨hnext, hlater⟩ := List.forall_mem_cons.mp hkeeps
    have happroaches := hmove.approaches hready hstarted hpaced hallowed hwaits
    obtain ⟨hpairwise, htimers⟩ := ih (hready.move hmove) (started_move hstarted hmove)
      (hpaced.move hmove) hnext hlater
    constructor
    · rw [madeCurrent]
      split_ifs with hsame
      · rwa [hsame] at hpairwise
      · refine List.pairwise_cons.mpr ⟨fun later hmem ↦ ?_, hpairwise⟩
        have hnearer := happroaches.turn.resolve_left hsame
        rcases List.mem_cons.mp hmem with rfl | hmem
        · exact hnearer
        · exact (List.rel_of_pairwise_cons hpairwise hmem).trans hnearer
    · have hrank := happroaches.rank
      rw [List.countP_cons]
      split_ifs with htimer
      · rw [htimer] at hrank
        change rank slot next.scheduler + 1 ≤ _ at hrank
        omega
      · omega

/-- Consider any stretch of a run after `scheduler_start` during which the task of a slot is
runnable and waits, whatever the other tasks do. No slot is made current twice in it, the slot that
is current at its beginning is not made current again, and at most 120 timer interrupts are taken.
-/
theorem waiting_task_is_reached (platform : Platform M) {kernelDirectory : UInt32}
    {boot machine final : Machine M} {earlier events : List (Event M)}
    (hinit : boot.scheduler = schedulerInit kernelDirectory)
    (hreached : Run platform YieldsAfterBlocking boot earlier machine)
    (hstarted : machine.scheduler.started = true)
    (hstretch : Run platform YieldsAfterBlocking machine events final)
    (hwaits : Waits machine.scheduler slot)
    (hkeeps : ∀ event ∈ events, Waits event.after.scheduler slot) :
    (machine.scheduler.currentTask :: madeCurrent machine.scheduler.currentTask events).Nodup ∧
      events.countP Event.isTimer ≤ 120 := by
  have hready := (hreached.ready (hinit ▸ ready_schedulerInit kernelDirectory)).1
  have hpaced : AllPaced machine.scheduler :=
    (hreached.invariant (fun _ hmove hpaced ↦ hpaced.move hmove)
      (hinit ▸ allPaced_schedulerInit kernelDirectory)).1
  obtain ⟨hpairwise, htimers⟩ := hstretch.approaches hready hstarted hpaced hwaits hkeeps
  refine ⟨hpairwise.imp fun hnearer heq ↦ ?_, ?_⟩
  · rw [heq] at hnearer
    exact lt_irrefl _ hnearer
  · have hrank := rank_le hpaced slot
    omega

/-- Three kernel tasks, before the first timer interrupt. -/
def threeTasks : List Call :=
  [.addTask (some (CString.ascii "shell")) 0x00101000,
    .addTask (some (CString.ascii "logger")) 0x00102000,
    .addTask (some (CString.ascii "idle")) 0x00103000, .start]

/-- The third task waits while the first two have their turns. -/
theorem waiting_task_is_reached_third :
    ∃ machine events final, Run obligingPlatform YieldsAfterBlocking machine events final ∧
      madeCurrent machine.scheduler.currentTask events = [1, 2] ∧
      (machine.scheduler.currentTask :: madeCurrent machine.scheduler.currentTask events).Nodup ∧
      events.countP Event.isTimer ≤ 120 := by
  have hplays : (play obligingPlatform YieldsAfterBlocking threeTasks bootMachine).any (fun start ↦
      (play obligingPlatform YieldsAfterBlocking [.onTimer default, .onYield default] start.2).any
        fun stretch ↦ start.2.scheduler.started && decide (Waits start.2.scheduler 3) &&
          stretch.1.all (fun event ↦ decide (Waits event.after.scheduler 3)) &&
          decide (madeCurrent start.2.scheduler.currentTask stretch.1 = [1, 2])) = true := by
    decide +kernel
  obtain ⟨⟨earlier, machine⟩, hstart, hstretch⟩ := (Option.any_eq_true _ _).mp hplays
  obtain ⟨⟨events, final⟩, hplay, hfacts⟩ := (Option.any_eq_true _ _).mp hstretch
  simp only [Bool.and_eq_true, decide_eq_true_eq, List.all_eq_true] at hfacts
  obtain ⟨⟨⟨hstarted, hwaits⟩, hkeeps⟩, hmade⟩ := hfacts
  have hrun := run_of_play obligingPlatform YieldsAfterBlocking hplay
  have hinit : bootMachine.scheduler = schedulerInit 0x1000 := rfl
  exact ⟨machine, events, final, hrun, hmade, waiting_task_is_reached obligingPlatform hinit
    (run_of_play obligingPlatform YieldsAfterBlocking hstart) hstarted hrun hwaits hkeeps⟩

end EfesOS.Process
