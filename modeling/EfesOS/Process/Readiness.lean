import EfesOS.Process.Runs

/-!
# The stacks of the tasks

`Ready` is what every call of the scheduler keeps true from `scheduler_init` on, next to the
soundness of the task table: a slot other than that of the boot stack either has the stack reserved
for it and a frame, or neither; it has them while its task has not ended, while its stack waits to
be freed and while it is the running one; slots outside the table have none. `Ready.outcome` shows
this for each call and `Run.ready` for every state of a run.
-/

set_option autoImplicit false

namespace EfesOS.Process

open EfesOS.Foundation EfesOS.Foundation.Program

variable {M : Type} {trampoline : UInt32} {scheduler before after : Scheduler}

/-- The stack of a task in a slot other than the first. -/
structure HasStack (scheduler : Scheduler) (index : ℕ) (task : Task) : Prop where
  base : task.stackBase = 0 ∨ task.stackBase = stackBaseOf index
  frame : task.frame = none ↔ task.stackBase = 0
  live : task.state ≠ .terminated → task.stackBase ≠ 0
  pending : scheduler.pendingReap index = true → task.stackBase ≠ 0
  current : index = scheduler.currentTask → task.stackBase ≠ 0
  outside : scheduler.taskCount ≤ index → task.stackBase = 0

/-- The boot stack's task, which is over once the scheduler runs. -/
structure IsBoot (scheduler : Scheduler) (task : Task) : Prop where
  mode : task.mode = .kernel
  base : task.stackBase = 0
  state : task.state = if scheduler.started then .terminated else .runnable

structure Ready (scheduler : Scheduler) : Prop where
  sound : Sound scheduler
  current_lt : scheduler.currentTask < scheduler.taskCount
  idle : scheduler.started = false → scheduler.currentTask = 0
  boot : IsBoot scheduler (scheduler.tasks 0)
  boot_pending : scheduler.pendingReap 0 = false
  slots : ∀ index, 1 ≤ index → HasStack scheduler index (scheduler.tasks index)

variable {slot : ℕ}

theorem stackBaseOf_ne_zero (hslot : slot < schedulerMaxTasks) :
    stackBaseOf slot ≠ 0 := by
  have hall : (List.range schedulerMaxTasks).all (fun index ↦ stackBaseOf index != 0) = true := by
    decide
  simpa using List.all_eq_true.mp hall slot (List.mem_range.mpr hslot)

variable {index : ℕ}

/-- A live task has the stack of its slot. -/
theorem Ready.live (hready : Ready scheduler) (hone : 1 ≤ index)
    (hlive : (scheduler.tasks index).state ≠ .terminated) :
    (scheduler.tasks index).stackBase = stackBaseOf index ∧ (scheduler.tasks index).frame ≠ none ∧
      index < scheduler.taskCount ∧ scheduler.pendingReap index = false := by
  have hstack := hready.slots index hone
  have hbase := hstack.live hlive
  refine ⟨hstack.base.resolve_left hbase, fun hnone ↦ hbase (hstack.frame.mp hnone), ?_, ?_⟩
  · exact not_le.mp fun houtside ↦ hbase (hstack.outside houtside)
  · cases hpending : scheduler.pendingReap index with
    | false => rfl
    | true => exact absurd ((hready.sound.fits index).reap hpending).1 hlive

theorem ready_schedulerInit (kernelDirectory : UInt32) : Ready (schedulerInit kernelDirectory) where
  sound := sound_schedulerInit kernelDirectory
  current_lt := Nat.one_pos
  idle := fun _ ↦ rfl
  boot := ⟨rfl, rfl, rfl⟩
  boot_pending := rfl
  slots := by
    intro index hone
    have hne : index ≠ 0 := by omega
    have htask : (schedulerInit kernelDirectory).tasks index = clearedTask := by
      simp [schedulerInit, hne]
    rw [htask]
    exact ⟨.inl rfl, ⟨fun _ ↦ rfl, fun _ ↦ rfl⟩, fun hlive ↦ absurd rfl hlive,
      by simp [schedulerInit], fun hcurrent ↦ absurd hcurrent hne, fun _ ↦ rfl⟩

/-! ### Changes of tasks -/

/-- A change of a task that moves no stack and revives no ended task. -/
structure KeepsStack (old new : Task) : Prop where
  base : new.stackBase = old.stackBase
  frame : new.frame = none ↔ old.frame = none
  live : new.state ≠ .terminated → old.state ≠ .terminated

theorem KeepsStack.refl (task : Task) : KeepsStack task task :=
  ⟨rfl, Iff.rfl, id⟩

theorem HasStack.keep {old new : Task} (hstack : HasStack before index old)
    (hkeeps : KeepsStack old new) (hpending : after.pendingReap = before.pendingReap)
    (hcurrent : after.currentTask = before.currentTask)
    (hcount : after.taskCount = before.taskCount) : HasStack after index new where
  base := hkeeps.base ▸ hstack.base
  frame := by rw [hkeeps.frame, hkeeps.base, hstack.frame]
  live := fun hlive ↦ hkeeps.base ▸ hstack.live (hkeeps.live hlive)
  pending := by
    rw [hpending, hkeeps.base]
    exact hstack.pending
  current := by
    rw [hcurrent, hkeeps.base]
    exact hstack.current
  outside := by
    rw [hcount, hkeeps.base]
    exact hstack.outside

/-- A call that only changes tasks, moves no stack and leaves the boot stack's task alone. -/
theorem Ready.keep (hready : Ready before) (hsound : Sound after)
    (hsame : after = { before with tasks := after.tasks })
    (hboot : (after.tasks 0).mode = (before.tasks 0).mode ∧
      (after.tasks 0).stackBase = (before.tasks 0).stackBase ∧
      (after.tasks 0).state = (before.tasks 0).state)
    (hkeeps : ∀ index, 1 ≤ index → KeepsStack (before.tasks index) (after.tasks index)) :
    Ready after := by
  have hcount : after.taskCount = before.taskCount := by rw [hsame]
  have hcurrent : after.currentTask = before.currentTask := by rw [hsame]
  have hstarted : after.started = before.started := by rw [hsame]
  have hpending : after.pendingReap = before.pendingReap := by rw [hsame]
  refine ⟨hsound, ?_, ?_, ?_, ?_, fun index hone ↦ ?_⟩
  · rw [hcount, hcurrent]
    exact hready.current_lt
  · rw [hstarted, hcurrent]
    exact hready.idle
  · refine ⟨hboot.1.trans hready.boot.mode, hboot.2.1.trans hready.boot.base, ?_⟩
    rw [hstarted]
    exact hboot.2.2.trans hready.boot.state
  · rw [hpending]
    exact hready.boot_pending
  · exact (hready.slots index hone).keep (hkeeps index hone) hpending hcurrent hcount

theorem Ready.updateTask (hready : Ready scheduler) {update : Task → Task}
    (hsound : Sound (scheduler.updateTask index update))
    (hboot : index = 0 → (update (scheduler.tasks 0)).mode = (scheduler.tasks 0).mode ∧
      (update (scheduler.tasks 0)).stackBase = (scheduler.tasks 0).stackBase ∧
      (update (scheduler.tasks 0)).state = (scheduler.tasks 0).state)
    (hkeeps : 1 ≤ index → KeepsStack (scheduler.tasks index) (update (scheduler.tasks index))) :
    Ready (scheduler.updateTask index update) := by
  refine hready.keep hsound rfl ?_ fun other hone ↦ ?_
  · rw [tasks_updateTask]
    split_ifs with hzero
    · subst hzero
      exact hboot rfl
    · exact ⟨rfl, rfl, rfl⟩
  · rw [tasks_updateTask]
    split_ifs with heq
    · subst heq
      exact hkeeps hone
    · exact .refl _

theorem Ready.adjusts (hready : Ready before) (hadjusts : Adjusts before after) : Ready after := by
  have hboot : after.tasks 0 = before.tasks 0 := by
    refine (hadjusts.task 0).resolve_right fun hchanged ↦ ?_
    have hstate := (hchanged.1.resolve_left (absurd rfl)).symm.trans hready.boot.state
    split_ifs at hstate
  refine hready.keep (hready.sound.adjusts hadjusts) hadjusts.same ?_ fun index _ ↦ ?_
  · rw [hboot]
    exact ⟨rfl, rfl, rfl⟩
  · have hadjusted := hadjusts.adjusted index
    have hended := hadjusted.ended
    rw [hadjusted.same]
    exact ⟨rfl, Iff.rfl, mt hended.mpr⟩

section

variable (hready : Ready scheduler)
include hready

theorem ready_markReturned (hone : 1 ≤ scheduler.currentTask) :
    Ready (markReturned scheduler) := by
  refine hready.updateTask ?_ (fun hzero ↦ absurd hzero (by omega))
    fun _ ↦ ⟨rfl, Iff.rfl, fun hlive ↦ absurd rfl hlive⟩
  exact hready.sound.updateTask rfl rfl fun hlive ↦ absurd rfl hlive

/-- The running task, boot stack apart, has a stack and a frame. -/
theorem Ready.current_frame (hone : 1 ≤ scheduler.currentTask) :
    scheduler.current.frame ≠ none :=
  fun hnone ↦ (hready.slots _ hone).current rfl ((hready.slots _ hone).frame.mp hnone)

theorem Ready.saveFrame (frame : Frame) :
    Ready (saveFrame frame scheduler) := by
  refine hready.updateTask (hready.sound.saveFrame frame) (fun _ ↦ ?_) fun hone ↦ ?_
  · split_ifs <;> exact ⟨rfl, rfl, rfl⟩
  · have hframe : (scheduler.tasks scheduler.currentTask).frame ≠ none := hready.current_frame hone
    split_ifs
    · exact ⟨rfl, by simp, id⟩
    · exact ⟨rfl, by simpa using hframe, id⟩

theorem Ready.spendTick :
    Ready (scheduler.updateTask scheduler.currentTask fun task ↦
      { task with ticksLeft := task.ticksLeft - 1 }) :=
  hready.updateTask (hready.sound.updateBookkeeping _ fun _ ↦ ⟨rfl, rfl, rfl, rfl⟩)
    (fun _ ↦ ⟨rfl, rfl, rfl⟩) fun _ ↦ ⟨rfl, Iff.rfl, id⟩

/-! ### Changes of the running task and of the pending stacks -/

theorem ready_schedulerStart : Ready (schedulerStart scheduler) where
  sound := sound_schedulerStart hready.sound
  current_lt := hready.current_lt
  idle := nofun
  boot := ⟨hready.boot.mode, hready.boot.base, rfl⟩
  boot_pending := hready.boot_pending
  slots := by
    intro index hone
    have htask : (schedulerStart scheduler).tasks index = scheduler.tasks index :=
      Function.update_of_ne (by omega) _ _
    rw [htask]
    exact (hready.slots index hone).keep (.refl _) rfl rfl rfl

theorem ready_switchTo (hstarted : scheduler.started = true) {next : ℕ}
    (hnext : next < scheduler.taskCount) (hrunnable : (scheduler.tasks next).state = .runnable) :
    Ready (switchTo next scheduler) := by
  have hupdated := hready.updateTask (hready.sound.updateBookkeeping next
      (fun _ ↦ ⟨rfl, rfl, rfl, rfl⟩ : ∀ task : Task, ({ task with
        switches := task.switches + 1, ticksLeft := task.priority } : Task).taskId =
          task.taskId ∧ _))
    (fun _ ↦ ⟨rfl, rfl, rfl⟩) fun _ ↦ ⟨rfl, Iff.rfl, id⟩
  refine ⟨hready.sound.switchTo next, hnext, ?_, ?_, hready.boot_pending, fun index hone ↦ ?_⟩
  · exact fun hnot ↦ by cases hstarted.symm.trans hnot
  · exact ⟨hupdated.boot.mode, hupdated.boot.base, hupdated.boot.state⟩
  · have hstack := hupdated.slots index hone
    refine ⟨hstack.base, hstack.frame, hstack.live, hstack.pending, fun hcurrent ↦ ?_,
      hstack.outside⟩
    obtain rfl : index = next := hcurrent
    apply hstack.live
    rw [tasks_updateTask, if_pos rfl]
    rw [hrunnable]
    simp

/-- The running task has ended and its stack waits to be freed. -/
theorem ready_setPending (hone : 1 ≤ scheduler.currentTask)
    (hterminated : scheduler.current.state = .terminated) : Ready (recordReturned scheduler) := by
  refine ⟨hready.sound.setPending hready.current_lt hterminated, hready.current_lt, hready.idle,
    ⟨hready.boot.mode, hready.boot.base, hready.boot.state⟩, ?_, fun index hindex ↦ ?_⟩
  · exact (Function.update_of_ne (by omega) _ _).trans hready.boot_pending
  · have hstack := hready.slots index hindex
    refine ⟨hstack.base, hstack.frame, hstack.live, fun hpending ↦ ?_, hstack.current,
      hstack.outside⟩
    by_cases hcurrent : index = scheduler.currentTask
    · exact hstack.current hcurrent
    · refine hstack.pending ?_
      change Function.update scheduler.pendingReap _ true index = true at hpending
      rwa [Function.update_of_ne hcurrent] at hpending

theorem ready_terminateCurrent (hone : 1 ≤ scheduler.currentTask) :
    Ready (terminateCurrent scheduler) := by
  refine ready_setPending (ready_markReturned hready hone) hone ?_
  exact congrArg Task.state (current_terminateCurrent scheduler)

end

/-! ### Freeing stacks -/

theorem reapVisits_iff : reapVisits scheduler index = true ↔
    scheduler.InTable index ∧ scheduler.pendingReap index = true ∧
      index ≠ scheduler.currentTask := by
  simp [reapVisits, reapDue]

/-- A slot after freeing stacks: it was visited and its stack is gone, or nothing has changed. -/
theorem Ready.reaped_cases (hready : Ready scheduler) (hone : 1 ≤ index) :
    (reapVisits scheduler index = true ∧
      (reaped scheduler).tasks index = releasedStack (scheduler.tasks index) ∧
      (reaped scheduler).pendingReap index = false) ∨
    (reapVisits scheduler index = false ∧
      (reaped scheduler).tasks index = scheduler.tasks index ∧
      (reaped scheduler).pendingReap index = scheduler.pendingReap index) := by
  obtain ⟨htask, hpending⟩ := reaped_spec scheduler index
  cases hvisits : reapVisits scheduler index with
  | true =>
    have hbase := (hready.slots index hone).pending (reapVisits_iff.mp hvisits).2.1
    rw [hvisits, if_pos rfl, reapedTask, if_neg hbase] at htask
    rw [hvisits, Bool.not_true, Bool.and_false] at hpending
    exact .inl ⟨rfl, htask, hpending⟩
  | false =>
    rw [hvisits, if_neg Bool.false_ne_true] at htask
    rw [hvisits, Bool.not_false, Bool.and_true] at hpending
    exact .inr ⟨rfl, htask, hpending⟩

/-- Freeing stacks does not look at the boot stack's slot. -/
theorem reaped_boot (scheduler : Scheduler) :
    (reaped scheduler).tasks 0 = scheduler.tasks 0 ∧
      (reaped scheduler).pendingReap 0 = scheduler.pendingReap 0 := by
  have hnot : reapVisits scheduler 0 = false := by simp [reapVisits]
  obtain ⟨htask, hpending⟩ := reaped_spec scheduler 0
  rw [hnot, Bool.not_false, Bool.and_true] at hpending
  exact ⟨htask, hpending⟩

theorem Ready.sound_reaped (hready : Ready scheduler) : Sound (reaped scheduler) := by
  have hsame := sameBut_reaped scheduler
  refine ⟨hsame.taskCount ▸ hready.sound.count_pos, hsame.taskCount ▸ hready.sound.count_le,
    fun index ↦ ?_⟩
  have hfits := hready.sound.fits index
  rcases Nat.eq_zero_or_pos index with rfl | hone
  · obtain ⟨htask, hpending⟩ := reaped_boot scheduler
    rw [htask]
    exact ⟨hfits.id_slot, hsame.taskCount ▸ hfits.live_user,
      by rw [hpending, hsame.taskCount]; exact hfits.reap⟩
  · rcases hready.reaped_cases hone with ⟨hvisits, htask, hpending⟩ | ⟨-, htask, hpending⟩
    · have hended := (hfits.reap (reapVisits_iff.mp hvisits).2.1).1
      rw [htask]
      refine ⟨hfits.id_slot, fun _ hlive ↦ absurd hended hlive, fun htrue ↦ ?_⟩
      rw [hpending] at htrue
      cases htrue
    · rw [htask]
      exact ⟨hfits.id_slot, hsame.taskCount ▸ hfits.live_user,
        by rw [hpending, hsame.taskCount]; exact hfits.reap⟩

theorem Ready.reaped (hready : Ready scheduler) : Ready (reaped scheduler) := by
  have hsame := sameBut_reaped scheduler
  obtain ⟨hboot, hbootPending⟩ := reaped_boot scheduler
  refine ⟨hready.sound_reaped, ?_, ?_, ?_, hbootPending.trans hready.boot_pending,
    fun index hone ↦ ?_⟩
  · rw [hsame.currentTask, hsame.taskCount]
    exact hready.current_lt
  · rw [hsame.started, hsame.currentTask]
    exact hready.idle
  · rw [hboot]
    exact ⟨hready.boot.mode, hready.boot.base, hsame.started ▸ hready.boot.state⟩
  · have hstack := hready.slots index hone
    rcases hready.reaped_cases hone with ⟨hvisits, htask, hpending⟩ | ⟨-, htask, hpending⟩
    · obtain ⟨-, hwaits, hother⟩ := reapVisits_iff.mp hvisits
      have hended := ((hready.sound.fits index).reap hwaits).1
      rw [htask]
      refine ⟨.inl rfl, ⟨fun _ ↦ rfl, fun _ ↦ rfl⟩, fun hlive ↦ absurd hended hlive, ?_, ?_,
        fun _ ↦ rfl⟩
      · rw [hpending]
        simp
      · rw [hsame.currentTask]
        exact fun hcurrent ↦ absurd hcurrent hother
    · rw [htask]
      refine ⟨hstack.base, hstack.frame, hstack.live, ?_, ?_, ?_⟩
      · rw [hpending]
        exact hstack.pending
      · rw [hsame.currentTask]
        exact hstack.current
      · rw [hsame.taskCount]
        exact hstack.outside

/-! ### Scheduling points -/

variable {frame resumed : Frame} {force : Bool}

theorem Ready.dispatches (hready : Ready before) (hstarted : before.started = true)
    (hdispatches : Dispatches frame force before resumed after) :
    Ready after := by
  rcases hdispatches.cases with ⟨-, rfl⟩ | ⟨next, -, hlt, hrunnable, ⟨-, rfl⟩ | rfl⟩
  · exact hready.spendTick
  · exact hready
  · exact ready_switchTo hready hstarted hlt hrunnable

theorem Ready.schedules (hready : Ready before) (hstarted : before.started = true)
    (hschedules : Schedules frame force before resumed after) :
    Ready after :=
  (hready.reaped.saveFrame frame).dispatches ((sameBut_reaped before).started.trans hstarted)
    hschedules

/-- The running task of a started scheduler that is a user task has a slot of its own. -/
theorem Ready.one_le_current (hready : Ready scheduler) (huser : scheduler.current.mode = .user) :
    1 ≤ scheduler.currentTask := by
  refine Nat.one_le_iff_ne_zero.mpr fun hzero ↦ ?_
  rw [Scheduler.current, hzero, hready.boot.mode] at huser
  cases huser

variable {next start : Machine Unit}

theorem Ready.ending (hready : Ready start.scheduler) (hending : Ending frame start resumed next) :
    Ready next.scheduler := by
  cases hending with
  | ignored hnot => exact hready
  | ended resumed after hstarted hcurrent huser hid hschedules =>
    exact (ready_terminateCurrent hready (hready.one_le_current huser)).schedules hstarted
      hschedules

theorem Ready.resumption (hready : Ready start.scheduler)
    (hresumes : Resumption frame force start resumed next) :
    Ready next.scheduler := by
  cases hresumes with
  | idle hnot => exact hready
  | scheduled resumed after hstarted hschedules => exact hready.schedules hstarted hschedules
  | faulted resumed after huser hstate hending =>
    have hreaped : Ready (start.mapScheduler Process.reaped).scheduler := hready.reaped
    exact hreaped.ending hending

/-! ### New tasks -/

theorem stackBase_of_freeSlot (hslot : freeSlot scheduler = some slot)
    (hlt : slot < scheduler.taskCount) : (scheduler.tasks slot).stackBase = 0 := by
  unfold freeSlot at hslot
  simp only [Option.ite_none_left_eq_some, Option.some.injEq, not_or] at hslot
  obtain ⟨⟨hroom, -⟩, hfound⟩ := hslot
  rw [hfound] at hroom
  unfold findTaskSlot at hfound
  split at hfound
  case h_1 index hsearch =>
    have htest := List.find?_some hsearch
    simp only [Bool.and_eq_true, beq_iff_eq] at htest
    exact hfound ▸ htest.1.2
  case h_2 hsearch =>
    split_ifs at hfound
    · exact absurd hfound (by omega)
    · exact absurd hfound.symm hroom

section

variable (hready : Ready scheduler) (hslot : freeSlot scheduler = some slot)
include hready hslot

/-- A new task only goes where no stack is left. -/
theorem Ready.freeSlot_bare :
    1 ≤ slot ∧ slot < schedulerMaxTasks ∧ slot ≠ scheduler.currentTask ∧
      scheduler.pendingReap slot = false ∧ (scheduler.tasks slot).stackBase = 0 ∧
      (scheduler.tasks slot).state = .terminated := by
  obtain ⟨hone, hlt, hpending⟩ := (freeSlot_eq_some hslot).1.spec hready.sound
  have hstack := hready.slots slot hone
  have hbase : (scheduler.tasks slot).stackBase = 0 := by
    rcases lt_or_ge slot scheduler.taskCount with hin | hout
    · exact stackBase_of_freeSlot hslot hin
    · exact hstack.outside hout
  exact ⟨hone, hlt, fun hcurrent ↦ hstack.current hcurrent hbase, hpending, hbase,
    by_contra fun hlive ↦ hstack.live hlive hbase⟩

/-- A slot that is not in use is cleared. -/
theorem ready_setTask_cleared (name : List UInt8) :
    Ready (scheduler.setTask slot { clearedTask with name := name }) := by
  obtain ⟨hone, -, -, -, hbase, hstate⟩ := hready.freeSlot_bare hslot
  have hframe := (hready.slots slot hone).frame.mpr hbase
  have hsound : Sound (scheduler.updateTask slot fun _ ↦ { clearedTask with name := name }) :=
    hready.sound.setTask (fits_clearedTask hready.sound slot name)
  refine hready.updateTask hsound (fun hzero ↦ absurd hzero (by omega)) fun _ ↦ ?_
  exact ⟨hbase.symm, ⟨fun _ ↦ hframe, fun _ ↦ rfl⟩, fun hlive ↦ absurd rfl hlive⟩

/-- The table is made one longer, or a slot in it is taken, for a task with the stack of its
slot. -/
theorem ready_installedTask {task : Task}
    (hid : task.taskId = makeTaskId (nextGeneration (scheduler.slotGeneration slot)) slot)
    (hframe : task.frame ≠ none) (hbase : task.stackBase = stackBaseOf slot) :
    Ready (installedTask slot task (advanceGeneration slot scheduler)) := by
  obtain ⟨hone, hmax, hother, hpending, -, -⟩ := hready.freeSlot_bare hslot
  obtain ⟨hfree, hgeneration⟩ := freeSlot_eq_some hslot
  obtain ⟨hused, hbound⟩ := nextGeneration_of_lt hgeneration
  have hadvanced : Sound (advanceGeneration slot scheduler) := hready.sound.congr rfl rfl rfl
  have hnext : (advanceGeneration slot scheduler).slotGeneration slot =
      nextGeneration (scheduler.slotGeneration slot) := Function.update_self _ _ _
  have hstillFree : FreeSlot (advanceGeneration slot scheduler) slot :=
    ⟨hfree.le_count, hfree.room, hfree.vacant⟩
  have hsound := hadvanced.install hstillFree (hnext ▸ hbound) (hnext ▸ hused) (hnext ▸ hid) hframe
    slot
  have hcount : scheduler.taskCount ≤
      (installedTask slot task (advanceGeneration slot scheduler)).taskCount ∧
      slot < (installedTask slot task (advanceGeneration slot scheduler)).taskCount := by
    have hle := hfree.le_count
    by_cases heq : slot = scheduler.taskCount
    · simp only [installedTask, advanceGeneration, heq, if_true]
      omega
    · simp only [installedTask, advanceGeneration, heq, if_false]
      omega
  have htask : ∀ index, (installedTask slot task (advanceGeneration slot scheduler)).tasks index =
      if index = slot then task else scheduler.tasks index := fun index ↦ tasks_setTask _ _ _ _
  refine ⟨hsound, hready.current_lt.trans_le hcount.1, hready.idle, ?_, hready.boot_pending,
    fun index hindex ↦ ?_⟩
  · rw [htask, if_neg (by omega)]
    exact ⟨hready.boot.mode, hready.boot.base, hready.boot.state⟩
  · rw [htask]
    split_ifs with heq
    · subst heq
      have hne : task.stackBase ≠ 0 := hbase ▸ stackBaseOf_ne_zero hmax
      exact ⟨.inr hbase, ⟨fun hnone ↦ absurd hnone hframe, fun hzero ↦ absurd hzero hne⟩,
        fun _ ↦ hne, fun _ ↦ hne, fun _ ↦ hne, fun hout ↦ absurd hcount.2 (by omega)⟩
    · have hstack := hready.slots index hindex
      exact ⟨hstack.base, hstack.frame, hstack.live, hstack.pending, hstack.current,
        fun hout ↦ hstack.outside (hcount.1.trans hout)⟩

end

section

variable {task : Task} {added : Bool} (hready : Ready before)
  (hadds : Addition trampoline task before added after)
include hready hadds

theorem Ready.addition : Ready after := by
  cases hadds with
  | refused => exact hready
  | misnamed slot name hslot => exact ready_setTask_cleared hready hslot name
  | noStack slot hslot =>
    have hcleared := ready_setTask_cleared hready hslot []
    exact ⟨hcleared.sound.congr rfl rfl rfl, hcleared.current_lt, hcleared.idle,
      ⟨hcleared.boot.mode, hcleared.boot.base, hcleared.boot.state⟩, hcleared.boot_pending,
      fun index hone ↦ (hcleared.slots index hone).keep (.refl _) rfl rfl rfl⟩
  | added slot name frames hslot =>
    exact ready_installedTask hready hslot rfl (by simp [withStack]) rfl

/-- A new task does not go to the slot of the running one. -/
theorem Addition.current :
    after.currentTask = before.currentTask ∧ after.current = before.current := by
  rcases hadds.placed with rfl | ⟨slot, placed, hslot, htasks, hcurrent, -, -⟩
  · exact ⟨rfl, rfl⟩
  · have hother := (hready.freeSlot_bare hslot).2.2.1.symm
    refine ⟨hcurrent, ?_⟩
    rw [Scheduler.current, hcurrent, htasks, Function.update_of_ne hother]
    rfl

end

/-! ### Runs -/

/-- Every call of the scheduler keeps it ready. -/
theorem Ready.outcome {call : Call} {reply : Reply} (hready : Ready start.scheduler)
    (henabled : call.Enabled start.scheduler)
    (houtcome : Outcome trampoline start call reply next) : Ready next.scheduler := by
  cases houtcome with
  | addTask kernelDirectory hadds | addUserTaskInSpace hadds => exact hready.addition hadds
  | setPriority answer => exact hready.adjusts (adjusts_schedulerSetPriority _ _ _)
  | blockTask answer => exact hready.adjusts (adjusts_schedulerBlockTask _ _)
  | blockCurrent answer => exact hready.adjusts (adjusts_schedulerBlockCurrent _)
  | wakes hwakes hcall => exact hready.adjusts hwakes.adjusts
  | start => exact ready_schedulerStart hready
  | onTimer hresumes | onYield hresumes => exact hready.resumption hresumes
  | onUserFault hends | onUserExit hends => exact hready.ending hends
  | trampolineMark => exact ready_markReturned hready henabled.1
  | trampolineRecord => exact ready_setPending hready henabled.1 henabled.2.2

theorem Ready.move {platform : Platform M} {event : Option (Call × Reply)}
    {machine next : Machine M}
    (hready : Ready machine.scheduler) (hmove : Move platform event machine next) :
    Ready next.scheduler := by
  cases hmove with
  | elsewhere _ _ hsame => exact hsame ▸ hready
  | call call reply _ _ henabled hrun =>
    have hcontrol : Ready machine.control.scheduler := hready
    exact hcontrol.outcome henabled (perform_outcome platform call machine _ _ hrun)

theorem Run.ready {platform : Platform M} {allowed : Scheduler → Option (Call × Reply) → Prop}
    {machine final : Machine M} {events : List (Event M)}
    (hrun : Run platform allowed machine events final) (hready : Ready machine.scheduler) :
    Ready final.scheduler ∧ ∀ event ∈ events, Ready event.after.scheduler :=
  hrun.invariant (fun _ hmove hready ↦ hready.move hmove) hready

end EfesOS.Process
