import EfesOS.Process.MemoryCalls

/-!
# What the routines leave behind

Apart from memory, what a scheduler routine leaves is a function of what it found and of the few
answers it got from the platform. This file says which function: `reaped` for the freeing of stacks,
`dispatched` for the choice of the next task, `Addition` for the two ways of adding a task, `Ending`
for the end of a process. The theorems named `_ensures` connect the programs to them, whatever the
platform answers, as long as it does not halt.
-/

set_option autoImplicit false

namespace EfesOS.Process

open EfesOS.Foundation EfesOS.Foundation.Program

variable {M α : Type}

/-- The tasks and the messages: the machine without its memory and its process records. -/
def Machine.control (machine : Machine M) : Machine Unit :=
  ⟨(), machine.scheduler, ⟨fun _ ↦ ⟨0, 0, 0, 0, 0, 0, 0, false⟩, 0, 0⟩, machine.ipc⟩

def Machine.mapScheduler (machine : Machine M) (update : Scheduler → Scheduler) : Machine M :=
  { machine with scheduler := update machine.scheduler }

variable {control : Machine Unit}

/-- The machine is the given one, whatever its memory and its process records. -/
def HasControl (control : Machine Unit) (machine : Machine M) : Prop :=
  machine.control = control

instance : MemoryFree (HasControl (M := M) control) where
  keep := fun _ _ hcontrol ↦ hcontrol

variable {machine : Machine M}

theorem ensures_changeScheduler (update : Scheduler → Scheduler)
    (hcontrol : HasControl control machine) :
    Ensures (changeScheduler update) machine fun _ next ↦
      HasControl (control.mapScheduler update) next :=
  (ensures_change _).mpr (congrArg (Machine.mapScheduler · update) hcontrol)

theorem mapScheduler_mapScheduler (first second : Scheduler → Scheduler) (machine : Machine M) :
    (machine.mapScheduler first).mapScheduler second =
      machine.mapScheduler fun scheduler ↦ second (first scheduler) :=
  rfl

variable (platform : Platform M)

/-! ### Freeing the stacks of ended tasks -/

theorem updateTask_updateTask (scheduler : Scheduler) (index : ℕ) (first second : Task → Task) :
    (scheduler.updateTask index first).updateTask index second =
      scheduler.updateTask index fun task ↦ second (first task) := by
  simp [Scheduler.updateTask, Scheduler.setTask]

def releasePage (index : ℕ) (control : Machine Unit) (page : ℕ) : Machine Unit :=
  control.mapScheduler fun scheduler ↦ scheduler.updateTask index fun task ↦
    { task with stackFrames := Function.update task.stackFrames page 0 }

theorem reapStackPage_ensures (index : ℕ) (base : UInt32) (page : ℕ) (machine : Machine M) :
    Ensures (reapStackPage platform index base page) machine fun _ next ↦
      next.control = releasePage index machine.control page := by
  have hcontrol : HasControl machine.control machine := rfl
  simp only [reapStackPage, ensures_bind]
  refine (keeps_readScheduler _ machine hcontrol).mono fun _ _ hread ↦ ?_
  refine (keeps_require _ _ _ hread).mono fun _ _ howned ↦ ?_
  refine (keeps_onMemory _ _ howned).mono fun _ _ hunmapped ↦ ?_
  refine (keeps_require _ _ _ hunmapped).mono fun _ _ hexpected ↦ ?_
  exact (keeps_onMemory _ _ hexpected).mono fun _ _ hfreed ↦ ensures_changeScheduler _ hfreed

/-- The frames of a stack after its pages were freed one by one. -/
def releasedFrames (frames : ℕ → UInt32) : ℕ → UInt32 :=
  (List.range schedulerStackPages).foldl (fun frames page ↦ Function.update frames page 0) frames

theorem foldl_releasePage (index : ℕ) (pages : List ℕ) (control : Machine Unit) :
    pages.foldl (releasePage index) control =
      control.mapScheduler fun scheduler ↦ scheduler.updateTask index fun task ↦
        { task with stackFrames :=
            pages.foldl (fun frames page ↦ Function.update frames page 0) task.stackFrames } := by
  induction pages generalizing control with
  | nil => simp [Machine.mapScheduler, Scheduler.updateTask, Scheduler.setTask]
  | cons page rest ih =>
    rw [List.foldl_cons, ih, releasePage]
    simp only [Machine.mapScheduler, updateTask_updateTask, List.foldl_cons]

/-- An ended task after its stack was freed. -/
def releasedStack (task : Task) : Task :=
  { task with stackFrames := releasedFrames task.stackFrames, stackBase := 0, frame := none }

def reapedStack (index : ℕ) (scheduler : Scheduler) : Scheduler :=
  if (scheduler.tasks index).stackBase = 0 then scheduler
  else { scheduler.updateTask index releasedStack with
    stackReapCount := scheduler.stackReapCount + 1 }

theorem reapTaskStack_ensures (index : ℕ) (machine : Machine M) :
    Ensures (reapTaskStack platform index) machine fun _ next ↦
      next.control = machine.control.mapScheduler (reapedStack index) := by
  have hcontrol : HasControl machine.control machine := rfl
  simp only [reapTaskStack, readScheduler, ensures_bind, ensures_read, ensures_ite, ensures_pure]
  refine ⟨fun hnone ↦ ?_, fun hstack ↦ ?_⟩
  · simp [Machine.mapScheduler, reapedStack, Machine.control, hnone]
  · refine (keeps_verifyStackCanary platform _ _ hcontrol).mono fun _ _ hverified ↦ ?_
    refine (keeps_readMemory _ _ hverified).mono fun _ _ hguard ↦ ?_
    refine (keeps_require _ _ _ hguard).mono fun _ start hstart ↦ ?_
    refine (ensures_forEach (reapStackPage_ensures platform index _) _ start).mono
      fun _ _ hpages ↦ ?_
    rw [foldl_releasePage, hstart] at hpages
    refine (ensures_changeScheduler _ hpages).mono fun _ _ hreaped ↦ Eq.trans hreaped ?_
    have hreapedStack : reapedStack index machine.control.scheduler = _ := if_neg hstack
    simp only [Machine.mapScheduler, hreapedStack, updateTask_updateTask]
    rfl

def reapedIfDue (scheduler : Scheduler) (index : ℕ) : Scheduler :=
  if reapDue scheduler index then
    { reapedStack index scheduler with
      pendingReap := Function.update scheduler.pendingReap index false }
  else scheduler

/-- The scheduler after the stacks that were due have been freed. -/
def reaped (scheduler : Scheduler) : Scheduler :=
  (List.range' 1 (scheduler.taskCount - 1)).foldl reapedIfDue scheduler

theorem pendingReap_reapedStack (index : ℕ) (scheduler : Scheduler) :
    (reapedStack index scheduler).pendingReap = scheduler.pendingReap := by
  unfold reapedStack
  split_ifs <;> rfl

def reapSlotOf (control : Machine Unit) (index : ℕ) : Machine Unit :=
  control.mapScheduler fun scheduler ↦ reapedIfDue scheduler index

theorem reapSlot_ensures (index : ℕ) (machine : Machine M) :
    Ensures (reapSlot platform index) machine fun _ next ↦
      next.control = reapSlotOf machine.control index := by
  simp only [reapSlot, readScheduler, when, ensures_bind, ensures_read, ensures_ite, ensures_pure]
  refine ⟨fun hdue ↦ ?_, fun hnot ↦ ?_⟩
  · refine (reapTaskStack_ensures platform index machine).mono fun _ _ hstack ↦ ?_
    refine (ensures_changeScheduler _ hstack).mono fun _ _ hslot ↦ ?_
    have hreaped : reapedIfDue machine.control.scheduler index = _ := if_pos hdue
    rw [hslot, mapScheduler_mapScheduler]
    simp only [reapSlotOf, Machine.mapScheduler, hreaped, pendingReap_reapedStack]
  · have hkept : reapedIfDue machine.control.scheduler index = _ := if_neg hnot
    simp only [reapSlotOf, Machine.mapScheduler, hkept]

theorem foldl_reapSlotOf (slots : List ℕ) (control : Machine Unit) :
    slots.foldl reapSlotOf control =
      control.mapScheduler fun scheduler ↦ slots.foldl reapedIfDue scheduler := by
  induction slots generalizing control with
  | nil => rfl
  | cons index rest ih => exact ih _

theorem reapPendingStacks_ensures (machine : Machine M) :
    Ensures (reapPendingStacks platform) machine fun _ next ↦
      next.control = machine.control.mapScheduler reaped := by
  have hcontrol : HasControl machine.control machine := rfl
  simp only [reapPendingStacks, readMemory, readScheduler, ensures_bind, ensures_read]
  refine (keeps_whenSwitched platform _ _ _ machine hcontrol).mono fun _ entered hentered ↦ ?_
  refine (ensures_forEach (reapSlot_ensures platform) _ entered).mono fun _ next hreaped ↦ ?_
  rw [foldl_reapSlotOf, hentered] at hreaped
  have hnext : HasControl next.control next := rfl
  refine (keeps_whenSwitched platform _ _ _ next hnext).mono fun _ _ hlast ↦ ?_
  rw [hlast, hreaped]
  rfl

/-- The slots below the number of tasks, without the boot stack. -/
abbrev Scheduler.InTable (scheduler : Scheduler) (index : ℕ) : Prop :=
  1 ≤ index ∧ index < scheduler.taskCount

variable {index : ℕ}

theorem mem_slots_iff {scheduler : Scheduler} :
    index ∈ List.range' 1 (scheduler.taskCount - 1) ↔ scheduler.InTable index := by
  rw [List.mem_range'_1]
  omega

/-- The part of the scheduler that freeing stacks leaves alone. -/
structure SameBut (before after : Scheduler) : Prop where
  taskCount : after.taskCount = before.taskCount
  currentTask : after.currentTask = before.currentTask
  started : after.started = before.started
  lastAddedTask : after.lastAddedTask = before.lastAddedTask
  slotGeneration : after.slotGeneration = before.slotGeneration

theorem SameBut.refl (scheduler : Scheduler) : SameBut scheduler scheduler :=
  ⟨rfl, rfl, rfl, rfl, rfl⟩

theorem SameBut.trans {first second third : Scheduler} (hfirst : SameBut first second)
    (hsecond : SameBut second third) : SameBut first third :=
  ⟨hsecond.taskCount.trans hfirst.taskCount, hsecond.currentTask.trans hfirst.currentTask,
    hsecond.started.trans hfirst.started, hsecond.lastAddedTask.trans hfirst.lastAddedTask,
    hsecond.slotGeneration.trans hfirst.slotGeneration⟩

theorem sameBut_reapedIfDue (scheduler : Scheduler) (index : ℕ) :
    SameBut scheduler (reapedIfDue scheduler index) := by
  unfold reapedIfDue reapedStack
  split_ifs <;> exact ⟨rfl, rfl, rfl, rfl, rfl⟩

theorem sameBut_foldl_reapedIfDue (slots : List ℕ) (scheduler : Scheduler) :
    SameBut scheduler (slots.foldl reapedIfDue scheduler) := by
  induction slots generalizing scheduler with
  | nil => exact .refl scheduler
  | cons index rest ih => exact (sameBut_reapedIfDue scheduler index).trans (ih _)

theorem sameBut_reaped (scheduler : Scheduler) : SameBut scheduler (reaped scheduler) :=
  sameBut_foldl_reapedIfDue _ scheduler

/-- An ended task after its slot was visited; one without a stack is left as it is. -/
def reapedTask (task : Task) : Task :=
  if task.stackBase = 0 then task else releasedStack task

theorem reapedIfDue_self {scheduler : Scheduler} (hdue : reapDue scheduler index) :
    (reapedIfDue scheduler index).tasks index = reapedTask (scheduler.tasks index) ∧
      (reapedIfDue scheduler index).pendingReap index = false := by
  rw [reapedIfDue, if_pos hdue]
  refine ⟨?_, Function.update_self _ _ _⟩
  unfold reapedStack reapedTask
  split_ifs
  · rfl
  · exact Function.update_self _ _ _

theorem reapedIfDue_other (scheduler : Scheduler) {other : ℕ} (hne : other ≠ index) :
    (reapedIfDue scheduler index).tasks other = scheduler.tasks other ∧
      (reapedIfDue scheduler index).pendingReap other = scheduler.pendingReap other := by
  unfold reapedIfDue reapedStack
  split_ifs
  · exact ⟨rfl, Function.update_of_ne hne _ _⟩
  · exact ⟨Function.update_of_ne hne _ _, Function.update_of_ne hne _ _⟩
  · exact ⟨rfl, rfl⟩

theorem foldl_reapedIfDue_of_not_mem {slots : List ℕ} (hnot : index ∉ slots)
    (scheduler : Scheduler) :
    (slots.foldl reapedIfDue scheduler).tasks index = scheduler.tasks index ∧
      (slots.foldl reapedIfDue scheduler).pendingReap index = scheduler.pendingReap index := by
  induction slots generalizing scheduler with
  | nil => exact ⟨rfl, rfl⟩
  | cons first rest ih =>
    obtain ⟨hne, hrest⟩ : index ≠ first ∧ index ∉ rest := by simpa using hnot
    obtain ⟨htask, hpending⟩ := ih hrest (reapedIfDue scheduler first)
    obtain ⟨htaskFirst, hpendingFirst⟩ := reapedIfDue_other scheduler hne
    exact ⟨htask.trans htaskFirst, hpending.trans hpendingFirst⟩

theorem foldl_reapedIfDue_of_mem {slots : List ℕ} (hnodup : slots.Nodup) (hmem : index ∈ slots)
    (scheduler : Scheduler) :
    (slots.foldl reapedIfDue scheduler).tasks index =
        (if reapDue scheduler index then reapedTask (scheduler.tasks index)
          else scheduler.tasks index) ∧
      (slots.foldl reapedIfDue scheduler).pendingReap index =
        (scheduler.pendingReap index && !reapDue scheduler index) := by
  induction slots generalizing scheduler with
  | nil => cases hmem
  | cons first rest ih =>
    obtain ⟨hfirst, hrest⟩ := List.nodup_cons.mp hnodup
    rw [List.foldl_cons]
    rcases List.mem_cons.mp hmem with rfl | hlater
    · obtain ⟨htask, hpending⟩ :=
        foldl_reapedIfDue_of_not_mem hfirst (reapedIfDue scheduler index)
      rw [htask, hpending]
      by_cases hdue : reapDue scheduler index
      · obtain ⟨htaskDue, hpendingDue⟩ := reapedIfDue_self hdue
        simp [htaskDue, hpendingDue, hdue]
      · simp [reapedIfDue, hdue]
    · have hne : index ≠ first := fun heq ↦ hfirst (heq ▸ hlater)
      obtain ⟨htask, hpending⟩ := reapedIfDue_other scheduler hne
      have hdue : reapDue (reapedIfDue scheduler first) index = reapDue scheduler index := by
        rw [reapDue, reapDue, hpending, (sameBut_reapedIfDue scheduler first).currentTask]
      have hlast := ih hrest hlater (reapedIfDue scheduler first)
      rwa [hdue, htask, hpending] at hlast

/-- Whether freeing stacks visits the slot and finds it due. -/
def reapVisits (scheduler : Scheduler) (index : ℕ) : Bool :=
  decide (scheduler.InTable index) && reapDue scheduler index

theorem reaped_spec (scheduler : Scheduler) (index : ℕ) :
    (reaped scheduler).tasks index =
        (if reapVisits scheduler index then reapedTask (scheduler.tasks index)
          else scheduler.tasks index) ∧
      (reaped scheduler).pendingReap index =
        (scheduler.pendingReap index && !reapVisits scheduler index) := by
  unfold reaped reapVisits
  by_cases hmem : scheduler.InTable index
  · rw [decide_eq_true hmem, Bool.true_and]
    exact foldl_reapedIfDue_of_mem List.nodup_range' (mem_slots_iff.mpr hmem) scheduler
  · rw [decide_eq_false hmem, Bool.false_and, Bool.not_false, Bool.and_true,
      if_neg Bool.false_ne_true]
    exact foldl_reapedIfDue_of_not_mem (fun hin ↦ hmem (mem_slots_iff.mp hin)) scheduler

/-- The stack of the running task is never freed. -/
theorem reaped_current (scheduler : Scheduler) :
    (reaped scheduler).current = scheduler.current := by
  have hnot : reapVisits scheduler scheduler.currentTask = false := by
    simp [reapVisits, reapDue]
  rw [Scheduler.current, (sameBut_reaped scheduler).currentTask, (reaped_spec _ _).1, hnot]
  rfl

/-! ### Dispatching -/

/-- Whether the running task has a tick to spend. -/
def SpendsTick (force : Bool) (scheduler : Scheduler) : Prop :=
  force = false ∧ scheduler.current.state = .runnable ∧ 1 < scheduler.current.ticksLeft
  deriving Decidable

/-- The frame to resume and the scheduler after a dispatch that did not halt. -/
def dispatched (frame : Frame) (force : Bool) (scheduler : Scheduler) : Frame × Scheduler :=
  let next := findNextRunnable scheduler
  if SpendsTick force scheduler then
    (frame, scheduler.updateTask scheduler.currentTask fun task ↦
      { task with ticksLeft := task.ticksLeft - 1 })
  else if next = scheduler.currentTask then (frame, scheduler)
  else ((scheduler.tasks next).frame.getD frame, switchTo next scheduler)

section

variable {frame : Frame} {force : Bool} {scheduler : Scheduler}

theorem dispatched_of_spendsTick (hspends : SpendsTick force scheduler) :
    dispatched frame force scheduler =
      (frame, scheduler.updateTask scheduler.currentTask fun task ↦
        { task with ticksLeft := task.ticksLeft - 1 }) :=
  if_pos hspends

theorem dispatched_of_same (hspends : ¬SpendsTick force scheduler)
    (hsame : findNextRunnable scheduler = scheduler.currentTask) :
    dispatched frame force scheduler = (frame, scheduler) :=
  (if_neg hspends).trans (if_pos hsame)

theorem dispatched_of_other (hspends : ¬SpendsTick force scheduler)
    (hother : findNextRunnable scheduler ≠ scheduler.currentTask) :
    dispatched frame force scheduler =
      ((scheduler.tasks (findNextRunnable scheduler)).frame.getD frame,
        switchTo (findNextRunnable scheduler) scheduler) :=
  (if_neg hspends).trans (if_neg hother)

end

/-- What a dispatch did, and that it found a task if it had to. -/
structure Dispatches (frame : Frame) (force : Bool) (before : Scheduler) (resumed : Frame)
    (after : Scheduler) : Prop where
  found : SpendsTick force before ∨ findNextRunnable before ≠ schedulerMaxTasks
  outcome : (resumed, after) = dispatched frame force before

theorem dispatch_ensures (frame : Frame) (force : Bool) (hcontrol : HasControl control machine) :
    Ensures (dispatch platform frame force) machine fun resumed next ↦
      Dispatches frame force control.scheduler resumed next.scheduler ∧
        next.control = { control with scheduler := next.scheduler } := by
  obtain rfl : machine.control = control := hcontrol
  simp only [dispatch, readScheduler, changeScheduler, kernelPanic, ensures_bind, ensures_read,
    ensures_ite, ensures_change, ensures_pure, ensures_halt, id]
  refine ⟨fun hspends ↦ ⟨⟨.inl hspends, (dispatched_of_spendsTick hspends).symm⟩, rfl⟩,
    fun hstays ↦ ⟨fun _ ↦ trivial, fun hfound ↦ ⟨fun hsame ↦ ?_, fun hother ↦ ?_⟩⟩⟩
  · exact ⟨⟨.inr hfound, (dispatched_of_same hstays hsame).symm⟩, rfl⟩
  · have hswitched : HasControl
        (machine.control.mapScheduler (switchTo (findNextRunnable machine.scheduler)))
        { machine with
          scheduler := switchTo (findNextRunnable machine.scheduler) machine.scheduler } := rfl
    refine (keeps_onMemory _ _ hswitched).mono fun _ _ hentered ↦ ?_
    refine (keeps_require _ _ _ hentered).mono fun _ next hlast ↦ ?_
    have hscheduler : next.scheduler =
        switchTo (findNextRunnable machine.scheduler) machine.scheduler :=
      congrArg Machine.scheduler hlast
    refine ⟨⟨.inr hfound, ?_⟩, ?_⟩
    · rw [hscheduler]
      exact (dispatched_of_other hstays hother).symm
    · rw [hlast, hscheduler]
      rfl

/-! ### The end of a process -/

theorem keeps_changeProcesses (update : Processes → Processes) :
    Keeps (HasControl (M := M) control) (changeProcesses update) :=
  fun _ hcontrol ↦ (ensures_change _).mpr hcontrol

theorem keeps_reapImage (index : ℕ) (process : ProcessRecord) :
    Keeps (HasControl control) (reapImage platform index process) := by
  refine Keeps.when ((keeps_onMemory _).bind fun _ ↦ (keeps_require _ _).bind fun _ ↦ ?_)
  exact keeps_changeProcesses _

theorem keeps_reapUserStack (index : ℕ) (process : ProcessRecord) :
    Keeps (HasControl control) (reapUserStack platform index process) := by
  refine Keeps.bind (Keeps.when ?_) fun _ ↦ keeps_changeProcesses _
  refine (keeps_readMemory _).bind fun _ ↦ (keeps_require _ _).bind fun _ ↦ ?_
  exact (keeps_onMemory _).bind fun _ ↦ (keeps_require _ _).bind fun _ ↦ keeps_onMemory _

theorem keeps_reapAddressSpace (index : ℕ) (process : ProcessRecord) :
    Keeps (HasControl control) (reapAddressSpace platform index process) := by
  refine Keeps.when ((keeps_readMemory _).bind fun _ ↦ (keeps_onMemory _).bind fun _ ↦ ?_)
  refine (keeps_require _ _).bind fun _ ↦ (keeps_onMemory _).bind fun _ ↦ ?_
  exact (keeps_require _ _).bind fun _ ↦ keeps_changeProcesses _

/-- Only a task with an id is ended as a process. -/
theorem userProcessReapTask_ensures (taskIndex : ℕ) (taskId : UInt32)
    (hcontrol : HasControl control machine) :
    Ensures (userProcessReapTask platform taskIndex taskId) machine fun done next ↦
      (done = true → taskId ≠ 0) ∧ HasControl control next := by
  simp only [userProcessReapTask, ensures_bind, ensures_read]
  cases findProcess machine.processes taskIndex with
  | none => exact (ensures_pure _).mpr ⟨by simp, hcontrol⟩
  | some index =>
    rw [ensures_ite]
    refine ⟨fun _ ↦ (ensures_pure _).mpr ⟨by simp, hcontrol⟩, fun hid ↦ ?_⟩
    simp only [ensures_bind]
    refine (keeps_readMemory _ _ hcontrol).mono fun _ _ hread ↦ ?_
    refine (keeps_whenSwitched platform _ _ _ _ hread).mono fun _ _ hentered ↦ ?_
    refine (keeps_reapImage platform _ _ _ hentered).mono fun _ _ himage ↦ ?_
    refine (keeps_reapUserStack platform _ _ _ himage).mono fun _ _ hstack ↦ ?_
    refine (keeps_reapAddressSpace platform _ _ _ hstack).mono fun _ _ hspace ↦ ?_
    refine (keeps_changeProcesses _ _ hspace).mono fun _ _ hrecord ↦ ?_
    refine (keeps_changeProcesses _ _ hrecord).mono fun _ _ hcounted ↦ ?_
    exact (ensures_pure _).mpr ⟨fun _ hzero ↦ hid (.inl hzero), hcounted⟩

/-! ### Scheduling points -/

/-- The schedule from a frame that does not end the running task: free stacks, keep the frame,
dispatch. -/
abbrev Schedules (frame : Frame) (force : Bool) (before : Scheduler) (resumed : Frame)
    (after : Scheduler) : Prop :=
  Dispatches frame force (saveFrame frame (reaped before)) resumed after

theorem scheduleFromFrameWith_ensures {onUserFault : Frame → KernelProgram M Frame} {frame : Frame}
    {force : Bool} (hcontrol : HasControl control machine) {post : Frame → Machine M → Prop}
    (hidle : control.scheduler.started = false ∨ control.scheduler.taskCount = 0 →
      post frame machine)
    (hfault : ∀ next : Machine M, HasControl (control.mapScheduler reaped) next →
      resumeFaults platform frame next = true → Ensures (onUserFault frame) next post)
    (hschedules : control.scheduler.started = true → ∀ resumed (next : Machine M),
      Schedules frame force control.scheduler resumed next.scheduler →
      HasControl { control with scheduler := next.scheduler } next → post resumed next) :
    Ensures (scheduleFromFrameWith platform onUserFault frame force) machine post := by
  have hscheduler : machine.scheduler = control.scheduler := congrArg Machine.scheduler hcontrol
  simp only [scheduleFromFrameWith, readScheduler, ensures_bind, ensures_read, ensures_ite,
    ensures_pure, id, hscheduler]
  refine ⟨hidle, fun hactive ↦ ?_⟩
  simp only [not_or, Bool.not_eq_false] at hactive
  refine (keeps_verifyStackCanary platform _ _ hcontrol).mono fun _ verified hverified ↦ ?_
  refine (reapPendingStacks_ensures platform verified).mono fun _ next hreaped ↦ ?_
  rw [hverified] at hreaped
  refine ⟨fun hfaults ↦ hfault next hreaped hfaults, fun _ ↦ ?_⟩
  refine (ensures_changeScheduler _ hreaped).mono fun _ saved hsaved ↦ ?_
  refine (dispatch_ensures platform frame force hsaved).mono fun resumed last hlast ↦ ?_
  exact hschedules hactive.1 resumed last hlast.1 hlast.2

/-- What `scheduler_on_user_fault` and `scheduler_on_user_exit` leave behind. -/
inductive Ending (frame : Frame) (control : Machine Unit) : Frame → Machine Unit → Prop where
  | ignored (hnot : control.scheduler.started = false ∨
        control.scheduler.taskCount ≤ control.scheduler.currentTask ∨
        control.scheduler.current.mode ≠ .user) :
      Ending frame control frame control
  | ended (resumed : Frame) (after : Scheduler)
      (hstarted : control.scheduler.started = true)
      (hcurrent : control.scheduler.currentTask < control.scheduler.taskCount)
      (huser : control.scheduler.current.mode = .user)
      (hid : control.scheduler.current.taskId ≠ 0)
      (hschedules : Schedules frame true (terminateCurrent control.scheduler) resumed after) :
      Ending frame control resumed { retireCurrent control with scheduler := after }

theorem current_terminateCurrent (scheduler : Scheduler) :
    (terminateCurrent scheduler).current = { scheduler.current with state := .terminated } :=
  Function.update_self _ _ _

/-- The schedule after a task has ended is an ordinary one. -/
theorem scheduleAfterExit_ensures (frame : Frame) (hcontrol : HasControl control machine)
    (hstarted : control.scheduler.started = true) (hcount : control.scheduler.taskCount ≠ 0)
    (hstate : control.scheduler.current.state ≠ .runnable) :
    Ensures (scheduleAfterExit platform frame) machine fun resumed next ↦
      Schedules frame true control.scheduler resumed next.scheduler ∧
        HasControl { control with scheduler := next.scheduler } next := by
  refine scheduleFromFrameWith_ensures platform hcontrol ?_ ?_ ?_
  · rintro (hnot | hzero)
    · cases hstarted.symm.trans hnot
    · exact absurd hzero hcount
  · intro next hreaped hfaults
    have hscheduler : next.scheduler = reaped control.scheduler :=
      congrArg Machine.scheduler hreaped
    have hcurrent : next.scheduler.current = control.scheduler.current := by
      rw [hscheduler, reaped_current]
    simp [resumeFaults, hcurrent, hstate] at hfaults
  · exact fun _ resumed next hschedules hnext ↦ ⟨hschedules, hnext⟩

theorem endUserTask_ensures (message : String) (frame : Frame)
    (hcontrol : HasControl control machine) :
    Ensures (endUserTask platform message (scheduleAfterExit platform) frame) machine
      fun resumed next ↦ Ending frame control resumed next.control := by
  have hscheduler : machine.scheduler = control.scheduler := congrArg Machine.scheduler hcontrol
  simp only [endUserTask, readScheduler, ensures_bind, ensures_read, ensures_ite, ensures_pure,
    ensures_change, id, hscheduler]
  refine ⟨fun hnot ↦ ?_, fun happlies ↦ ?_⟩
  · rw [show machine.control = control from hcontrol]
    exact .ignored hnot
  · simp only [not_or, not_le, not_not, Bool.not_eq_false] at happlies
    obtain ⟨hstarted, hcurrent, huser⟩ := happlies
    have hid : schedulerCurrentTaskId control.scheduler = control.scheduler.current.taskId :=
      if_neg (not_le.mpr hcurrent)
    have hretired : HasControl (retireCurrent control) (retireCurrent machine) :=
      congrArg retireCurrent hcontrol
    refine (userProcessReapTask_ensures platform _ _ hretired).mono ?_
    rintro (_ | _) _ ⟨hne, hnext⟩
    · exact ensures_halt message
    · refine (keeps_require true message _ hnext).mono fun _ last hlast ↦ ?_
      refine (scheduleAfterExit_ensures platform frame hlast hstarted ?_ ?_).mono
        fun resumed final hfinal ↦ ?_
      · exact Nat.ne_zero_of_lt hcurrent
      · change (terminateCurrent control.scheduler).current.state ≠ .runnable
        rw [current_terminateCurrent]
        simp
      · rw [show final.control = _ from hfinal.2]
        exact .ended resumed final.scheduler hstarted hcurrent huser (hid ▸ hne rfl) hfinal.1

/-- What `schedule_from_frame` leaves behind. -/
inductive Resumption (frame : Frame) (force : Bool) (control : Machine Unit) :
    Frame → Machine Unit → Prop where
  | idle (hnot : control.scheduler.started = false ∨ control.scheduler.taskCount = 0) :
      Resumption frame force control frame control
  | scheduled (resumed : Frame) (after : Scheduler)
      (hstarted : control.scheduler.started = true)
      (hschedules : Schedules frame force control.scheduler resumed after) :
      Resumption frame force control resumed { control with scheduler := after }
  | faulted (resumed : Frame) (after : Machine Unit)
      (huser : control.scheduler.current.mode = .user)
      (hstate : control.scheduler.current.state = .runnable)
      (hending : Ending frame (control.mapScheduler reaped) resumed after) :
      Resumption frame force control resumed after

theorem scheduleFromFrame_ensures (frame : Frame) (force : Bool)
    (hcontrol : HasControl control machine) :
    Ensures (scheduleFromFrame platform frame force) machine fun resumed next ↦
      Resumption frame force control resumed next.control := by
  refine scheduleFromFrameWith_ensures platform hcontrol ?_ ?_ ?_
  · intro hnot
    rw [show machine.control = control from hcontrol]
    exact .idle hnot
  · intro next hreaped hfaults
    have hscheduler : next.scheduler = reaped control.scheduler :=
      congrArg Machine.scheduler hreaped
    have hcurrent : next.scheduler.current = control.scheduler.current := by
      rw [hscheduler, reaped_current]
    simp only [resumeFaults, hcurrent, Bool.and_eq_true, beq_iff_eq] at hfaults
    obtain ⟨⟨⟨huser, hstate⟩, -⟩, -⟩ := hfaults
    exact (endUserTask_ensures platform _ frame hreaped).mono fun resumed last hending ↦
      .faulted resumed last.control huser hstate hending
  · intro hstarted resumed next hschedules hnext
    rw [show next.control = _ from hnext]
    exact .scheduled resumed next.scheduler hstarted hschedules

/-! ### Adding tasks -/

def stackBaseOf (slot : ℕ) : UInt32 :=
  schedulerStackBase + slot.toUInt32 * schedulerStackStride

/-- A task with the stack of its slot, backed by the given frames. -/
def withStack (trampoline : UInt32) (task : Task) (slot : ℕ) (frames : ℕ → UInt32) : Task :=
  { task with
    stackBase := stackBaseOf slot
    stackFrames := frames
    stackCanary := schedulerStackCanary ^^^ stackBaseOf slot ^^^ slot.toUInt32
    frame := some (initialFrame trampoline task) }

def advanceGeneration (slot : ℕ) (scheduler : Scheduler) : Scheduler :=
  { scheduler with
    slotGeneration := Function.update scheduler.slotGeneration slot
      (nextGeneration (scheduler.slotGeneration slot)) }

def installedTask (slot : ℕ) (task : Task) (scheduler : Scheduler) : Scheduler :=
  { scheduler.setTask slot task with
    taskCount := if slot = scheduler.taskCount then scheduler.taskCount + 1
      else scheduler.taskCount
    lastAddedTask := slot }

/-- What adding a task, given without its name, id and stack, leaves of the scheduler. -/
inductive Addition (trampoline : UInt32) (task : Task) (before : Scheduler) :
    Bool → Scheduler → Prop where
  | refused : Addition trampoline task before false before
  | misnamed (slot : ℕ) (name : List UInt8) (hslot : freeSlot before = some slot) :
      Addition trampoline task before false
        (before.setTask slot { clearedTask with name := name })
  | noStack (slot : ℕ) (hslot : freeSlot before = some slot) :
      Addition trampoline task before false
        ((advanceGeneration slot before).setTask slot clearedTask)
  | added (slot : ℕ) (name : List UInt8) (frames : ℕ → UInt32)
      (hslot : freeSlot before = some slot) :
      Addition trampoline task before true
        (installedTask slot
          (withStack trampoline
            { task with
              name := name
              taskId := makeTaskId (nextGeneration (before.slotGeneration slot)) slot } slot frames)
          (advanceGeneration slot before))

theorem allocateTaskStack_control (task : Task) (slot : ℕ) (hcontrol : HasControl control machine) :
    Ensures (allocateTaskStack platform task slot) machine fun allocated next ↦
      HasControl control next ∧ (allocated = none ∨ ∃ frames,
        allocated = some (withStack platform.trampoline task slot frames)) := by
  simp only [allocateTaskStack, ensures_bind]
  refine (keeps_allocateStackPages platform _ _ _ _ _ hcontrol).mono fun frames next hnext ↦ ?_
  cases frames with
  | none => exact (ensures_pure _).mpr ⟨hnext, .inl rfl⟩
  | some frames =>
    rw [ensures_bind]
    exact (keeps_onMemory _ _ hnext).mono fun _ _ hlast ↦
      (ensures_pure _).mpr ⟨hlast, .inr ⟨frames, rfl⟩⟩

theorem changeScheduler_ensures {update : Scheduler → Scheduler} {relation : Scheduler → Prop}
    (hcontrol : HasControl control machine) (hrelation : relation (update control.scheduler)) :
    Ensures (changeScheduler update) machine fun _ next ↦
      relation next.scheduler ∧ HasControl { control with scheduler := next.scheduler } next := by
  refine (ensures_changeScheduler update hcontrol).mono fun _ next hnext ↦ ?_
  rw [show next.scheduler = update control.scheduler from congrArg Machine.scheduler hnext]
  exact ⟨hrelation, hnext⟩

theorem installNamedTask_addition {slot : ℕ} (name : List UInt8) (task : Task)
    (hcontrol : HasControl control machine) (hslot : freeSlot control.scheduler = some slot) :
    Ensures (installNamedTask platform slot name task) machine fun added next ↦
      Addition platform.trampoline task control.scheduler added next.scheduler ∧
        HasControl { control with scheduler := next.scheduler } next := by
  simp only [installNamedTask, ensures_ite]
  refine ⟨fun _ ↦ ?_, fun _ ↦ ?_⟩
  · simp only [installTask, readScheduler, ensures_bind]
    refine (ensures_changeScheduler (advanceGeneration slot) hcontrol).mono
      fun _ advanced hadvanced ↦ ?_
    rw [ensures_read]
    have hscheduler : advanced.scheduler = advanceGeneration slot control.scheduler :=
      congrArg Machine.scheduler hadvanced
    have hgeneration : advanced.scheduler.slotGeneration slot =
        nextGeneration (control.scheduler.slotGeneration slot) := by
      rw [hscheduler]
      exact Function.update_self _ _ _
    rw [hgeneration]
    refine (allocateTaskStack_control platform _ slot hadvanced).mono ?_
    rintro _ next ⟨hnext, rfl | ⟨frames, rfl⟩⟩
    · rw [ensures_bind]
      exact (changeScheduler_ensures hnext (.noStack slot hslot)).mono fun _ _ hlast ↦
        (ensures_pure _).mpr hlast
    · rw [ensures_bind]
      exact (changeScheduler_ensures hnext (.added slot _ frames hslot)).mono fun _ _ hlast ↦
        (ensures_pure _).mpr hlast
  · rw [ensures_bind]
    exact (changeScheduler_ensures hcontrol (.misnamed slot _ hslot)).mono fun _ _ hlast ↦
      (ensures_pure _).mpr hlast

/-- The task `scheduler_add_task` adds. -/
def kernelTask (entry kernelDirectory : UInt32) : Task :=
  { clearedTask with entry := entry, addressSpace := kernelDirectory, state := .runnable }

theorem schedulerAddTask_ensures (name : Pointer) (entry : UInt32)
    (hcontrol : HasControl control machine) :
    Ensures (schedulerAddTask platform name entry) machine fun added next ↦
      Addition platform.trampoline
        (kernelTask entry (platform.pagingKernelDirectory machine.memory))
          control.scheduler added next.scheduler ∧
        HasControl { control with scheduler := next.scheduler } next := by
  have hscheduler : machine.scheduler = control.scheduler := congrArg Machine.scheduler hcontrol
  have hrefused : Addition platform.trampoline
      (kernelTask entry (platform.pagingKernelDirectory machine.memory)) control.scheduler false
      machine.scheduler ∧ HasControl { control with scheduler := machine.scheduler } machine := by
    rw [hscheduler]
    exact ⟨.refused, hcontrol⟩
  cases name with
  | none => exact (ensures_pure false).mpr hrefused
  | some name =>
    simp only [schedulerAddTask, ensures_ite, readScheduler, ensures_bind, ensures_read, hscheduler]
    refine ⟨fun _ ↦ (ensures_pure false).mpr hrefused, fun _ ↦ ?_⟩
    cases hslot : freeSlot control.scheduler with
    | none => exact (ensures_pure false).mpr hrefused
    | some slot =>
      exact installNamedTask_addition platform name _ hcontrol hslot

/-- The task `scheduler_add_user_task_in_space` adds. -/
def userTask (entry userStackTop addressSpace : UInt32) : Task :=
  { clearedTask with
    userEntry := entry
    userStackTop := userStackTop
    addressSpace := addressSpace
    mode := .user
    state := .runnable }

theorem schedulerAddUserTaskInSpace_ensures (name : Pointer)
    (entry userStackTop addressSpace : UInt32) (hcontrol : HasControl control machine) :
    Ensures (schedulerAddUserTaskInSpace platform name entry userStackTop addressSpace) machine
      fun added next ↦
        Addition platform.trampoline (userTask entry userStackTop addressSpace) control.scheduler
          added next.scheduler ∧ HasControl { control with scheduler := next.scheduler } next := by
  have hrefused : ∀ next : Machine M, HasControl control next →
      Addition platform.trampoline (userTask entry userStackTop addressSpace) control.scheduler
        false next.scheduler ∧ HasControl { control with scheduler := next.scheduler } next := by
    intro next hnext
    rw [show next.scheduler = control.scheduler from congrArg Machine.scheduler hnext]
    exact ⟨.refused, hnext⟩
  cases name with
  | none => exact (ensures_pure false).mpr (hrefused machine hcontrol)
  | some name =>
    simp only [schedulerAddUserTaskInSpace, readMemory, ensures_bind, ensures_read, ensures_ite]
    refine ⟨fun _ ↦ ?_, fun _ ↦ (ensures_pure false).mpr (hrefused machine hcontrol)⟩
    refine (keeps_userContextValid platform _ _ _ _ hcontrol).mono fun valid checked hchecked ↦ ?_
    refine ⟨fun _ ↦ ?_, fun _ ↦ (ensures_pure false).mpr (hrefused checked hchecked)⟩
    have hscheduler : checked.scheduler = control.scheduler := congrArg Machine.scheduler hchecked
    simp only [readScheduler, ensures_read, hscheduler]
    cases hslot : freeSlot control.scheduler with
    | none => exact (ensures_pure false).mpr (hrefused checked hchecked)
    | some slot =>
      cases addressSpaceInUse control.scheduler addressSpace with
      | true => exact (ensures_pure false).mpr (hrefused checked hchecked)
      | false => exact installNamedTask_addition platform name _ hchecked hslot

end EfesOS.Process
