import EfesOS.Process.Scheduler

/-!
# The task table

`Sound` is what the scheduler keeps true of its table from `scheduler_init` on: there are between
one and sixteen tasks; a task id names its slot in its low byte; a user task that has not ended has
an id and a frame and lies inside the table; a slot whose stack waits to be freed is that of an
ended task.

`Wakes` describes what waking tasks does to the table. Waking by id wakes the user task with that id
(`schedulerWakeTaskId_runs`) and waking the user tasks leaves none of them blocked
(`wakeUserTasksIn_runs`).
-/

set_option autoImplicit false

namespace EfesOS.Process

open EfesOS.Foundation

variable {scheduler : Scheduler} {index : ℕ} {task : Task}

/-! ### Slots -/

/-- A slot a new task may be put in: one past the tasks while there is room, or that of a terminated
task whose stack has been freed; never that of the boot stack. -/
structure FreeSlot (scheduler : Scheduler) (slot : ℕ) : Prop where
  le_count : slot ≤ scheduler.taskCount
  room : slot = scheduler.taskCount → scheduler.taskCount < schedulerMaxTasks
  vacant : slot < scheduler.taskCount → 1 ≤ slot ∧ scheduler.pendingReap slot = false ∧
    (scheduler.tasks slot).state = .terminated ∧ (scheduler.tasks slot).frame = none

theorem freeSlot_findTaskSlot (hfound : findTaskSlot scheduler ≠ schedulerMaxTasks) :
    FreeSlot scheduler (findTaskSlot scheduler) := by
  unfold findTaskSlot at hfound ⊢
  split at hfound
  case h_1 index hsearch =>
    have hmem := List.mem_range'_1.mp (List.mem_of_find?_eq_some hsearch)
    have htest := List.find?_some hsearch
    simp only [Bool.and_eq_true, Bool.not_eq_true', beq_iff_eq, Option.isNone_iff_eq_none] at htest
    exact ⟨by omega, fun _ ↦ by omega,
      fun _ ↦ ⟨hmem.1, htest.1.1.1, htest.1.1.2, htest.2⟩⟩
  case h_2 hsearch =>
    by_cases hroom : scheduler.taskCount < schedulerMaxTasks
    · rw [if_pos hroom]
      exact ⟨le_rfl, fun _ ↦ hroom, fun hlt ↦ absurd hlt (lt_irrefl _)⟩
    · rw [if_neg hroom] at hfound
      exact absurd rfl hfound

theorem freeSlot_eq_some {slot : ℕ} (h : freeSlot scheduler = some slot) :
    FreeSlot scheduler slot ∧ scheduler.slotGeneration slot < schedulerMaxGeneration := by
  unfold freeSlot at h
  simp only [Option.ite_none_left_eq_some, Option.some.injEq, not_or, UInt32.not_le] at h
  obtain ⟨⟨hfound, hgeneration⟩, rfl⟩ := h
  exact ⟨freeSlot_findTaskSlot hfound, hgeneration⟩

/-- The generation of a slot that may still be used does not wrap. -/
theorem toNat_nextGeneration {generation : UInt32} (h : generation < schedulerMaxGeneration) :
    (nextGeneration generation).toNat = generation.toNat + 1 := by
  have hbound : generation.toNat < 0x00FFFFFF := h
  have hnext : (generation + 1).toNat = generation.toNat + 1 := by
    rw [UInt32.toNat_add, UInt32.toNat_one]
    omega
  have hne : generation + 1 ≠ 0 := fun hzero ↦ by
    rw [hzero] at hnext
    simp at hnext
  rw [nextGeneration, if_neg hne, hnext]

theorem nextGeneration_of_lt {generation : UInt32} (h : generation < schedulerMaxGeneration) :
    nextGeneration generation ≠ 0 ∧ nextGeneration generation ≤ schedulerMaxGeneration := by
  have hbound : generation.toNat < 0x00FFFFFF := h
  have hnext := toNat_nextGeneration h
  refine ⟨fun hzero ↦ ?_, ?_⟩
  · rw [hzero] at hnext
    simp at hnext
  · rw [UInt32.le_iff_toNat_le, hnext]
    exact hbound

theorem findNextRunnable_ne_max (h : findNextRunnable scheduler ≠ schedulerMaxTasks) :
    findNextRunnable scheduler < scheduler.taskCount ∧
      (scheduler.tasks (findNextRunnable scheduler)).dispatchable := by
  unfold findNextRunnable at h ⊢
  cases hsearch : ((List.range' 1 scheduler.taskCount).map fun offset ↦
      (scheduler.currentTask + offset) % scheduler.taskCount).find?
      fun index ↦ (scheduler.tasks index).dispatchable with
  | none => rw [hsearch] at h; exact absurd rfl h
  | some index =>
    have hdispatchable := List.find?_some hsearch
    refine ⟨?_, hdispatchable⟩
    obtain ⟨offset, hoffset, rfl⟩ := List.mem_map.mp (List.mem_of_find?_eq_some hsearch)
    have hcount := List.mem_range'_1.mp hoffset
    exact Nat.mod_lt _ (by omega)

/-! ### Task ids -/

theorem toNat_makeTaskId {generation : UInt32} {slot : ℕ}
    (hgeneration : generation ≤ schedulerMaxGeneration) (hslot : slot < schedulerMaxTasks) :
    (makeTaskId generation slot).toNat = generation.toNat * 256 + slot := by
  have hbound : generation.toNat ≤ 0x00FFFFFF := hgeneration
  have hsmall : slot < 16 := hslot
  have hshift : (generation <<< 8).toNat = generation.toNat <<< 8 := by
    rw [UInt32.toNat_shiftLeft, Nat.shiftLeft_eq, Nat.shiftLeft_eq]
    change generation.toNat * 2 ^ 8 % 2 ^ 32 = generation.toNat * 2 ^ 8
    omega
  have hslotNat : (slot.toUInt32).toNat = slot := by
    rw [Nat.toUInt32, UInt32.toNat_ofNat']
    omega
  rw [makeTaskId, UInt32.toNat_or, hshift, hslotNat, ← Nat.shiftLeft_add_eq_or_of_lt (by omega),
    Nat.shiftLeft_eq]

/-- An id that is given out is not zero, and its low byte is its slot. -/
theorem makeTaskId_spec {generation : UInt32} {slot : ℕ} (hused : generation ≠ 0)
    (hgeneration : generation ≤ schedulerMaxGeneration) (hslot : slot < schedulerMaxTasks) :
    makeTaskId generation slot ≠ 0 ∧ (makeTaskId generation slot).toNat % 256 = slot := by
  have hvalue := toNat_makeTaskId hgeneration hslot
  have hsmall : slot < 16 := hslot
  have hpositive : generation.toNat ≠ 0 := fun hzero ↦ hused (UInt32.toNat_inj.mp hzero)
  refine ⟨fun hzero ↦ ?_, by omega⟩
  rw [hzero, UInt32.toNat_zero] at hvalue
  omega

/-! ### Soundness -/

/-- A task that may stand in a slot of the table. -/
structure Fits (scheduler : Scheduler) (index : ℕ) (task : Task) : Prop where
  id_slot : task.taskId ≠ 0 → task.taskId.toNat % 256 = index
  live_user : task.mode = .user → task.state ≠ .terminated →
    task.taskId ≠ 0 ∧ task.frame ≠ none ∧ 1 ≤ index ∧ index < scheduler.taskCount
  reap : scheduler.pendingReap index = true →
    task.state = .terminated ∧ index < scheduler.taskCount

structure Sound (scheduler : Scheduler) : Prop where
  count_pos : 1 ≤ scheduler.taskCount
  count_le : scheduler.taskCount ≤ schedulerMaxTasks
  fits : ∀ index, Fits scheduler index (scheduler.tasks index)

theorem tasks_setTask (scheduler : Scheduler) (index : ℕ) (task : Task) (other : ℕ) :
    (scheduler.setTask index task).tasks other =
      if other = index then task else scheduler.tasks other :=
  Function.update_apply _ _ _ _

theorem tasks_updateTask (scheduler : Scheduler) (index : ℕ) (update : Task → Task) (other : ℕ) :
    (scheduler.updateTask index update).tasks other =
      if other = index then update (scheduler.tasks index) else scheduler.tasks other :=
  tasks_setTask _ _ _ _

theorem current_updateCurrent (scheduler : Scheduler) (update : Task → Task) :
    (scheduler.updateTask scheduler.currentTask update).current = update scheduler.current :=
  Function.update_self _ _ _

section

variable (hsound : Sound scheduler)
include hsound

theorem Sound.setTask (hfits : Fits scheduler index task) :
    Sound (scheduler.setTask index task) where
  count_pos := hsound.count_pos
  count_le := hsound.count_le
  fits := by
    intro other
    rw [tasks_setTask]
    split_ifs with heq
    · subst heq
      exact ⟨hfits.id_slot, hfits.live_user, hfits.reap⟩
    · exact ⟨(hsound.fits other).id_slot, (hsound.fits other).live_user, (hsound.fits other).reap⟩

/-- A change of a task that keeps its identity, and keeps it ended if it has ended. -/
theorem Sound.updateTask {update : Task → Task}
    (hid : (update (scheduler.tasks index)).taskId = (scheduler.tasks index).taskId)
    (hmode : (update (scheduler.tasks index)).mode = (scheduler.tasks index).mode)
    (hlive : (update (scheduler.tasks index)).state ≠ .terminated →
      (scheduler.tasks index).state ≠ .terminated ∧ ((scheduler.tasks index).mode = .user →
      (scheduler.tasks index).frame ≠ none → (update (scheduler.tasks index)).frame ≠ none)) :
    Sound (scheduler.updateTask index update) := by
  apply hsound.setTask
  have hfits := hsound.fits index
  refine ⟨hid ▸ hfits.id_slot, ?_, ?_⟩
  · rw [hmode, hid]
    intro huser hafter
    obtain ⟨hbefore, hframe⟩ := hlive hafter
    obtain ⟨hne, hsome, hbounds⟩ := hfits.live_user huser hbefore
    exact ⟨hne, hframe huser hsome, hbounds⟩
  · intro hpending
    obtain ⟨hterminated, hlt⟩ := hfits.reap hpending
    exact ⟨by_contra fun hafter ↦ (hlive hafter).1 hterminated, hlt⟩

/-- A change of what soundness does not look at in a task. -/
theorem Sound.updateBookkeeping (index : ℕ) {update : Task → Task}
    (hsame : ∀ task, (update task).taskId = task.taskId ∧ (update task).mode = task.mode ∧
      (update task).state = task.state ∧ (update task).frame = task.frame) :
    Sound (scheduler.updateTask index update) := by
  obtain ⟨hid, hmode, hstate, hframe⟩ := hsame (scheduler.tasks index)
  exact hsound.updateTask hid hmode fun hlive ↦ ⟨hstate ▸ hlive, fun _ hsome ↦ hframe ▸ hsome⟩

/-- The fields of the scheduler that soundness does not look at. -/
theorem Sound.congr {other : Scheduler} (htasks : other.tasks = scheduler.tasks)
    (hcount : other.taskCount = scheduler.taskCount)
    (hreap : other.pendingReap = scheduler.pendingReap) : Sound other where
  count_pos := hcount ▸ hsound.count_pos
  count_le := hcount ▸ hsound.count_le
  fits := by
    intro index
    rw [htasks]
    have hfits := hsound.fits index
    exact ⟨hfits.id_slot, hcount ▸ hfits.live_user, by rw [hreap, hcount]; exact hfits.reap⟩

theorem Sound.grow {count : ℕ} (hgrows : scheduler.taskCount ≤ count)
    (hcount : count ≤ schedulerMaxTasks) : Sound { scheduler with taskCount := count } where
  count_pos := hsound.count_pos.trans hgrows
  count_le := hcount
  fits := by
    intro index
    have hfits := hsound.fits index
    refine ⟨hfits.id_slot, fun huser hlive ↦ ?_, fun hpending ↦ ?_⟩
    · obtain ⟨hne, hsome, hone, hlt⟩ := hfits.live_user huser hlive
      exact ⟨hne, hsome, hone, hlt.trans_le hgrows⟩
    · obtain ⟨hterminated, hlt⟩ := hfits.reap hpending
      exact ⟨hterminated, hlt.trans_le hgrows⟩

end

/-- What a free slot of a sound table is. -/
theorem FreeSlot.spec (hfree : FreeSlot scheduler index) (hsound : Sound scheduler) :
    1 ≤ index ∧ index < schedulerMaxTasks ∧ scheduler.pendingReap index = false := by
  rcases lt_or_eq_of_le hfree.le_count with hlt | heq
  · exact ⟨(hfree.vacant hlt).1, hlt.trans_le hsound.count_le, (hfree.vacant hlt).2.1⟩
  · refine ⟨heq ▸ hsound.count_pos, heq ▸ hfree.room heq, ?_⟩
    by_contra hpending
    have hlt := ((hsound.fits index).reap (by simpa using hpending)).2
    omega

section

variable (hsound : Sound scheduler)
include hsound

/-- A task with a fresh id moves into a free slot. -/
theorem Sound.install (hfree : FreeSlot scheduler index)
    (hgeneration : scheduler.slotGeneration index ≤ schedulerMaxGeneration)
    (hused : scheduler.slotGeneration index ≠ 0)
    (hid : task.taskId = makeTaskId (scheduler.slotGeneration index) index)
    (hframe : task.frame ≠ none) (last : ℕ) :
    Sound
      { scheduler.setTask index task with
        taskCount :=
          if index = scheduler.taskCount then scheduler.taskCount + 1 else scheduler.taskCount
        lastAddedTask := last } := by
  obtain ⟨hone, hlt, hpending⟩ := hfree.spec hsound
  obtain ⟨hne, hslot⟩ := makeTaskId_spec hused hgeneration hlt
  have hle := hfree.le_count
  generalize hcount : (if index = scheduler.taskCount then scheduler.taskCount + 1
    else scheduler.taskCount) = count
  have hbounds : scheduler.taskCount ≤ count ∧ count ≤ schedulerMaxTasks ∧ index < count := by
    rw [← hcount]
    split_ifs with heq
    · exact ⟨by omega, hfree.room heq, by omega⟩
    · exact ⟨le_rfl, hsound.count_le, by omega⟩
  have hgrown := hsound.grow hbounds.1 hbounds.2.1
  have hfits : Fits { scheduler with taskCount := count } index task := by
    refine ⟨fun _ ↦ hid ▸ hslot, fun _ _ ↦ ⟨hid ▸ hne, hframe, hone, hbounds.2.2⟩, fun htrue ↦ ?_⟩
    rw [hpending] at htrue
    cases htrue
  exact (hgrown.setTask hfits).congr rfl rfl rfl

theorem fits_clearedTask (index : ℕ) (name : List UInt8) :
    Fits scheduler index { clearedTask with name := name } where
  id_slot := fun hne ↦ absurd rfl hne
  live_user := fun _ hlive ↦ absurd rfl hlive
  reap := fun hpending ↦ ⟨rfl, ((hsound.fits index).reap hpending).2⟩

theorem Sound.saveFrame (frame : Frame) :
    Sound (saveFrame frame scheduler) := by
  apply hsound.updateTask
  · split_ifs <;> rfl
  · split_ifs <;> rfl
  · intro hlive
    refine ⟨by split_ifs at hlive <;> exact hlive, fun huser hsome ↦ ?_⟩
    rw [if_pos huser]
    simpa using hsome

theorem Sound.switchTo (next : ℕ) : Sound (switchTo next scheduler) := by
  have hupdated : Sound (scheduler.updateTask next fun task ↦
      { task with switches := task.switches + 1, ticksLeft := task.priority }) :=
    hsound.updateBookkeeping next fun _ ↦ ⟨rfl, rfl, rfl, rfl⟩
  exact hupdated.congr rfl rfl rfl

/-- A slot of the table whose task has ended may wait for its stack to be freed. -/
theorem Sound.setPending (hlt : index < scheduler.taskCount)
    (hterminated : (scheduler.tasks index).state = .terminated) :
    Sound { scheduler with pendingReap := Function.update scheduler.pendingReap index true } := by
  refine ⟨hsound.count_pos, hsound.count_le, fun other ↦ ?_⟩
  have hfits := hsound.fits other
  refine ⟨hfits.id_slot, hfits.live_user, fun hpending ↦ ?_⟩
  by_cases hother : other = index
  · subst hother
    exact ⟨hterminated, hlt⟩
  · apply hfits.reap
    change Function.update scheduler.pendingReap index true other = true at hpending
    rwa [Function.update_of_ne hother] at hpending

end

theorem sound_schedulerInit (kernelDirectory : UInt32) : Sound (schedulerInit kernelDirectory) where
  count_pos := le_rfl
  count_le := Nat.le_of_ble_eq_true rfl
  fits := by
    intro index
    simp only [schedulerInit, Function.update_apply]
    split_ifs <;> exact ⟨fun hne ↦ absurd rfl hne, by simp [clearedTask], by simp [clearedTask]⟩

theorem sound_schedulerStart (hsound : Sound scheduler) :
    Sound (schedulerStart scheduler) := by
  have hupdated : Sound (scheduler.updateTask 0 fun task ↦ { task with state := .terminated }) :=
    hsound.updateTask rfl rfl fun hlive ↦ absurd rfl hlive
  exact hupdated.congr rfl rfl rfl

/-! ### Adjusting tasks -/

/-- A task that has not ended may get a new slice and be blocked or woken. -/
structure Adjusted (old new : Task) : Prop where
  same : new = { old with
    state := new.state, priority := new.priority, ticksLeft := new.ticksLeft }
  state : new.state = old.state ∨ old.state ≠ .terminated ∧ new.state ≠ .terminated
  slice : new.priority = old.priority ∧
      (new.ticksLeft = old.ticksLeft ∨ new.ticksLeft = old.priority) ∨
    new.ticksLeft = new.priority ∧ new.priority ≠ 0 ∧ new.priority ≤ schedulerMaxPriority

/-- Some tasks were adjusted, the first only if it was blocked; nothing else has changed. -/
structure Adjusts (before after : Scheduler) : Prop where
  same : after = { before with tasks := after.tasks }
  task : ∀ index, after.tasks index = before.tasks index ∨
    (index ≠ 0 ∨ (before.tasks index).state = .blocked) ∧
      Adjusted (before.tasks index) (after.tasks index)

theorem Adjusted.ended {old new : Task} (hadjusted : Adjusted old new) :
    new.state = .terminated ↔ old.state = .terminated := by
  rcases hadjusted.state with hsame | ⟨hold, hnew⟩
  · rw [hsame]
  · exact iff_of_false hnew hold

theorem Adjusts.adjusted {before after : Scheduler} (hadjusts : Adjusts before after)
    (index : ℕ) : Adjusted (before.tasks index) (after.tasks index) := by
  rcases hadjusts.task index with hsame | ⟨-, hadjusted⟩
  · rw [hsame]
    exact ⟨rfl, .inl rfl, .inl ⟨rfl, .inl rfl⟩⟩
  · exact hadjusted

theorem Adjusts.refl (scheduler : Scheduler) : Adjusts scheduler scheduler :=
  ⟨rfl, fun _ ↦ .inl rfl⟩

theorem adjusts_updateTask {update : Task → Task} (hindex : index ≠ 0)
    (htask : Adjusted (scheduler.tasks index) (update (scheduler.tasks index))) :
    Adjusts scheduler (scheduler.updateTask index update) := by
  refine ⟨rfl, fun other ↦ ?_⟩
  rw [tasks_updateTask]
  split_ifs with heq
  · subst heq
    exact .inr ⟨.inl hindex, htask⟩
  · exact .inl rfl

theorem adjusts_block (hindex : index ≠ 0) (hrunnable : (scheduler.tasks index).state = .runnable) :
    Adjusts scheduler (scheduler.updateTask index fun task ↦ { task with state := .blocked }) := by
  refine adjusts_updateTask hindex ⟨rfl, .inr ⟨?_, by simp⟩, .inl ⟨rfl, .inl rfl⟩⟩
  rw [hrunnable]
  simp

theorem adjusts_schedulerSetPriority (index : ℕ) (priority : UInt32) (scheduler : Scheduler) :
    Adjusts scheduler (schedulerSetPriority index priority scheduler).2 := by
  unfold schedulerSetPriority
  split_ifs with hrefused
  · exact .refl scheduler
  · simp only [not_or, UInt32.not_lt] at hrefused
    obtain ⟨hindex, -, hne, hle, -⟩ := hrefused
    dsimp only
    exact adjusts_updateTask hindex ⟨rfl, .inl rfl, .inr ⟨rfl, hne, hle⟩⟩

theorem adjusts_schedulerBlockTask (index : ℕ) (scheduler : Scheduler) :
    Adjusts scheduler (schedulerBlockTask index scheduler).2 := by
  unfold schedulerBlockTask
  split_ifs with hrefused
  · exact .refl scheduler
  · simp only [not_or, not_not] at hrefused
    exact adjusts_block hrefused.1 hrefused.2.2.2.1

theorem adjusts_schedulerBlockCurrent (scheduler : Scheduler) :
    Adjusts scheduler (schedulerBlockCurrent scheduler).2 := by
  unfold schedulerBlockCurrent
  split_ifs with hrefused
  · exact .refl scheduler
  · simp only [not_or, not_not] at hrefused
    exact adjusts_block hrefused.2.1 hrefused.2.2.2.1

/-! ### Waking tasks -/

/-- Some blocked tasks have become runnable; nothing else has changed. -/
structure Wakes (before after : Scheduler) : Prop where
  same : after = { before with tasks := after.tasks }
  task : ∀ index, after.tasks index = before.tasks index ∨
    ((before.tasks index).state = .blocked ∧
      after.tasks index = { before.tasks index with
        state := .runnable, ticksLeft := (before.tasks index).priority })

theorem Wakes.refl (scheduler : Scheduler) : Wakes scheduler scheduler :=
  ⟨rfl, fun _ ↦ .inl rfl⟩

theorem Wakes.trans {first second third : Scheduler} (hfirst : Wakes first second)
    (hsecond : Wakes second third) : Wakes first third where
  same := by
    rw [hsecond.same, hfirst.same]
  task := by
    intro index
    rcases hfirst.task index with hsame | ⟨hblocked, hwoken⟩
    · rw [← hsame]
      exact hsecond.task index
    · rcases hsecond.task index with hsame | ⟨hagain, -⟩
      · exact .inr ⟨hblocked, hsame.trans hwoken⟩
      · rw [hwoken] at hagain
        cases hagain

variable {before after : Scheduler}

/-- A task that is blocked after a wakeup is the one that was blocked before it. -/
theorem Wakes.eq_of_blocked (hwakes : Wakes before after)
    (hblocked : (after.tasks index).state = .blocked) : after.tasks index = before.tasks index := by
  rcases hwakes.task index with hsame | ⟨-, hwoken⟩
  · exact hsame
  · rw [hwoken] at hblocked
    cases hblocked

theorem Wakes.adjusts (hwakes : Wakes before after) : Adjusts before after := by
  refine ⟨hwakes.same, fun index ↦ (hwakes.task index).imp_right ?_⟩
  rintro ⟨hblocked, hwoken⟩
  rw [hwoken]
  refine ⟨.inr hblocked, rfl, .inr ⟨?_, by simp⟩, .inl ⟨rfl, .inr rfl⟩⟩
  rw [hblocked]
  simp

/-- Adjusting tasks keeps the table sound. -/
theorem Sound.adjusts (hsound : Sound before) (hadjusts : Adjusts before after) : Sound after := by
  have hcount : after.taskCount = before.taskCount := by rw [hadjusts.same]
  have hreap : after.pendingReap = before.pendingReap := by rw [hadjusts.same]
  refine ⟨hcount ▸ hsound.count_pos, hcount ▸ hsound.count_le, fun index ↦ ?_⟩
  have hfits := hsound.fits index
  have hadjusted := hadjusts.adjusted index
  have hended := hadjusted.ended
  rw [hadjusted.same]
  refine ⟨hfits.id_slot, fun huser hlive ↦ ?_, fun hpending ↦ ?_⟩
  · rw [hcount]
    exact hfits.live_user huser (mt hended.mpr hlive)
  · rw [hreap] at hpending
    rw [hcount]
    exact ⟨hended.mpr (hfits.reap hpending).1, (hfits.reap hpending).2⟩

theorem schedulerWakeTaskUnlocked_wakes (index : ℕ) (scheduler : Scheduler) :
    Wakes scheduler (schedulerWakeTaskUnlocked index scheduler).2 := by
  unfold schedulerWakeTaskUnlocked
  split_ifs with hrefused
  · exact .refl scheduler
  · simp only [not_or, not_not] at hrefused
    refine ⟨rfl, fun other ↦ ?_⟩
    rw [tasks_updateTask]
    split_ifs with heq
    · subst heq
      exact .inr ⟨hrefused.2.2.1, rfl⟩
    · exact .inl rfl

/-- A blocked task inside the table with a frame is woken. -/
theorem schedulerWakeTaskUnlocked_runs (hone : 1 ≤ index) (hlt : index < scheduler.taskCount)
    (hframe : (scheduler.tasks index).frame ≠ none) :
    ((schedulerWakeTaskUnlocked index scheduler).2.tasks index).state ≠ .blocked := by
  unfold schedulerWakeTaskUnlocked
  by_cases hblocked : (scheduler.tasks index).state = .blocked
  · rw [if_neg (by simp only [not_or, not_not]; exact ⟨by omega, by omega, hblocked, hframe⟩)]
    rw [tasks_updateTask, if_pos rfl]
    simp
  · rw [if_pos (.inr (.inr (.inl hblocked)))]
    exact hblocked

theorem schedulerWakeTaskId_wakes (taskId : UInt32) (scheduler : Scheduler) :
    Wakes scheduler (schedulerWakeTaskId taskId scheduler).2 := by
  unfold schedulerWakeTaskId
  split_ifs
  · exact .refl scheduler
  · split
    · exact schedulerWakeTaskUnlocked_wakes _ scheduler
    · exact .refl scheduler

/-- Ids name slots, so the user task with the given id is the one that is found and woken. -/
theorem schedulerWakeTaskId_runs (hsound : Sound scheduler) {taskId : UInt32}
    (huser : (scheduler.tasks index).mode = .user)
    (hlive : (scheduler.tasks index).state ≠ .terminated)
    (hid : (scheduler.tasks index).taskId = taskId) :
    ((schedulerWakeTaskId taskId scheduler).2.tasks index).state ≠ .blocked := by
  obtain ⟨hne, hframe, hone, hlt⟩ := (hsound.fits index).live_user huser hlive
  have hfound : (List.range' 1 (scheduler.taskCount - 1)).find?
      (fun other ↦ (scheduler.tasks other).taskId == taskId) = some index := by
    rw [List.find?_range'_eq_some]
    refine ⟨by simpa using hid, List.mem_range'_1.mpr ⟨hone, by omega⟩, fun other _ hother ↦ ?_⟩
    rw [Bool.not_eq_true', beq_eq_false_iff_ne]
    intro hsame
    have hslot := (hsound.fits other).id_slot (by rw [hsame, ← hid]; exact hne)
    have hindex := (hsound.fits index).id_slot hne
    rw [hsame, ← hid, hindex] at hslot
    omega
  unfold schedulerWakeTaskId
  rw [if_neg (hid ▸ hne), hfound]
  exact schedulerWakeTaskUnlocked_runs hone hlt hframe

theorem wakeUserTasksIn_wakes (slots : List ℕ) (scheduler : Scheduler) :
    Wakes scheduler (wakeUserTasksIn slots scheduler).2 := by
  induction slots generalizing scheduler with
  | nil => exact .refl scheduler
  | cons index rest ih =>
    refine Wakes.trans ?_ (ih _)
    split_ifs
    · exact schedulerWakeTaskUnlocked_wakes index scheduler
    · exact .refl scheduler

/-- The loop leaves no user task of the slots it visits blocked. -/
theorem wakeUserTasksIn_runs (slots : List ℕ) (hsound : Sound scheduler) (hmem : index ∈ slots)
    (huser : (scheduler.tasks index).mode = .user)
    (hlive : (scheduler.tasks index).state ≠ .terminated) :
    ((wakeUserTasksIn slots scheduler).2.tasks index).state ≠ .blocked := by
  induction slots generalizing scheduler with
  | nil => cases hmem
  | cons first rest ih =>
    simp only [wakeUserTasksIn]
    have hfirst : Wakes scheduler
        (if (scheduler.tasks first).mode = .user then schedulerWakeTaskUnlocked first scheduler
          else (false, scheduler)).2 := by
      split_ifs
      · exact schedulerWakeTaskUnlocked_wakes first scheduler
      · exact .refl scheduler
    by_cases hrest : index ∈ rest
    · have hadjusted := hfirst.adjusts.adjusted index
      refine ih (hsound.adjusts hfirst.adjusts) hrest ?_ (mt hadjusted.ended.mp hlive)
      rw [hadjusted.same]
      exact huser
    · obtain rfl : index = first := (List.mem_cons.mp hmem).resolve_right hrest
      obtain ⟨-, hframe, hone, hlt⟩ := (hsound.fits index).live_user huser hlive
      -- The rest of the loop only wakes, so the task would be blocked after its own turn.
      intro hblocked
      rw [(wakeUserTasksIn_wakes rest _).eq_of_blocked hblocked, if_pos huser] at hblocked
      exact schedulerWakeTaskUnlocked_runs hone hlt hframe hblocked

end EfesOS.Process
