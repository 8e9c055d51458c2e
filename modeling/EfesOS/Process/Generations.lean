import EfesOS.Process.Readiness

/-!
# Task ids are never given out twice

A slot counts the tasks it was given, also those that could not be added after all, and the id of a
task is that count next to the number of the slot. A slot whose count is used up is refused. So the
ids given out after some point of a run all carry a higher count than their slot had at that point
(`Run.issued_fresh`), which makes the ids of a whole run distinct (`task_ids_are_never_reused`).
-/

set_option autoImplicit false

namespace EfesOS.Process

open EfesOS.Foundation EfesOS.Foundation.Program

variable {M : Type} {trampoline : UInt32}

/-- The slot and the id a successful addition gave out, as the accessors of the scheduler report
them. -/
def Event.issued (event : Event M) : Option (ℕ × UInt32) :=
  match event.call with
  | some (call, .done true) =>
    if call.adds then
      some (event.after.scheduler.lastAddedTask,
        schedulerTaskId event.after.scheduler event.after.scheduler.lastAddedTask)
    else none
  | _ => none

def issued (events : List (Event M)) : List (ℕ × UInt32) := events.filterMap Event.issued

/-! ### One call -/

/-- The free slot has been given one more task. -/
def Advances (before after : Scheduler) (slot : ℕ) : Prop :=
  freeSlot before = some slot ∧
    after.slotGeneration = Function.update before.slotGeneration slot
      (nextGeneration (before.slotGeneration slot))

variable {before after : Scheduler}

theorem Advances.le {free : ℕ} (hadvances : Advances before after free) (slot : ℕ) :
    before.slotGeneration slot ≤ after.slotGeneration slot := by
  rw [UInt32.le_iff_toNat_le, hadvances.2, Function.update_apply]
  split_ifs with heq
  · subst heq
    rw [toNat_nextGeneration (freeSlot_eq_some hadvances.1).2]
    omega
  · exact le_rfl

/-- An addition advances the free slot, unless it was refused or the name did not fit; if it
succeeds, the id is that of the new generation. -/
theorem Addition.generations {task : Task} {added : Bool}
    (hadds : Addition trampoline task before added after) :
    (added = false ∧ after.slotGeneration = before.slotGeneration) ∨
    (∃ slot, Advances before after slot ∧ (added = true → after.lastAddedTask = slot ∧
      schedulerTaskId after slot = makeTaskId (after.slotGeneration slot) slot)) := by
  cases hadds with
  | refused | misnamed slot name hslot => exact .inl ⟨rfl, rfl⟩
  | noStack slot hslot => exact .inr ⟨slot, ⟨hslot, rfl⟩, by simp⟩
  | added slot name frames hslot =>
    refine .inr ⟨slot, ⟨hslot, rfl⟩, fun _ ↦ ⟨rfl, ?_⟩⟩
    have hle := (freeSlot_eq_some hslot).1.le_count
    have hinside : ¬(if slot = before.taskCount then before.taskCount + 1 else before.taskCount) ≤
        slot := by
      split_ifs <;> omega
    simp only [schedulerTaskId, installedTask, advanceGeneration, withStack, Scheduler.setTask,
      Function.update_self]
    exact if_neg hinside

theorem Addition.refused_of_none {task : Task} {added : Bool}
    (hadds : Addition trampoline task before added after) (hnone : freeSlot before = none) :
    added = false ∧ after = before := by
  cases hadds with
  | refused => exact ⟨rfl, rfl⟩
  | misnamed slot name hslot | noStack slot hslot | added slot name frames hslot =>
    cases hnone.symm.trans hslot

variable {platform : Platform M} {machine : Machine M}

/-- What a move does to the generations, and the id it gives out if it gives one out. -/
theorem Move.generations {next : Machine M} {call : Option (Call × Reply)}
    (hmove : Move platform call machine next) :
    (Event.issued ⟨call, next⟩ = none ∧
      ∀ slot, machine.scheduler.slotGeneration slot ≤ next.scheduler.slotGeneration slot) ∨
    ∃ slot, Advances machine.scheduler next.scheduler slot ∧
      Event.issued ⟨call, next⟩ =
        some (slot, makeTaskId (next.scheduler.slotGeneration slot) slot) := by
  cases hmove with
  | elsewhere _ _ hsame => exact .inl ⟨rfl, fun slot ↦ hsame ▸ UInt32.le_refl _⟩
  | call call reply _ _ henabled hrun =>
    have houtcome := perform_outcome platform call machine _ _ hrun
    cases hadds : call.adds with
    | false =>
      have hsame : next.scheduler.slotGeneration = machine.scheduler.slotGeneration :=
        houtcome.slotGeneration hadds
      refine .inl ⟨?_, fun slot ↦ hsame ▸ UInt32.le_refl _⟩
      unfold Event.issued
      split
      · rename_i heq
        cases heq
        rw [if_neg (by rw [hadds]; simp)]
      · rfl
    | true =>
      obtain ⟨task, added, rfl, hadded⟩ := houtcome.addition hadds
      rcases hadded.generations with ⟨rfl, hsame⟩ | ⟨slot, hadvances, hissued⟩
      · exact .inl ⟨rfl, fun slot ↦ hsame ▸ UInt32.le_refl _⟩
      · cases added with
        | false => exact .inl ⟨rfl, hadvances.le⟩
        | true =>
          obtain ⟨hlast, hid⟩ := hissued rfl
          refine .inr ⟨slot, hadvances, ?_⟩
          have hlast : next.scheduler.lastAddedTask = slot := hlast
          have hid : schedulerTaskId next.scheduler slot = _ := hid
          simp only [Event.issued, hadds, if_true, hlast, hid]
          rfl

/-! ### Runs -/

/-- An id that is given out after the slots have reached the given generations. -/
def FreshId (generations : ℕ → UInt32) (slot : ℕ) (taskId : UInt32) : Prop :=
  slot < schedulerMaxTasks ∧ ∃ generation, generations slot < generation ∧
    generation ≤ schedulerMaxGeneration ∧ taskId = makeTaskId generation slot

theorem Advances.freshId {slot : ℕ} (hready : Ready before)
    (hadvances : Advances before after slot) :
    FreshId before.slotGeneration slot (makeTaskId (after.slotGeneration slot) slot) := by
  obtain ⟨-, hslot, -⟩ := hready.freeSlot_bare hadvances.1
  have hgeneration := (freeSlot_eq_some hadvances.1).2
  have hnext : after.slotGeneration slot = nextGeneration (before.slotGeneration slot) := by
    rw [hadvances.2, Function.update_self]
  refine ⟨hslot, _, ?_, ?_, rfl⟩
  · rw [hnext, UInt32.lt_iff_toNat_lt, toNat_nextGeneration hgeneration]
    omega
  · rw [hnext]
    exact (nextGeneration_of_lt hgeneration).2

/-- The ids a run gives out are fresh with respect to where it starts. -/
theorem Run.issued_fresh {allowed : Scheduler → Option (Call × Reply) → Prop} {final : Machine M}
    {events : List (Event M)} (hrun : Run platform allowed machine events final)
    (hready : Ready machine.scheduler) :
    ∀ entry ∈ issued events, FreshId machine.scheduler.slotGeneration entry.1 entry.2 := by
  induction hrun with
  | nil machine => exact List.forall_mem_nil _
  | @cons machine next final call events hallowed hmove hrest ih =>
    have hlater := ih (hready.move hmove)
    have hgrows : ∀ {entry : ℕ × UInt32}, entry ∈ issued events →
        (∀ slot, machine.scheduler.slotGeneration slot ≤ next.scheduler.slotGeneration slot) →
        FreshId machine.scheduler.slotGeneration entry.1 entry.2 := by
      intro entry hentry hle
      obtain ⟨hslot, generation, hlt, hmax, hid⟩ := hlater entry hentry
      exact ⟨hslot, generation, UInt32.lt_of_le_of_lt (hle _) hlt, hmax, hid⟩
    intro entry hentry
    unfold issued at hentry
    rcases hmove.generations with ⟨hnone, hle⟩ | ⟨slot, hadvances, hsome⟩
    · rw [List.filterMap_cons_none hnone] at hentry
      exact hgrows hentry hle
    · rw [List.filterMap_cons_some hsome, List.mem_cons] at hentry
      rcases hentry with rfl | hentry
      · exact hadvances.freshId hready
      · exact hgrows hentry hadvances.le

/-- Ids of distinct slots, or of distinct generations of one slot, are distinct. -/
theorem makeTaskId_inj {first second : UInt32} {slot other : ℕ}
    (hfirst : first ≤ schedulerMaxGeneration) (hsecond : second ≤ schedulerMaxGeneration)
    (hslot : slot < schedulerMaxTasks) (hother : other < schedulerMaxTasks)
    (heq : makeTaskId first slot = makeTaskId second other) : first = second ∧ slot = other := by
  have hvalue := congrArg UInt32.toNat heq
  rw [toNat_makeTaskId hfirst hslot, toNat_makeTaskId hsecond hother] at hvalue
  have hsmall : slot < 16 := hslot
  have hsmaller : other < 16 := hother
  exact ⟨UInt32.toNat_inj.mp (by omega), by omega⟩

theorem Run.issued_nodup {allowed : Scheduler → Option (Call × Reply) → Prop} {final : Machine M}
    {events : List (Event M)} (hrun : Run platform allowed machine events final)
    (hready : Ready machine.scheduler) :
    ((issued events).map Prod.snd).Nodup := by
  induction hrun with
  | nil machine => exact List.nodup_nil
  | @cons machine next final call events hallowed hmove hrest ih =>
    have hnext := hready.move hmove
    unfold issued
    rcases hmove.generations with ⟨hnone, -⟩ | ⟨slot, hadvances, hsome⟩
    · rw [List.filterMap_cons_none hnone]
      exact ih hnext
    · rw [List.filterMap_cons_some hsome, List.map_cons, List.nodup_cons]
      refine ⟨fun hagain ↦ ?_, ih hnext⟩
      -- An equal id later on would have the same slot, but a higher generation.
      obtain ⟨⟨other, taskId⟩, hentry, heq⟩ := List.mem_map.mp hagain
      obtain ⟨hother, generation, hlt, hmax, hid⟩ := hrest.issued_fresh hnext _ hentry
      obtain ⟨hslot, _, -, hbound, -⟩ := hadvances.freshId hready
      have hgeneration : next.scheduler.slotGeneration slot ≤ schedulerMaxGeneration := by
        rw [hadvances.2, Function.update_self]
        exact (nextGeneration_of_lt (freeSlot_eq_some hadvances.1).2).2
      obtain ⟨hsame, rfl⟩ := makeTaskId_inj hmax hgeneration hother hslot (hid.symm.trans heq)
      exact absurd hlt (by rw [hsame]; exact UInt32.lt_irrefl _)

/-- Over any run from `scheduler_init`: the ids given to added tasks are distinct, none is zero,
each names its slot in its low byte, and where the slot an addition would use has no generation left
the addition is refused and changes nothing. -/
theorem task_ids_are_never_reused (platform : Platform M) {kernelDirectory : UInt32}
    {machine final : Machine M} {events : List (Event M)}
    (hinit : machine.scheduler = schedulerInit kernelDirectory)
    (hrun : Run platform AnyOrder machine events final) :
    ((issued events).map Prod.snd).Nodup ∧
    (∀ entry ∈ issued events, entry.2 ≠ 0 ∧ entry.2.toNat % 256 = entry.1) ∧
    (∀ call reply next, call.adds = true →
      schedulerMaxGeneration ≤ final.scheduler.slotGeneration (findTaskSlot final.scheduler) →
      Move platform (some (call, reply)) final next →
        reply = .done false ∧ next.scheduler = final.scheduler) := by
  have hready : Ready machine.scheduler := hinit ▸ ready_schedulerInit kernelDirectory
  refine ⟨hrun.issued_nodup hready, fun entry hentry ↦ ?_,
    fun call reply next hadds hused hmove ↦ ?_⟩
  · obtain ⟨hslot, generation, hlt, hmax, hid⟩ := hrun.issued_fresh hready entry hentry
    have hne : generation ≠ 0 := fun hzero ↦ by
      rw [hzero] at hlt
      exact absurd hlt (by simp)
    rw [hid]
    exact makeTaskId_spec hne hmax hslot
  · cases hmove with
    | call call reply _ _ henabled hperform =>
      obtain ⟨task, added, rfl, hadded⟩ :=
        (perform_outcome platform call final _ _ hperform).addition hadds
      obtain ⟨rfl, hsame⟩ := hadded.refused_of_none (if_pos (.inr hused))
      exact ⟨rfl, hsame⟩

/-- Two tasks are added; the first one returns, its stack is freed and its slot is used again. -/
def reuseOfSlotOne : List Call :=
  [.addTask (some (CString.ascii "shell")) 0x00101000,
    .addTask (some (CString.ascii "idle")) 0x00102000, .start, .onTimer default, .trampolineMark,
    .trampolineRecord, .onYield default, .onTimer default,
    .addTask (some (CString.ascii "shell")) 0x00101000]

theorem task_ids_are_never_reused_slot_one :
    ∃ events final, Run obligingPlatform AnyOrder bootMachine events final ∧
      issued events = [(1, 0x101), (2, 0x102), (1, 0x201)] ∧
      ((issued events).map Prod.snd).Nodup := by
  have hissued : (play obligingPlatform AnyOrder reuseOfSlotOne bootMachine).map
      (fun played ↦ issued played.1) = some [(1, 0x101), (2, 0x102), (1, 0x201)] := by
    decide +kernel
  obtain ⟨⟨events, final⟩, hplay, heq⟩ := Option.map_eq_some_iff.mp hissued
  have hrun := run_of_play obligingPlatform AnyOrder hplay
  have hinit : bootMachine.scheduler = schedulerInit 0x1000 := rfl
  exact ⟨events, final, hrun, heq, (task_ids_are_never_reused obligingPlatform hinit hrun).1⟩

end EfesOS.Process
