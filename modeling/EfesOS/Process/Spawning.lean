import EfesOS.Process.Population

/-!
# What starting a process leaves behind

Of the tasks and the messages, `user_process_spawn` changes only the scheduler, and that as
`scheduler_add_user_task_in_space` left it. `Spawning` says so and `userProcessSpawn_ensures` shows
it, whatever the platform answers.
-/

set_option autoImplicit false

namespace EfesOS.Process

open EfesOS.Foundation EfesOS.Foundation.Program

variable {M : Type} {control : Machine Unit}

/-- What `user_process_spawn` returns and leaves. -/
inductive Spawning (trampoline : UInt32) (before : Machine Unit) (spawned : Bool) :
    Machine Unit → Prop where
  | adds (entry userStackTop addressSpace : UInt32) (after : Scheduler)
      (hadds : Addition trampoline (userTask entry userStackTop addressSpace) before.scheduler
        spawned after) :
      Spawning trampoline before spawned { before with scheduler := after }

variable (platform : Platform M) {machine : Machine M}

theorem spawning_refused (hcontrol : HasControl control machine) :
    Spawning platform.trampoline control false machine.control := by
  rw [show machine.control = control from hcontrol]
  exact .adds 0 0 0 control.scheduler .refused

theorem keeps_nextLayoutRandom : Keeps (HasControl control) (nextLayoutRandom platform) := by
  refine (keeps_read _).bind fun _ ↦ Keeps.bind (Keeps.when ?_) fun _ ↦ ?_
  · refine (keeps_readMemory _).bind fun _ ↦ (keeps_onMemory _).bind fun _ ↦ ?_
    exact keeps_changeProcesses _
  · exact (keeps_changeProcesses _).bind fun _ ↦ keeps_read _

section Stages

variable {index : ℕ} (name : Pointer) (image : List UInt8)
  (kernelDirectory guardAddress entry loadedBase loadedEnd addressSpace : UInt32)
  {progress : SpawnProgress}

/-- The cleanup gives back memory only and reports a failure. -/
theorem spawnCleanup_spawning {before : Machine Unit}
    (hfailed : ∀ next : Machine M, HasControl control next →
      Spawning platform.trampoline before false next.control)
    (hcontrol : HasControl control machine) :
    Ensures (spawnCleanup platform kernelDirectory progress) machine fun spawned next ↦
      Spawning platform.trampoline before spawned next.control := by
  have hreturns : Ensures (spawnCleanup platform kernelDirectory progress) machine
      fun spawned _ ↦ spawned = false := by
    simp only [spawnCleanup, ensures_bind, ensures_pure]
    intro _ _ _ _ _ _ _ _ _
    trivial
  intro spawned next hrun
  obtain rfl := hreturns spawned next hrun
  exact hfailed next (keeps_spawnCleanup platform _ _ machine hcontrol _ _ hrun)

section

variable (hcontrol : HasControl control machine)
include hcontrol

theorem spawnCleanup_unregistered :
    Ensures (spawnCleanup platform kernelDirectory progress) machine fun spawned next ↦
      Spawning platform.trampoline control spawned next.control :=
  spawnCleanup_spawning platform kernelDirectory (fun _ hnext ↦ spawning_refused platform hnext)
    hcontrol

theorem spawnRegister_ensures :
    Ensures (spawnRegister platform name kernelDirectory index guardAddress entry loadedBase
        loadedEnd progress) machine fun spawned next ↦
      Spawning platform.trampoline control spawned next.control := by
  simp only [spawnRegister, readMemory, ensures_bind, ensures_read, ensures_ite]
  refine ⟨fun _ ↦ spawnCleanup_unregistered platform kernelDirectory hcontrol, fun _ ↦ ?_⟩
  refine (keeps_onMemory _ _ hcontrol).mono fun _ _ hswitched ↦ ?_
  refine (keeps_require _ _ _ hswitched).mono fun _ _ hentered ↦ ?_
  refine (schedulerAddUserTaskInSpace_ensures platform name entry _ _ hentered).mono ?_
  rintro added registered ⟨hadds, hregistered⟩
  have hadded : ∀ next : Machine M,
      HasControl { control with scheduler := registered.scheduler } next →
      Spawning platform.trampoline control added next.control := by
    intro next hnext
    rw [show next.control = _ from hnext]
    exact .adds _ _ _ _ hadds
  cases added with
  | true =>
    refine ⟨fun _ ↦ ?_, fun hnot ↦ absurd rfl hnot⟩
    simp only [recordProcess, readScheduler, id, ensures_bind, ensures_read, ensures_pure]
    exact (keeps_changeProcesses _ _ hregistered).mono fun _ next hnext ↦ hadded next hnext
  | false =>
    refine ⟨fun hnot ↦ (Bool.false_ne_true hnot).elim, fun _ ↦ ?_⟩
    exact spawnCleanup_spawning platform kernelDirectory hadded hregistered

theorem spawnInSpace_ensures :
    Ensures (spawnInSpace platform name image kernelDirectory index guardAddress addressSpace)
      machine fun spawned next ↦ Spawning platform.trampoline control spawned next.control := by
  simp only [spawnInSpace, ensures_bind]
  refine (keeps_onMemory _ _ hcontrol).mono fun stackFrame _ hallocated ↦ ?_
  refine (keeps_mapAllocated platform _ _ _ _ hallocated).mono fun mapped _ hmapped ↦ ?_
  rw [ensures_ite]
  refine ⟨fun _ ↦ ?_, fun _ ↦ spawnCleanup_unregistered platform kernelDirectory hmapped⟩
  simp only [ensures_bind]
  refine (keeps_onMemory _ _ hmapped).mono fun _ _ hcleared ↦ ?_
  refine (keeps_onMemory _ _ hcleared).mono fun loaded _ hloaded ↦ ?_
  cases loaded with
  | none => exact spawnCleanup_unregistered platform kernelDirectory hloaded
  | some bounds => exact spawnRegister_ensures platform name kernelDirectory _ _ _ _ hloaded

theorem spawnCreate_ensures :
    Ensures (spawnCreate platform name image kernelDirectory index guardAddress) machine
      fun spawned next ↦ Spawning platform.trampoline control spawned next.control := by
  simp only [spawnCreate, ensures_bind]
  refine (keeps_onMemory _ _ hcontrol).mono fun addressSpace _ hcreated ↦ ?_
  rw [ensures_ite]
  refine ⟨fun _ ↦ (ensures_pure false).mpr (spawning_refused platform hcreated), fun _ ↦ ?_⟩
  simp only [ensures_bind]
  refine (keeps_onMemory _ _ hcreated).mono fun switched _ hentered ↦ ?_
  rw [ensures_ite]
  refine ⟨fun _ ↦ ?_, fun _ ↦ ?_⟩
  · exact spawnInSpace_ensures platform name image kernelDirectory guardAddress addressSpace
      hentered
  · simp only [readMemory, ensures_bind, ensures_read, ensures_ite, ensures_pure]
    refine ⟨fun _ ↦ ?_, fun _ ↦ spawning_refused platform hentered⟩
    exact (keeps_onMemory _ _ hentered).mono fun _ _ hlast ↦ spawning_refused platform hlast

end

end Stages

theorem userProcessSpawn_ensures (name image : Pointer) (machine : Machine M) :
    Ensures (userProcessSpawn platform name image) machine fun spawned next ↦
      Spawning platform.trampoline machine.control spawned next.control := by
  have hcontrol : HasControl machine.control machine := rfl
  have hrefused := spawning_refused platform hcontrol
  simp only [userProcessSpawn, readMemory, ensures_bind, ensures_read]
  cases name with
  | none => exact (ensures_pure false).mpr hrefused
  | some name =>
    cases image with
    | none => exact (ensures_pure false).mpr hrefused
    | some image =>
      simp only [ensures_ite, ensures_bind, ensures_read]
      refine ⟨fun _ ↦ (ensures_pure false).mpr hrefused, fun _ ↦ ?_⟩
      split
      · exact (ensures_pure false).mpr hrefused
      · simp only [ensures_bind, ensures_read]
        refine (keeps_nextLayoutRandom platform _ hcontrol).mono fun random drawn hdrawn ↦ ?_
        split
        · exact (ensures_pure false).mpr (spawning_refused platform hdrawn)
        · exact spawnCreate_ensures platform (some name) image _ _ hdrawn

end EfesOS.Process
