import EfesOS.Process.UserProcess

/-!
# Code that only touches memory

Much of the scheduler and of the process table only calls the platform. Such code keeps every
property of the machine that does not look at memory (`MemoryFree`); the lemmas here say so for each
routine, once for all such properties.
-/

set_option autoImplicit false

namespace EfesOS.Process

open EfesOS.Foundation EfesOS.Foundation.Program

variable {M α : Type}

/-- A property of the machine that does not look at memory. -/
class MemoryFree (inv : Machine M → Prop) : Prop where
  keep : ∀ machine memory, inv machine → inv { machine with memory := memory }

variable {inv : Machine M → Prop}

theorem keeps_readMemory (observe : M → α) : Keeps inv (readMemory observe) :=
  keeps_read _

theorem keeps_readScheduler (observe : Scheduler → α) : Keeps inv (readScheduler observe) :=
  keeps_read _

theorem keeps_require (condition : Bool) (message : String) :
    Keeps inv (require condition message) :=
  (keeps_pure ()).ite (keeps_halt message)

variable (platform : Platform M)

theorem keeps_verifyStackCanary (task : Task) : Keeps inv (verifyStackCanary platform task) :=
  (keeps_pure ()).ite <| (keeps_readMemory _).bind fun _ ↦ keeps_require _ _

variable [MemoryFree inv]

theorem keeps_onMemory (program : Program M α) : Keeps inv (onMemory program) :=
  keeps_onPart program MemoryFree.keep

/-- Entering an address space under a condition, with a panic if it is refused. -/
theorem keeps_whenSwitched (condition : Prop) [Decidable condition] (directory : UInt32)
    (message : String) :
    Keeps inv (when condition do
      let switched ← onMemory (platform.pagingSwitchAddressSpace directory)
      require switched message) :=
  Keeps.when <| (keeps_onMemory _).bind fun _ ↦ keeps_require _ _

theorem keeps_releaseStackPages (base : UInt32) (index : ℕ) :
    Keeps inv (releaseStackPages platform base index) := by
  induction index with
  | zero => exact keeps_pure ()
  | succ index ih =>
    exact (keeps_onMemory _).bind fun _ ↦ (keeps_onMemory _).when.bind fun _ ↦ ih

theorem keeps_mapAllocated (address physical flags : UInt32) :
    Keeps inv (mapAllocated platform address physical flags) :=
  (keeps_pure false).ite (keeps_onMemory _)

theorem keeps_allocateStackPages (base : UInt32) (remaining index : ℕ) (frames : ℕ → UInt32) :
    Keeps inv (allocateStackPages platform base remaining index frames) := by
  induction remaining generalizing index frames with
  | zero => exact keeps_pure _
  | succ remaining ih =>
    refine (keeps_onMemory _).bind fun physical ↦
      (keeps_mapAllocated platform _ _ _).bind fun mapped ↦ ?_
    refine Keeps.ite ((keeps_onMemory _).bind fun _ ↦ ih _ _) ?_
    refine (keeps_onMemory _).when.bind fun _ ↦ ?_
    exact (keeps_releaseStackPages platform base index).bind fun _ ↦ keeps_pure none

theorem keeps_userContextValid (entry userStackTop addressSpace : UInt32) :
    Keeps inv (userContextValid platform entry userStackTop addressSpace) := by
  refine (keeps_onMemory _).bind fun entered ↦ Keeps.ite ?_ (keeps_pure false)
  refine (keeps_readMemory _).bind fun _ ↦ (keeps_readMemory _).bind fun _ ↦ ?_
  exact (keeps_onMemory _).bind fun _ ↦ (keeps_require _ _).bind fun _ ↦ keeps_pure _

theorem keeps_spawnCleanup (kernelDirectory : UInt32) (progress : SpawnProgress) :
    Keeps inv (spawnCleanup platform kernelDirectory progress) := by
  refine Keeps.bind ?_ fun _ ↦ Keeps.bind ?_ fun _ ↦ Keeps.bind ?_ fun _ ↦ keeps_pure false
  · refine (keeps_readMemory _).bind fun _ ↦ Keeps.bind (Keeps.when ?_) fun _ ↦ ?_
    · exact (keeps_onMemory _).bind fun _ ↦ keeps_require _ _
    · cases progress.loaded with
      | none => exact keeps_pure ()
      | some bounds => exact (keeps_onMemory _).bind fun _ ↦ keeps_require _ _
  · refine Keeps.ite ?_ (keeps_onMemory _).when
    exact (keeps_onMemory _).bind fun _ ↦ (keeps_require _ _).bind fun _ ↦ keeps_onMemory _
  · refine Keeps.when ((keeps_readMemory _).bind fun _ ↦ Keeps.bind (Keeps.when ?_) fun _ ↦ ?_)
    · exact (keeps_onMemory _).bind fun _ ↦ keeps_require _ _
    · exact (keeps_onMemory _).bind fun _ ↦ keeps_require _ _

end EfesOS.Process
