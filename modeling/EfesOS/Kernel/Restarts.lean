import EfesOS.Memory.Pmm
import EfesOS.Process.Machine

/-!
# The restart supervisor

`kernel_process_events` of `src/kernel/kernel.c` restarts the processes that ran when the kernel
came up, four times in all. Before each restart it compares the free blocks with what they were
after `kernel_main`, plus what every process that was reaped since then has given back. This is the
only part of the function modelled here: the rest hands characters to the shell and writes to the
serial port.

The supervisor sees the rest of the kernel through a few numbers, and other tasks run between any
two of its reads (`Point`). A process takes blocks when it starts. When it exits or faults,
`user_process_reap_task` returns all but its kernel stack, and the next timer interrupt or yield the
stack. The shell, which runs in the supervisor's task, can start more processes and let the heap
grow.

As long as the shell does neither before the last restart and nothing is returned while a restart is
measured, the supervisor stops the kernel only when it has waited too long: `restart_check_exact`.
The baseline knows of no other allocations and the measurement of no other returns, so either is
enough for a stop without a leak: `restart_check_misled`.
-/

set_option autoImplicit false

namespace EfesOS.Kernel.Restarts

open EfesOS.Memory EfesOS.Process

abbrev userProcessRestartTarget : UInt32 := 4

/-- How many turns of the event loop the supervisor waits for missing blocks. -/
abbrev userRestartWaitLimit : UInt32 := 200

abbrev leakPanic : String := "User process restart leaked physical memory."

/-- Where the supervisor is: in front of each of its reads of the rest of the kernel, or of
`user_process_init`, with what it has read so far. -/
inductive Point where
  | idle
  | due
  | waiting (expectedFree : UInt32)
  | comparing (expectedFree : UInt32)
  | measuring
  | starting (beforeRestart : UInt32)
  | started (beforeRestart : UInt32)

/-- A restart is measured from the read of `before_restart` to the read compared with it. -/
def Point.measures : Point → Bool
  | .starting _ | .started _ => true
  | _ => false

/-- What the supervisor keeps and what it sees of the kernel. `processes` are the blocks of each
process without its system stack, `unreapedBlocks` those in the system stacks of terminated ones. -/
structure System where
  freeBlocks : ℕ
  processes : List ℕ
  unreapedBlocks : ℕ
  processReaps : UInt32
  userProcessBlocks : ℕ
  userProcessInitialFreeBlocks : UInt32
  userProcessAllocationBlocks : UInt32
  userRestartCount : UInt32
  userRestartWaitTicks : UInt32
  point : Point

namespace System

def pmmFreeBlocks (system : System) : UInt32 := UInt32.ofNat system.freeBlocks

def userProcessReapCount (system : System) : UInt32 := system.processReaps

/-- `user_process_spawn` of an image that needs some blocks, where nothing else stands in its
way. -/
def userProcessSpawn (blocks : ℕ) (system : System) : Bool × System :=
  if blocks + schedulerStackPages ≤ system.freeBlocks then
    (true, { system with
      freeBlocks := system.freeBlocks - (blocks + schedulerStackPages)
      processes := blocks :: system.processes })
  else (false, system)

/-- `user_process_init`: the image that the kernel brings along. `free` says whether a record, a
stack region and a task slot are free for it. -/
def userProcessInit (free : Bool) (system : System) : Bool × System :=
  if free then system.userProcessSpawn system.userProcessBlocks else (false, system)

/-- The supervisor's part of `kernel_process_events`, up to the next read. -/
def superviseRestarts (free : Bool) (system : System) : Except String System :=
  match system.point with
  | .idle =>
    if system.userRestartCount < userProcessRestartTarget ∧
        system.userRestartCount < system.userProcessReapCount then
      .ok { system with point := .due }
    else .ok system
  | .due => .ok { system with point := .waiting (system.userProcessInitialFreeBlocks +
      system.userProcessAllocationBlocks *
        (system.userProcessReapCount - system.userRestartCount)) }
  | .waiting expectedFree =>
    if system.pmmFreeBlocks < system.userProcessInitialFreeBlocks ∨
        userRestartWaitLimit < system.userRestartWaitTicks then .error leakPanic
    else .ok { system with
      userRestartWaitTicks := system.userRestartWaitTicks + 1
      point := .comparing expectedFree }
  | .comparing expectedFree =>
    .ok { system with point := if system.pmmFreeBlocks = expectedFree then .measuring else .idle }
  | .measuring => .ok { system with point := .starting system.pmmFreeBlocks }
  | .starting beforeRestart =>
    match system.userProcessInit free with
    | (false, _) => .error "User process restart failed."
    | (true, after) => .ok { after with point := .started beforeRestart }
  | .started beforeRestart =>
    if system.pmmFreeBlocks ≠ beforeRestart - system.userProcessAllocationBlocks then
      .error leakPanic
    else .ok { system with
      userRestartCount := system.userRestartCount + 1
      userRestartWaitTicks := 0
      point := .idle }

end System

/-- What happens after `kernel_main`. -/
inductive Event where
  /-- A process exits or faults. -/
  | terminate (index : ℕ)
  /-- A timer interrupt or a yield: `reap_pending_stacks`. -/
  | reapStacks
  /-- The shell's `run`. -/
  | run (blocks : ℕ)
  /-- The heap grows, as in the shell's `pformat`. -/
  | growHeap (blocks : ℕ)
  /-- The event loop goes on. -/
  | processEvents (free : Bool)

def Event.apply : Event → System → Except String System
  | .terminate index, system =>
    match system.processes[index]? with
    | none => .ok system
    | some blocks => .ok { system with
        freeBlocks := system.freeBlocks + blocks
        processes := system.processes.eraseIdx index
        unreapedBlocks := system.unreapedBlocks + schedulerStackPages
        processReaps := system.processReaps + 1 }
  | .reapStacks, system => .ok { system with
      freeBlocks := system.freeBlocks + system.unreapedBlocks
      unreapedBlocks := 0 }
  | .run blocks, system => .ok (system.userProcessSpawn blocks).2
  | .growHeap blocks, system =>
    .ok { system with freeBlocks := system.freeBlocks - blocks }
  | .processEvents free, system => system.superviseRestarts free

/-- The shell runs in the task of the event loop, outside the supervisor's part. -/
def Event.Possible : Event → System → Prop
  | .run _, system | .growHeap _, system => system.point = .idle
  | _, _ => True

/-- The states of the runs whose events a condition allows. -/
inductive Reaches (allowed : Event → System → Prop) (start : System) : System → Prop where
  | start : Reaches allowed start start
  | event {system after : System} (hrun : Reaches allowed start system) (event : Event)
      (hpossible : event.Possible system) (hallowed : allowed event system)
      (hafter : event.apply system = .ok after) : Reaches allowed start after

/-- The shell starts no process and lets no heap grow before the last restart. -/
def ShellWaits : Event → System → Prop
  | .run _, system | .growHeap _, system => userProcessRestartTarget ≤ system.userRestartCount
  | _, _ => True

/-- No process ends and no stack is reaped while a restart is measured. -/
def MeasuredAlone : Event → System → Prop
  | .terminate _, system | .reapStacks, system => system.point.measures = false
  | _, _ => True

/-! ### The books before the last restart -/

/-- The blocks that a process of the kernel's image takes. -/
abbrev System.cost (system : System) : ℕ := system.userProcessBlocks + schedulerStackPages

/-- What is known at a point. -/
def Point.Known (system : System) : Point → Prop
  | .idle => True
  | .due => system.userRestartCount.toNat < system.processReaps.toNat
  | .waiting expectedFree | .comparing expectedFree =>
    system.userProcessInitialFreeBlocks.toNat + system.cost ≤ expectedFree.toNat
  | .measuring => system.userProcessInitialFreeBlocks.toNat + system.cost ≤ system.freeBlocks
  | .starting beforeRestart =>
    system.userProcessInitialFreeBlocks.toNat + system.cost ≤ system.freeBlocks ∧
      beforeRestart.toNat = system.freeBlocks
  | .started beforeRestart => beforeRestart.toNat = system.freeBlocks + system.cost

/-- A restarted process that is not counted yet. -/
def Point.uncounted : Point → ℕ
  | .started _ => 1
  | _ => 0

/-- The processes that came up with the kernel are the only ones, and the baseline is free. -/
structure Balanced (system : System) : Prop where
  few : system.userRestartCount.toNat < 4
  reaps : system.processReaps.toNat + system.processes.length =
    system.userRestartCount.toNat + 4 + system.point.uncounted
  allocation : system.userProcessAllocationBlocks.toNat = system.cost
  expected : system.userProcessInitialFreeBlocks.toNat + 4 * system.cost ≤ pmmMaxBlocks
  managed : system.freeBlocks + system.unreapedBlocks +
    (system.processes.map (· + schedulerStackPages)).sum ≤ pmmMaxBlocks
  baseline : system.userProcessInitialFreeBlocks.toNat ≤ system.freeBlocks
  known : system.point.Known system

variable {system after start : System}

/-- Outside a measurement what is known stays true when blocks are returned. -/
theorem Point.Known.mono {point : Point} (h : point.Known system)
    (halone : point.measures = false)
    {free unreaped : ℕ} {processes : List ℕ} {reaps : UInt32} (hfree : system.freeBlocks ≤ free)
    (hreaps : system.processReaps.toNat ≤ reaps.toNat) :
    point.Known { system with
      freeBlocks := free
      processes := processes
      unreapedBlocks := unreaped
      processReaps := reaps } := by
  cases point with
  | idle => trivial
  | due => exact Nat.lt_of_lt_of_le h hreaps
  | waiting expectedFree | comparing expectedFree => exact h
  | measuring => exact Nat.le_trans h hfree
  | starting beforeRestart | started beforeRestart => cases halone

namespace Balanced

variable (h : Balanced system)
include h

theorem toNat_pmmFreeBlocks : system.pmmFreeBlocks.toNat = system.freeBlocks := by
  have hmax : pmmMaxBlocks = 1048576 := rfl
  have hmanaged := h.managed
  rw [System.pmmFreeBlocks, UInt32.toNat_ofNat']
  omega

theorem terminate {index blocks : ℕ} (hprocess : system.processes[index]? = some blocks)
    (halone : MeasuredAlone (.terminate index) system) :
    Balanced { system with
      freeBlocks := system.freeBlocks + blocks
      processes := system.processes.eraseIdx index
      unreapedBlocks := system.unreapedBlocks + schedulerStackPages
      processReaps := system.processReaps + 1 } := by
  obtain ⟨hindex, rfl⟩ := List.getElem?_eq_some_iff.1 hprocess
  have hperm := List.getElem_cons_eraseIdx_perm hindex
  have hlength := hperm.length_eq
  have hsum := (hperm.map (· + schedulerStackPages)).sum_eq
  rw [List.length_cons] at hlength
  rw [List.map_cons, List.sum_cons] at hsum
  have hreaps := h.reaps
  have hfew := h.few
  have huncounted : system.point.uncounted ≤ 1 := by
    cases system.point <;> simp [Point.uncounted]
  have hnext : (system.processReaps + 1).toNat = system.processReaps.toNat + 1 := by
    rw [UInt32.toNat_add, show (1 : UInt32).toNat = 1 from rfl]
    omega
  have hmanaged := h.managed
  have hbaseline := h.baseline
  refine ⟨hfew, ?_, h.allocation, h.expected, ?_, hbaseline.trans (Nat.le_add_right _ _),
    h.known.mono halone (Nat.le_add_right _ _) (hnext ▸ Nat.le_succ _)⟩
  · dsimp only
    omega
  · dsimp only
    omega

theorem reapStacks (halone : MeasuredAlone .reapStacks system) :
    Balanced { system with
      freeBlocks := system.freeBlocks + system.unreapedBlocks
      unreapedBlocks := 0 } :=
  ⟨h.few, h.reaps, h.allocation, h.expected, h.managed, h.baseline.trans (Nat.le_add_right _ _),
    h.known.mono halone (Nat.le_add_right _ _) le_rfl⟩

/-- A process that waits for its restart is expected to have left the blocks for it. -/
theorem le_expectedFree (hdue : system.userRestartCount.toNat < system.processReaps.toNat)
    (hcounted : system.point.uncounted = 0) :
    system.userProcessInitialFreeBlocks.toNat + system.cost ≤
      (system.userProcessInitialFreeBlocks + system.userProcessAllocationBlocks *
        (system.userProcessReapCount - system.userRestartCount)).toNat := by
  have hmax : pmmMaxBlocks = 1048576 := rfl
  have hreaps := h.reaps
  have hexpected := h.expected
  have hpending : (system.userProcessReapCount - system.userRestartCount).toNat =
      system.processReaps.toNat - system.userRestartCount.toNat :=
    UInt32.toNat_sub_of_le _ _ (UInt32.le_iff_toNat_le.2 hdue.le)
  have hleast : system.cost * 1 ≤
      system.cost * (system.processReaps.toNat - system.userRestartCount.toNat) :=
    Nat.mul_le_mul_left _ (by omega)
  have hmost : system.cost * (system.processReaps.toNat - system.userRestartCount.toNat) ≤
      system.cost * 4 := Nat.mul_le_mul_left _ (by omega)
  rw [UInt32.toNat_add, UInt32.toNat_mul, h.allocation, hpending]
  omega

/-- A measured process takes what it should. -/
theorem userProcessInit {beforeRestart : UInt32} (hpoint : system.point = .starting beforeRestart)
    (free : Bool) :
    (system.userProcessInit free).1 = false ∨
      Balanced { (system.userProcessInit free).2 with point := .started beforeRestart } := by
  have hknown := h.known
  rw [hpoint] at hknown
  obtain ⟨henough, hbefore⟩ := hknown
  have hreaps := h.reaps
  have hmanaged := h.managed
  have hroom : system.userProcessBlocks + schedulerStackPages ≤ system.freeBlocks :=
    (Nat.le_add_left _ _).trans henough
  rw [hpoint] at hreaps
  cases free with
  | false => exact .inl rfl
  | true =>
    right
    rw [System.userProcessInit, if_pos rfl, System.userProcessSpawn, if_pos hroom]
    refine { h with reaps := ?_, managed := ?_, baseline := ?_, known := ?_ } <;>
      simp only [List.length_cons, List.map_cons, List.sum_cons, Point.uncounted, Point.Known,
        System.cost] at *
    all_goals omega

/-- One step of the supervisor. -/
theorem superviseRestarts {free : Bool} (hafter : system.superviseRestarts free = .ok after) :
    (userProcessRestartTarget ≤ after.userRestartCount ∧ after.point = .idle) ∨
      Balanced after := by
  have hknown := h.known
  have hreaps := h.reaps
  have hfew := h.few
  unfold System.superviseRestarts at hafter
  cases hpoint : system.point <;> rw [hpoint] at hafter hknown hreaps
  case idle =>
    dsimp only at hafter
    split_ifs at hafter with hdue <;> cases hafter
    · exact .inr { h with reaps := hreaps, known := UInt32.lt_iff_toNat_lt.1 hdue.2 }
    · exact .inr h
  case due =>
    cases hafter
    exact .inr { h with reaps := hreaps, known := h.le_expectedFree hknown (by rw [hpoint]; rfl) }
  case waiting expectedFree =>
    dsimp only at hafter
    split_ifs at hafter
    cases hafter
    exact .inr { h with reaps := hreaps, known := hknown }
  case comparing expectedFree =>
    cases hafter
    by_cases hequal : system.pmmFreeBlocks = expectedFree
    · rw [if_pos hequal]
      rw [← hequal] at hknown
      exact .inr { h with reaps := hreaps, known := hknown.trans_eq h.toNat_pmmFreeBlocks }
    · rw [if_neg hequal]
      exact .inr { h with reaps := hreaps, known := trivial }
  case measuring =>
    cases hafter
    exact .inr { h with reaps := hreaps, known := ⟨hknown, h.toNat_pmmFreeBlocks⟩ }
  case starting beforeRestart =>
    have hinit := h.userProcessInit hpoint free
    rcases hresult : system.userProcessInit free with ⟨_ | _, next⟩ <;>
      rw [hresult] at hafter hinit <;> cases hafter
    exact .inr (hinit.resolve_left Bool.true_eq_false.mp)
  case started beforeRestart =>
    dsimp only at hafter
    split_ifs at hafter
    cases hafter
    have hnext : (system.userRestartCount + 1).toNat = system.userRestartCount.toNat + 1 := by
      rw [UInt32.toNat_add, show (1 : UInt32).toNat = 1 from rfl]
      omega
    change _ = _ + 4 + 1 at hreaps
    by_cases hlast : system.userRestartCount.toNat = 3
    · refine .inl ⟨UInt32.le_iff_toNat_le.2 ?_, rfl⟩
      change 4 ≤ (system.userRestartCount + 1).toNat
      omega
    · refine .inr { h with few := ?_, reaps := ?_, known := trivial }
      · dsimp only
        omega
      · dsimp only [Point.uncounted]
        omega

end Balanced

/-! ### Runs -/

/-- The books are balanced, or the supervisor has done its work. -/
def Sound (system : System) : Prop :=
  (userProcessRestartTarget ≤ system.userRestartCount ∧ system.point = .idle) ∨ Balanced system

theorem superviseRestarts_done (hdone : userProcessRestartTarget ≤ system.userRestartCount)
    (hidle : system.point = .idle) (free : Bool) : system.superviseRestarts free = .ok system := by
  unfold System.superviseRestarts
  rw [hidle]
  exact if_neg fun hwaiting ↦ absurd hwaiting.1 (UInt32.not_lt.2 hdone)

/-- An event keeps the books as long as the shell waits and a restart is measured alone. -/
theorem Sound.event (h : Sound system) {event : Event} (hshell : ShellWaits event system)
    (halone : MeasuredAlone event system) (hafter : event.apply system = .ok after) :
    Sound after := by
  rcases h with ⟨hdone, hidle⟩ | h
  · refine .inl ?_
    cases event with
    | terminate index =>
      unfold Event.apply at hafter
      dsimp only at hafter
      split at hafter <;> cases hafter <;> exact ⟨hdone, hidle⟩
    | reapStacks | growHeap blocks => cases hafter; exact ⟨hdone, hidle⟩
    | run blocks =>
      cases hafter
      unfold System.userProcessSpawn
      split_ifs <;> exact ⟨hdone, hidle⟩
    | processEvents free =>
      rw [Event.apply, superviseRestarts_done hdone hidle] at hafter
      cases hafter
      exact ⟨hdone, hidle⟩
  have hearly : ¬userProcessRestartTarget ≤ system.userRestartCount := by
    exact Nat.not_le.2 h.few
  cases event with
  | terminate index =>
    unfold Event.apply at hafter
    dsimp only at hafter
    split at hafter
    · cases hafter
      exact .inr h
    next blocks hprocess =>
      cases hafter
      exact .inr (h.terminate hprocess halone)
  | reapStacks =>
    cases hafter
    exact .inr (h.reapStacks halone)
  | run blocks | growHeap blocks => exact absurd hshell hearly
  | processEvents free => exact h.superviseRestarts hafter

end EfesOS.Kernel.Restarts
