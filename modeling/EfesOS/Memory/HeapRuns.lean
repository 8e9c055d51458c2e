import EfesOS.Memory.HeapCalls

/-!
# The integrity of the kernel heap

A run of the heap begins with a successful `heap_init` and goes on with calls of `kmalloc`,
`kcalloc` and `kfree`, and with stores of the clients into their allocations. Pages may be refused
at any time. A client frees an allocation at most once, and writes only inside it (`Call.Allowed`).

`heap_integrity` is what holds in every state of every run: the blocks in memory are linked in
address order and fill the mapped bytes, their headers are intact, no two free blocks are
neighbours, the counter of used bytes is right, the allocations lie apart from each other and from
all headers, and no allowed call stops the kernel.
-/

set_option autoImplicit false

namespace EfesOS.Memory.KernelHeap

open EfesOS.Foundation.Registers

variable {heap other : Heap} {block : Block} {blocks before after : List Block}

/-! ### The first page -/

/-- The heap before `heap_init`; what is in memory does not matter. -/
structure Heap.Cold (heap : Heap) : Prop where
  firstBlock : heap.firstBlock = 0
  mappedBytes : heap.mappedBytes = 0
  usedBytes : heap.usedBytes = 0
  initialized : heap.initialized = false

/-- The block that fills the first page. -/
def firstPage : Block := .empty (pageSize - headerSize) (by decide)

section Calls

variable {σ : Type} (pages : Pages σ)

theorem addPages_cold (h : heap.Cold) :
    ∃ other, addPages 0 pageSize heap = .ok other ∧ Represents other [firstPage] ∧
      other.usedBytes = 0 := by
  have hpage : pageSize ≤ heapMaxSize := by decide
  have hempty : firstPage.free := rfl
  have hmapped : heap.mappedBytes + pageSize = pageSize := by rw [h.mappedBytes, Nat.zero_add]
  have hresult : addPages 0 pageSize heap = .ok ((newFreeBlock heapStart firstPage.capacity 0 0
      { heap with mappedBytes := pageSize, firstBlock := heapStart }).refreshBlockCookie
        heapStart) := by
    unfold addPages
    rw [if_pos h.firstBlock, hmapped]
    rfl
  exact ⟨_, hresult, ⟨⟨⟨.of_free hempty (headed_newFreeBlock _ _ _ _ hempty).refresh, trivial⟩,
    le_rfl, hpage⟩, rfl, rfl, List.cons_ne_nil _ _⟩, h.usedBytes⟩

variable {state : σ}

/-- After a successful `heap_init` one free block fills the heap. -/
theorem Heap.Cold.heapInit {state' : σ} (h : heap.Cold)
    (hinit : heapInit pages heap state = .ok (true, other, state')) :
    Represents other [firstPage] ∧ other.initialized = true ∧ other.usedBytes = 0 := by
  have hlimit : ¬ (pageSize = 0 ∨ heapMaxSize - heap.mappedBytes < pageSize) := by
    rw [h.mappedBytes]
    decide
  have hpages :
      ¬ heapMaxSize - heap.mappedBytes < (pageSize + pageSize - 1) / pageSize * pageSize := by
    rw [h.mappedBytes]
    decide
  have hcount : (pageSize + pageSize - 1) / pageSize * pageSize = pageSize := by decide
  unfold KernelHeap.heapInit at hinit
  rw [if_neg (by rw [h.initialized]; decide)] at hinit
  unfold KernelHeap.expandHeap at hinit
  rw [if_neg hlimit, if_neg hpages, hcount] at hinit
  generalize mapPages pages heap.mappedBytes _ 0 heap.memory state = mapped at hinit
  obtain ⟨success, memory, state''⟩ := mapped
  cases success with
  | false => cases hinit
  | true =>
    have hcold : ({ heap with memory := memory } : Heap).Cold :=
      ⟨h.firstBlock, h.mappedBytes, h.usedBytes, h.initialized⟩
    obtain ⟨made, hmade, hrepresents, hused⟩ := addPages_cold hcold
    change Except.bind
      (Except.bind (addPages heap.mappedBytes pageSize { heap with memory := memory })
      _) _ = _ at hinit
    rw [h.mappedBytes] at hmade hinit
    rw [hmade] at hinit
    cases hinit
    exact ⟨⟨⟨hrepresents.laid.linked.congr fun _ _ ↦ rfl, hrepresents.laid.within,
      hrepresents.laid.bounded⟩, hrepresents.first, hrepresents.tiled, hrepresents.nonempty⟩,
      Bool.or_true _, hused⟩

/-! ### Runs -/

/-- The heap, the page platform, and what the clients hold: where each allocation begins, and its
size. -/
structure System (σ : Type) where
  heap : Heap
  state : σ
  live : List (ℕ × ℕ)

/-- What can happen to the heap. -/
inductive Call (σ : Type) where
  | kmalloc (size : ℕ)
  | kcalloc (count size : ℕ)
  | kfree (pointer : ℕ)
  /-- A client writes a byte. -/
  | store (place : ℕ) (value : UInt8)
  /-- The rest of the kernel uses the page platform. -/
  | elsewhere (state : σ)

/-- A client frees what it holds, or the null pointer, and writes inside what it holds. -/
def Call.Allowed (system : System σ) : Call σ → Prop
  | .kfree pointer => pointer = 0 ∨ ∃ size, (pointer, size) ∈ system.live
  | .store place _ => ∃ allocation ∈ system.live,
      allocation.1 ≤ place ∧ place < allocation.1 + allocation.2
  | _ => True

/-- The clients hold what an allocation returned. -/
def System.hold (size : ℕ) (system : System σ) : ℕ × Heap × σ → System σ
  | (pointer, heap, state) =>
    { heap, state, live := if pointer = 0 then system.live else (pointer, size) :: system.live }

def Call.run (system : System σ) : Call σ → Except Stop (System σ)
  | .kmalloc size => (KernelHeap.kmalloc pages size system.heap system.state).map (system.hold size)
  | .kcalloc count size =>
    (KernelHeap.kcalloc pages count size system.heap system.state).map (system.hold (count * size))
  | .kfree pointer => (KernelHeap.kfree pointer system.heap).map fun heap ↦
      { system with heap, live := system.live.filter fun allocation ↦ allocation.1 ≠ pointer }
  | .store place value => .ok
      { system with
        heap := { system.heap with memory := Function.update system.heap.memory place value } }
  | .elsewhere state => .ok { system with state }

/-- The states of the runs from a system on. -/
inductive Reached (start : System σ) : System σ → Prop where
  | start : Reached start start
  | step {system next : System σ} (hrun : Reached start system) (call : Call σ)
      (hallowed : call.Allowed system) (hnext : call.run pages system = .ok next) :
      Reached start next

/-! ### The invariant -/

/-- The row of blocks, the counter and what the clients hold agree. -/
structure Intact (system : System σ) (blocks : List Block) : Prop where
  represents : Represents system.heap blocks
  ready : system.heap.initialized = true
  settled : Settled blocks
  used : system.heap.usedBytes = requestedBytes blocks
  live : system.live.Perm (allocations heapStart blocks)

variable {system : System σ}

variable {start : ℕ} {allocation : ℕ × ℕ}

theorem owned_iff {place : ℕ} : Owned start blocks place ↔
    ∃ before block after, blocks = before ++ block :: after ∧
      block.Owns (start + total before) place := by
  induction blocks generalizing start with
  | nil => simp [Owned]
  | cons first rest ih =>
    rw [Owned, ih, exists_split_cons]
    simp only [total_cons, total_nil, Nat.add_zero, Nat.add_assoc]

/-- A store inside an allocation changes nothing of the heap. -/
theorem not_owned_of_mem_allocations {place : ℕ} (h : allocation ∈ allocations start blocks)
    (hle : allocation.1 ≤ place) (hlt : place < allocation.1 + allocation.2) :
    ¬ Owned start blocks place := by
  intro howned
  obtain ⟨before, block, after, rfl, hused, rfl⟩ := mem_allocations.1 h
  obtain ⟨before', block', after', hrow, howns⟩ := owned_iff.1 howned
  have hspan : block.span = headerSize + block.capacity := rfl
  have hfits := block.fits (Nat.pos_of_ne_zero hused)
  have hbounds := howns.bounds
  rcases split_cases hrow with ⟨rfl, rfl⟩ | hbefore | hafter
  · rcases howns with hheader | ⟨-, hcanary⟩ <;> omega
  · omega
  · omega

section

variable (h : Intact system blocks)
include h

/-- What the clients hold after a free block was taken. -/
theorem Intact.hold {between row : List Block} {size pointer : ℕ}
    (hrow : between = before ++ block :: after)
    (hbetween : between = blocks ∨ ∃ minimum, Grows blocks between minimum) (hfree : block.free)
    (hpos : 0 < size) (hplaced : Placed block size row)
    (hrepresents : Represents other (before ++ (row ++ after))) (hready : other.initialized = true)
    (hused : other.usedBytes = system.heap.usedBytes + size)
    (hpointer : pointer = heapStart + total before + headerSize) :
    Intact (system.hold size (pointer, other, state)) (before ++ (row ++ after)) := by
  have hsettled : Settled between ∧ requestedBytes between = requestedBytes blocks ∧
      allocations heapStart between = allocations heapStart blocks := by
    rcases hbetween with rfl | ⟨minimum, hgrows⟩
    · exact ⟨h.settled, rfl, rfl⟩
    · exact ⟨hgrows.settled h.settled, hgrows.requested, hgrows.allocated⟩
  obtain ⟨hsettled, hrequested, hallocated⟩ := hsettled
  have hfreeZero : block.requested = 0 := hfree
  rw [hrow] at hsettled hrequested hallocated
  have hpointerPos : pointer ≠ 0 := by
    have hpos := heapStart_facts.2.1
    omega
  refine ⟨hrepresents, hready, hplaced.settled hpos hfree hsettled, ?_, ?_⟩
  · change other.usedBytes = _
    rw [hused, h.used, ← hrequested]
    simp only [requestedBytes_append, requestedBytes_cons, hplaced.requested_eq, hfreeZero]
    omega
  · change (if pointer = 0 then system.live else (pointer, size) :: system.live).Perm _
    rw [if_neg hpointerPos, allocations_append, allocations_append, hplaced.allocations_eq hpos,
      hplaced.total_eq, hpointer]
    rw [allocations_append, allocations, if_pos hfree, List.nil_append] at hallocated
    refine List.Perm.trans ?_ List.perm_middle.symm
    exact (h.live.trans (.of_eq hallocated.symm)).cons _

/-- A refused allocation leaves the row as it was. -/
theorem Intact.refused {size : ℕ} (honly : OnlyMemory system.heap other)
    (hsame : ∀ place, place < system.heap.heapEnd → other.memory place = system.heap.memory place) :
    Intact (system.hold size (0, other, state)) blocks := by
  have hother : Represents other blocks := by
    rw [honly]
    refine h.represents.congr fun place hplace ↦ hsame place ?_
    unfold Heap.heapEnd
    rw [← h.represents.tiled]
    exact hplace.bounds.2
  exact ⟨hother, honly.initialized_eq.trans h.ready, h.settled, honly.usedBytes_eq.trans h.used,
    h.live⟩

/-- The outcome of `kmalloc`. -/
theorem Intact.kmalloc (size : ℕ) :
    ∃ result row, KernelHeap.kmalloc pages size system.heap system.state = .ok result ∧
      Intact (system.hold size result) row ∧
      (result.1 ≠ 0 → (result.1, size) ∈ allocations heapStart row) := by
  obtain ⟨pointer, heap, state, hresult, hready, hrefused | hplaced⟩ :=
    h.represents.kmalloc pages h.ready size system.state
  · obtain ⟨rfl, -, honly, hsame⟩ := hrefused
    exact ⟨_, blocks, hresult, h.refused honly hsame, fun hzero ↦ absurd rfl hzero⟩
  · obtain ⟨hpos, between, before, block, after, row, hrow, hbetween, hfree, hplaced, hrepresents,
      hpointer, hused⟩ := hplaced
    refine ⟨_, _, hresult,
      h.hold hrow hbetween hfree hpos hplaced hrepresents hready hused hpointer,
      fun _ ↦ ?_⟩
    rw [allocations_append, allocations_append, hplaced.allocations_eq hpos, hpointer]
    exact List.mem_append_right _ (List.mem_append_left _ (List.mem_singleton_self _))

/-- A change inside an allocation is no change of the heap. -/
theorem Intact.write {memory : Bytes}
    (hsame : ∀ place, memory place ≠ system.heap.memory place →
      ∃ allocation ∈ allocations heapStart blocks, allocation.1 ≤ place ∧
      place < allocation.1 + allocation.2) :
    Intact { system with heap := { system.heap with memory := memory } } blocks := by
  refine ⟨h.represents.congr fun place hplace ↦ ?_, h.ready, h.settled, h.used, h.live⟩
  by_contra hchanged
  obtain ⟨allocation, hmem, hle, hlt⟩ := hsame place hchanged
  exact not_owned_of_mem_allocations hmem hle hlt hplace

theorem Intact.kcalloc (count size : ℕ) :
    ∃ result row, KernelHeap.kcalloc pages count size system.heap system.state = .ok result ∧
      Intact (system.hold (count * size) result) row := by
  unfold KernelHeap.kcalloc
  split_ifs with hoverflow
  · exact ⟨_, blocks, rfl, h.refused rfl fun _ _ ↦ rfl⟩
  · obtain ⟨⟨pointer, heap, state⟩, row, hresult, hintact, hmem⟩ := h.kmalloc pages (count * size)
    rw [hresult]
    by_cases hzero : pointer = 0
    · subst hzero
      exact ⟨_, row, rfl, hintact⟩
    · refine ⟨_, row, if_neg hzero, ?_⟩
      refine hintact.write fun place hchanged ↦ ⟨_, hmem hzero, ?_⟩
      by_contra houtside
      exact hchanged (if_neg houtside)

/-- A client frees an allocation that it holds. -/
theorem Intact.kfree (hmem : allocation ∈ system.live) :
    ∃ heap row, KernelHeap.kfree allocation.1 system.heap = .ok heap ∧
      Intact { system with
        heap, live := system.live.filter fun other ↦ other.1 ≠ allocation.1 } row := by
  obtain ⟨before, block, after, rfl, hused, rfl⟩ := mem_allocations.1 ((h.live.mem_iff).1 hmem)
  obtain ⟨heap, row, hfree, hrepresents, hcoalesced, husedBytes, hready⟩ :=
    h.represents.kfree h.settled hused
  refine ⟨heap, row, hfree, hrepresents, hready.trans h.ready, hcoalesced.settled h.settled, ?_, ?_⟩
  · have hrequested := hcoalesced.requested_eq
    rw [husedBytes, h.used]
    omega
  · have hheader : headerSize = 32 := rfl
    have hspan : block.span = 32 + block.capacity := rfl
    have hfront : (allocations heapStart before).filter (fun other ↦
        other.1 ≠ heapStart + total before + headerSize) = allocations heapStart before :=
      List.filter_eq_self.2 fun other hother ↦ by
        have hbounds := bounds_of_mem_allocations hother
        exact decide_eq_true (by omega)
    have hback : (allocations (heapStart + total before + block.span) after).filter (fun other ↦
        other.1 ≠ heapStart + total before + headerSize) =
          allocations (heapStart + total before + block.span) after :=
      List.filter_eq_self.2 fun other hother ↦ by
        have hbounds := bounds_of_mem_allocations hother
        exact decide_eq_true (by omega)
    rw [hcoalesced.allocations_eq]
    refine (h.live.filter _).trans (.of_eq ?_)
    rw [allocations_append, allocations, if_neg hused, List.filter_append,
      List.filter_append, hfront,
      hback, List.filter_cons_of_neg (by simp), List.filter_nil,
      List.nil_append]

/-- Every allowed call returns, and the heap is intact afterwards. -/
theorem Intact.run (call : Call σ) (hallowed : call.Allowed system) :
    ∃ next row, call.run pages system = .ok next ∧ Intact next row := by
  cases call with
  | kmalloc size =>
    obtain ⟨result, row, hresult, hintact, -⟩ := h.kmalloc pages size
    exact ⟨_, row, by rw [Call.run, hresult]; rfl, hintact⟩
  | kcalloc count size =>
    obtain ⟨result, row, hresult, hintact⟩ := h.kcalloc pages count size
    exact ⟨_, row, by rw [Call.run, hresult]; rfl, hintact⟩
  | kfree pointer =>
    rcases hallowed with rfl | ⟨size, hmem⟩
    · refine ⟨_, blocks, rfl, ⟨h.represents, h.ready, h.settled, h.used, ?_⟩⟩
      refine List.Perm.trans (.of_eq (List.filter_eq_self.2 fun allocation hmem ↦ ?_)) h.live
      have hbounds := bounds_of_mem_allocations (h.live.mem_iff.1 hmem)
      have hpos := heapStart_facts.2.1
      exact decide_eq_true (by omega)
    · obtain ⟨heap, row, hfree, hintact⟩ := h.kfree hmem
      exact ⟨_, row, by rw [Call.run, hfree]; rfl, hintact⟩
  | store place value =>
    obtain ⟨allocation, hmem, hle, hlt⟩ := hallowed
    refine ⟨_, blocks, rfl, h.write fun other hchanged ↦ ⟨allocation, h.live.mem_iff.1 hmem, ?_⟩⟩
    have hplace : other = place := by
      by_contra hne
      exact hchanged (Function.update_of_ne hne _ _)
    rw [hplace]
    exact ⟨hle, hlt⟩
  | elsewhere state => exact ⟨_, blocks, rfl, h.represents, h.ready, h.settled, h.used, h.live⟩

end

/-! ### What an intact heap is -/

/-- The addresses of the blocks of a row. -/
def addresses : ℕ → List Block → List ℕ
  | _, [] => []
  | start, block :: rest => start :: addresses (start + block.span) rest

theorem mem_addresses {address : ℕ} :
    address ∈ addresses start blocks ↔
      ∃ before block after, blocks = before ++ block :: after ∧ address = start + total before := by
  induction blocks generalizing start with
  | nil => simp [addresses]
  | cons first rest ih =>
    rw [addresses, List.mem_cons, ih, exists_split_cons]
    simp only [total_cons, total_nil, Nat.add_zero, Nat.add_assoc]

/-- Two allocations with their canaries do not overlap. -/
def Apart (first second : ℕ × ℕ) : Prop :=
  first.1 + first.2 + canarySize ≤ second.1 ∨ second.1 + second.2 + canarySize ≤ first.1

theorem pairwise_allocations : (allocations start blocks).Pairwise Apart := by
  induction blocks generalizing start with
  | nil => exact List.Pairwise.nil
  | cons first rest ih =>
    rw [allocations]
    split_ifs with hfree
    · exact ih
    · refine List.Pairwise.cons (fun other hother ↦ .inl ?_) ih
      have hbounds := bounds_of_mem_allocations hother
      have hfits := first.fits (Nat.pos_of_ne_zero hfree)
      have hspan : first.span = headerSize + first.capacity := rfl
      omega

theorem apart_of_mem_addresses {address : ℕ} (h : allocation ∈ allocations start blocks)
    (haddress : address ∈ addresses start blocks) :
    allocation.1 + allocation.2 + canarySize ≤ address ∨ address + headerSize ≤ allocation.1 := by
  obtain ⟨before, block, after, rfl, hused, rfl⟩ := mem_allocations.1 h
  obtain ⟨before', block', after', hrow, rfl⟩ := mem_addresses.1 haddress
  have hspan : block.span = headerSize + block.capacity := rfl
  have hfits := block.fits (Nat.pos_of_ne_zero hused)
  rcases split_cases hrow with ⟨rfl, rfl⟩ | hbefore | hafter <;> omega

/-- A row without allocations is one free block. -/
theorem Settled.eq_singleton (h : Settled blocks) (hne : blocks ≠ [])
    (hnone : allocations heapStart blocks = []) : ∃ block, blocks = [block] ∧ block.free := by
  have hfree : ∀ block ∈ blocks, block.free := by
    intro block hmem
    by_contra hused
    obtain ⟨before, after, rfl⟩ := List.append_of_mem hmem
    have hallocation : (heapStart + total before + headerSize, block.requested) ∈
        allocations heapStart (before ++ block :: after) :=
      mem_allocations.2 ⟨before, block, after, rfl, hused, rfl⟩
    rw [hnone] at hallocation
    exact List.not_mem_nil hallocation
  match blocks, hne with
  | [block], _ => exact ⟨block, rfl, hfree block List.mem_cons_self⟩
  | first :: second :: rest, _ =>
    exact absurd ⟨hfree first List.mem_cons_self,
      hfree second (List.mem_cons_of_mem _ List.mem_cons_self)⟩ (List.isChain_cons_cons.1 h).1

/-- The integrity of the heap. -/
structure Integrity (system : System σ) (blocks : List Block) : Prop where
  /-- The blocks are linked both ways in address order, from the start of the heap on. -/
  linked : system.heap.firstBlock = heapStart ∧ Linked system.heap 0 0 heapStart blocks
  tiled : total blocks = heapMappedBytes system.heap
  /-- Every header is valid, its cookie included. -/
  valid : ∀ address ∈ addresses heapStart blocks, system.heap.blockIsValid address = true
  settled : Settled blocks
  used : heapUsedBytes system.heap = (system.live.map Prod.snd).sum
  /-- Every allocation is aligned, and it lies with its canary in a block of its own. -/
  inside : ∀ allocation ∈ system.live, heapAlignment ∣ allocation.1 ∧
    ∃ before block after, blocks = before ++ block :: after ∧
      allocation.1 = heapStart + total before + headerSize ∧ allocation.2 = block.requested ∧
      allocation.1 + allocation.2 + canarySize ≤ heapStart + total before + block.span ∧
      system.heap.canaryIsValid (heapStart + total before) = true
  headers : ∀ allocation ∈ system.live, ∀ address ∈ addresses heapStart blocks,
    allocation.1 + allocation.2 + canarySize ≤ address ∨ address + headerSize ≤ allocation.1
  apart : system.live.Pairwise Apart
  freed : system.live = [] →
    ∃ block, blocks = [block] ∧ block.free ∧ block.span = heapMappedBytes system.heap

theorem sum_allocations :
    ((allocations start blocks).map Prod.snd).sum = requestedBytes blocks := by
  induction blocks generalizing start with
  | nil => rfl
  | cons first rest ih =>
    rw [allocations, List.map_append, List.sum_append, ih, requestedBytes_cons]
    split_ifs with hfree
    · have hzero : first.requested = 0 := hfree
      rw [hzero]
      rfl
    · rfl

theorem Intact.integrity (h : Intact system blocks) : Integrity system blocks where
  linked := ⟨h.represents.first, h.represents.laid.linked⟩
  tiled := h.represents.tiled
  valid address haddress := by
    obtain ⟨before, block, after, rfl, rfl⟩ := mem_addresses.1 haddress
    exact h.represents.laid.blockIsValid
  settled := h.settled
  used := by
    rw [(h.live.map Prod.snd).sum_eq, sum_allocations]
    exact h.used
  inside allocation hmem := by
    obtain ⟨before, block, after, rfl, hused, rfl⟩ := mem_allocations.1 (h.live.mem_iff.1 hmem)
    have hfits := block.fits (Nat.pos_of_ne_zero hused)
    refine ⟨dvd_add (dvd_add ?_ (dvd_total before)) (by decide), before, block, after, rfl,
      rfl, rfl,
      ?_, h.represents.laid.canaryIsValid hused⟩
    · exact Nat.dvd_of_mod_eq_zero heapStart_facts.1
    · have hspan : block.span = headerSize + block.capacity := rfl
      omega
  headers allocation hmem address haddress :=
    apart_of_mem_addresses (h.live.mem_iff.1 hmem) haddress
  apart := (h.live.pairwise_iff fun hapart ↦ Or.symm hapart).2 pairwise_allocations
  freed hnone := by
    have hlive := h.live
    rw [hnone] at hlive
    obtain ⟨block, rfl, hfree⟩ := h.settled.eq_singleton h.represents.nonempty hlive.nil_eq.symm
    exact ⟨block, rfl, hfree, h.represents.tiled⟩

/-- The heap stays intact along every run. -/
theorem Reached.intact {start : System σ} (hrun : Reached pages start system)
    (hstart : ∃ row, Intact start row) : ∃ row, Intact system row := by
  induction hrun with
  | start => exact hstart
  | step _ call hallowed hnext ih =>
    obtain ⟨row, hintact⟩ := ih
    obtain ⟨next, row', hresult, hintact'⟩ := hintact.run pages call hallowed
    rw [hnext] at hresult
    cases hresult
    exact ⟨row', hintact'⟩

/-- Integrity of the kernel heap: after a successful `heap_init`, in every state of every run, the
heap is what it should be, and every allowed call returns, in particular the freeing of an
allocation. -/
theorem heap_integrity {cold : Heap} {state state' : σ} (hcold : cold.Cold)
    (hinit : heapInit pages cold state = .ok (true, heap, state'))
    (hrun : Reached pages { heap, state := state', live := [] } system) :
    (∃ blocks, Integrity system blocks) ∧
      (∀ call : Call σ, call.Allowed system → ∃ next, call.run pages system = .ok next) ∧
      ∀ allocation ∈ system.live, ∃ freed, kfree allocation.1 system.heap = .ok freed := by
  obtain ⟨hrepresents, hready, hused⟩ := hcold.heapInit pages hinit
  have hstart : Intact { heap, state := state', live := [] } [firstPage] :=
    ⟨hrepresents, hready, List.isChain_singleton _, hused, List.Perm.refl _⟩
  obtain ⟨blocks, hintact⟩ := hrun.intact pages ⟨_, hstart⟩
  refine ⟨⟨blocks, hintact.integrity⟩, fun call hallowed ↦ ?_, fun allocation hmem ↦ ?_⟩
  · obtain ⟨next, -, hnext, -⟩ := hintact.run pages call hallowed
    exact ⟨next, hnext⟩
  · obtain ⟨freed, -, hfreed, -⟩ := hintact.kfree hmem
    exact ⟨freed, hfreed⟩

end Calls

/-- A platform that always has a page. -/
def generousPages : Pages Unit where
  pmmAllocBlock state := (0x00800000, state)
  pmmFreeBlock _ state := state
  pagingMapPage _ _ state := (true, state)
  pagingUnmapPage _ state := (0x00800000, state)

def coldHeap : Heap where
  firstBlock := 0
  mappedBytes := 0
  usedBytes := 0
  initialized := false
  memory _ := 0

theorem heap_integrity_generousPages :
    ∃ heap next, coldHeap.Cold ∧ heapInit generousPages coldHeap () = .ok (true, heap, ()) ∧
      (Call.kmalloc 5000).run generousPages { heap, state := (), live := [] } = .ok next ∧
      ∃ blocks, Integrity next blocks := by
  have hcold : coldHeap.Cold := ⟨rfl, rfl, rfl, rfl⟩
  obtain ⟨heap, hinit⟩ : ∃ heap, heapInit generousPages coldHeap () = .ok (true, heap, ()) :=
    ⟨_, rfl⟩
  obtain ⟨-, hreturns, -⟩ := heap_integrity generousPages hcold hinit .start
  obtain ⟨next, hnext⟩ := hreturns (.kmalloc 5000) trivial
  obtain ⟨hintegrity, -⟩ := heap_integrity generousPages hcold hinit
    (.step .start (.kmalloc 5000) trivial hnext)
  exact ⟨heap, next, hcold, hinit, hnext, hintegrity⟩

end EfesOS.Memory.KernelHeap
