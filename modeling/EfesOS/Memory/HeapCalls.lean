import EfesOS.Memory.HeapOperations

/-!
# The calls of the heap on its row of blocks

`Represents` joins the row of blocks to the static variables: the row begins at the start of the
heap and fills the mapped bytes. On such a heap `expandHeap`, `kmalloc`, `kcalloc` and `kfree`
return (`Represents.expandHeap`, `Represents.kmalloc`, `Represents.kfree`), and the row afterwards
differs from the row before in one place: a free block was taken, an allocated one was joined with
its free neighbours, or the end has moved.
-/

set_option autoImplicit false

namespace EfesOS.Memory.KernelHeap

open EfesOS.Foundation.Registers

variable {heap other : Heap} {start size : ℕ} {block : Block} {blocks before after row : List Block}

/-! ### What a row holds -/

/-- No two neighbouring blocks are both free. -/
def Settled (blocks : List Block) : Prop :=
  blocks.IsChain fun first second ↦ ¬ (first.free ∧ second.free)

def requestedBytes (blocks : List Block) : ℕ := (blocks.map Block.requested).sum

@[simp] theorem requestedBytes_cons (block : Block) (rest : List Block) :
    requestedBytes (block :: rest) = block.requested + requestedBytes rest := rfl

@[simp] theorem requestedBytes_append (first second : List Block) :
    requestedBytes (first ++ second) = requestedBytes first + requestedBytes second := by
  unfold requestedBytes
  rw [List.map_append, List.sum_append]

/-- The allocations of a row from an address on: where each begins, and its size. -/
def allocations : ℕ → List Block → List (ℕ × ℕ)
  | _, [] => []
  | start, block :: rest =>
    (if block.free then [] else [(start + headerSize, block.requested)]) ++
      allocations (start + block.span) rest

theorem allocations_append (first second : List Block) :
    allocations start (first ++ second) =
      allocations start first ++ allocations (start + total first) second := by
  induction first generalizing start with
  | nil => rfl
  | cons block rest ih =>
    rw [List.cons_append, allocations, allocations, ih, total_cons, List.append_assoc,
      Nat.add_assoc]

theorem allocations_of_free (h : ∀ block ∈ blocks, block.free) : allocations start blocks = [] := by
  induction blocks generalizing start with
  | nil => rfl
  | cons block rest ih =>
    rw [allocations, if_pos (h block List.mem_cons_self),
      ih fun other hother ↦ h other (List.mem_cons_of_mem _ hother)]
    rfl

theorem requestedBytes_of_free (h : ∀ block ∈ blocks, block.free) : requestedBytes blocks = 0 := by
  induction blocks with
  | nil => rfl
  | cons block rest ih =>
    have hfree : block.requested = 0 := h block List.mem_cons_self
    rw [requestedBytes_cons, hfree, ih fun other hother ↦ h other (List.mem_cons_of_mem _ hother)]

/-- The places in a row are its beginning and those in what follows. -/
theorem exists_split_cons {first : Block} {rest : List Block}
    {property : List Block → Block → Prop} :
    (∃ before block after, first :: rest = before ++ block :: after ∧ property before block) ↔
      property [] first ∨ ∃ before block after, rest = before ++ block :: after ∧
        property (first :: before) block := by
  constructor
  · rintro ⟨_ | ⟨head, before⟩, block, after, hrow, hat⟩
    · obtain ⟨rfl, rfl⟩ := List.cons.inj hrow
      exact .inl hat
    · obtain ⟨rfl, rfl⟩ := List.cons.inj hrow
      exact .inr ⟨before, block, after, rfl, hat⟩
  · rintro (hat | ⟨before, block, after, rfl, hat⟩)
    · exact ⟨[], first, rest, rfl, hat⟩
    · exact ⟨first :: before, block, after, rfl, hat⟩

/-- Two places in a row are the same, or the block in one ends before the other. -/
theorem split_cases {before' after' : List Block} {block' : Block}
    (h : before ++ block :: after = before' ++ block' :: after') :
    (before = before' ∧ block = block') ∨ total before + block.span ≤ total before' ∨
      total before' + block'.span ≤ total before := by
  rcases List.append_eq_append_iff.1 h with ⟨_ | ⟨head, middle⟩, rfl, hrest⟩ |
    ⟨_ | ⟨head, middle⟩, rfl, hrest⟩ <;> obtain ⟨rfl, -⟩ := List.cons.inj hrest
  · exact .inl ⟨(List.append_nil _).symm, rfl⟩
  · refine .inr (.inl ?_)
    rw [total_append, total_cons]
    omega
  · exact .inl ⟨List.append_nil _, rfl⟩
  · refine .inr (.inr ?_)
    rw [total_append, total_cons]
    omega

/-- An allocation of a row belongs to one of its blocks. -/
theorem mem_allocations {allocation : ℕ × ℕ} :
    allocation ∈ allocations start blocks ↔
      ∃ before block after, blocks = before ++ block :: after ∧ ¬ block.free ∧
        allocation = (start + total before + headerSize, block.requested) := by
  induction blocks generalizing start with
  | nil => simp [allocations]
  | cons first rest ih =>
    rw [allocations, List.mem_append, ih, exists_split_cons]
    refine or_congr ?_ ?_
    · split_ifs with hfree <;> simp [hfree]
    · simp only [total_cons, Nat.add_assoc]

/-- An allocation and its canary lie inside the row. -/
theorem bounds_of_mem_allocations {allocation : ℕ × ℕ} (h : allocation ∈ allocations start blocks) :
    start + headerSize ≤ allocation.1 ∧
      allocation.1 + allocation.2 + canarySize ≤ start + total blocks := by
  obtain ⟨before, block, after, rfl, hused, rfl⟩ := mem_allocations.1 h
  have hfits := block.fits (Nat.pos_of_ne_zero hused)
  have hspan : block.span = headerSize + block.capacity := rfl
  rw [total_append, total_cons]
  omega

theorem dvd_total (blocks : List Block) : heapAlignment ∣ total blocks := by
  induction blocks with
  | nil => exact dvd_zero _
  | cons block rest ih =>
    exact dvd_add (dvd_add (by decide) block.aligned) ih

/-! ### The row of a heap -/

/-- The row of blocks fills the mapped bytes of the heap. -/
structure Represents (heap : Heap) (blocks : List Block) : Prop where
  laid : Laid heap blocks
  first : heap.firstBlock = heapStart
  tiled : total blocks = heap.mappedBytes
  nonempty : blocks ≠ []

/-- Another row of the same size takes the place of the row. -/
theorem Represents.of_linked {used : ℕ} (h : Represents heap blocks)
    (honly : OnlyMemory { heap with usedBytes := used } other)
    (hlinked : Linked other 0 0 heapStart row) (htotal : total row = total blocks)
    (hne : row ≠ []) :
    Represents other row := by
  have hmapped : other.mappedBytes = heap.mappedBytes := honly.mappedBytes_eq
  have hfirst : other.firstBlock = heap.firstBlock := honly.firstBlock_eq
  refine ⟨⟨hlinked, ?_, ?_⟩, hfirst.trans h.first, ?_, hne⟩
  · rw [htotal, hmapped]
    exact h.laid.within
  · rw [hmapped]
    exact h.laid.bounded
  · rw [htotal, hmapped, h.tiled]

/-- Memory that does not belong to the heap may change. -/
theorem Represents.congr {memory : Bytes} (h : Represents heap blocks)
    (hsame : ∀ place, Owned heapStart blocks place → memory place = heap.memory place) :
    Represents { heap with memory := memory } blocks where
  laid := ⟨h.laid.linked.congr hsame, h.laid.within, h.laid.bounded⟩
  first := h.first
  tiled := h.tiled
  nonempty := h.nonempty

/-! ### Growing -/

section Growing

variable {σ : Type} (pages : Pages σ)

/-- A row that has grown at its end, by at least some bytes. -/
structure Grows (blocks row : List Block) (minimum : ℕ) : Prop where
  settled : Settled blocks → Settled row
  requested : requestedBytes row = requestedBytes blocks
  allocated : allocations heapStart row = allocations heapStart blocks
  room : ∃ last ∈ row, last.free ∧ minimum ≤ last.span

theorem Settled.behind (h : Settled (before ++ block :: after)) (hfree : block.free) :
    ∀ next ∈ after.head?, ¬ next.free := by
  intro next hnext hnextFree
  have hright := (List.isChain_append.1 h).2.1
  cases after with
  | nil => cases hnext
  | cons first rest =>
    cases hnext
    exact (List.isChain_cons_cons.1 hright).1 ⟨hfree, hnextFree⟩

theorem total_growEnd {added : ℕ} (haligned : heapAlignment ∣ added)
    (hrest : heapAlignment ∣ added - headerSize) (hroom : headerSize ≤ added) :
    total (growEnd block added haligned hrest) = block.span + added := by
  unfold growEnd
  split_ifs
  · change headerSize + (block.capacity + added) + 0 = headerSize + block.capacity + added
    omega
  · change block.span + (headerSize + (added - headerSize) + 0) = block.span + added
    omega

/-- The end of the row is a free block that is large enough. -/
theorem grows_growEnd {added minimum : ℕ} (haligned : heapAlignment ∣ added)
    (hrest : heapAlignment ∣ added - headerSize) (hminimum : minimum ≤ added)
    (hroom : headerSize ≤ added) :
    Grows (before ++ [block]) (before ++ growEnd block added haligned hrest) minimum := by
  unfold growEnd
  split_ifs with hfree
  · have hgrown : (block.grown added haligned).free := hfree
    refine ⟨fun hsettled ↦ ?_, ?_, ?_, _,
      List.mem_append_right _ (List.mem_singleton_self _), hgrown,
      ?_⟩
    · obtain ⟨hleft, -, hseam⟩ := List.isChain_append.1 hsettled
      refine List.isChain_append.2
        ⟨hleft, List.isChain_singleton _, fun first hfirst last hlast ↦ ?_⟩
      cases hlast
      exact fun hboth ↦ hseam first hfirst block rfl ⟨hboth.1, hfree⟩
    · rw [requestedBytes_append, requestedBytes_append]
      rfl
    · rw [allocations_append, allocations_append, allocations, allocations, allocations,
        allocations,
        if_pos hgrown, if_pos hfree]
    · change minimum ≤ headerSize + (block.capacity + added)
      omega
  · have hnew : (Block.empty (added - headerSize) hrest).free := rfl
    refine ⟨fun hsettled ↦ ?_, ?_, ?_, Block.empty (added - headerSize) hrest,
      List.mem_append_right _ (List.mem_cons_of_mem _ (List.mem_singleton_self _)), hnew, ?_⟩
    · obtain ⟨hleft, -, hseam⟩ := List.isChain_append.1 hsettled
      refine List.isChain_append.2 ⟨hleft, List.isChain_cons_cons.2 ⟨fun hboth ↦ hfree hboth.1,
        List.isChain_singleton _⟩, fun first hfirst last hlast ↦ ?_⟩
      exact hseam first hfirst last hlast
    · rw [requestedBytes_append, requestedBytes_append]
      rfl
    · rw [allocations_append, allocations_append, allocations, allocations, allocations,
        allocations,
        if_pos hnew, List.append_nil]
      rfl
    · change minimum ≤ headerSize + (added - headerSize)
      omega

theorem le_added {minimum added : ℕ} (hpos : 0 < minimum)
    (hadded : (minimum + pageSize - 1) / pageSize * pageSize = added) :
    minimum ≤ added ∧ headerSize ≤ added := by
  change (minimum + 4096 - 1) / 4096 * 4096 = added at hadded
  change minimum ≤ added ∧ 32 ≤ added
  omega

/-- Growing the heap fails and leaves it as it was, or makes its row longer. -/
theorem Represents.expandHeap (h : Represents heap blocks) (minimum : ℕ) (state : σ) :
    ∃ success grown state', expandHeap pages minimum heap state = .ok (success, grown, state') ∧
      grown.initialized = heap.initialized ∧ grown.usedBytes = heap.usedBytes ∧
      (success = false → OnlyMemory heap grown ∧
        ∀ place, place < heap.heapEnd → grown.memory place = heap.memory place) ∧
      (success = true → ∃ row, Represents grown row ∧ Grows blocks row minimum) := by
  obtain ⟨before, last, rfl⟩ : ∃ before last, blocks = before ++ [last] :=
    ⟨_, _, (List.dropLast_append_getLast h.nonempty).symm⟩
  unfold KernelHeap.expandHeap
  dsimp only
  split_ifs with hlimit hpages
  · exact ⟨false, heap, state, rfl, rfl, rfl, fun _ ↦ ⟨rfl, fun _ _ ↦ rfl⟩,
      fun hsuccess ↦ Bool.noConfusion hsuccess⟩
  · exact ⟨false, heap, state, rfl, rfl, rfl, fun _ ↦ ⟨rfl, fun _ _ ↦ rfl⟩,
      fun hsuccess ↦ Bool.noConfusion hsuccess⟩
  · have hsame : ∀ place, place < heapStart + heap.mappedBytes →
        (mapPages pages heap.mappedBytes ((minimum + pageSize - 1) / pageSize) 0 heap.memory
          state).2.1 place = heap.memory place := fun place hplace ↦ memory_mapPages pages hplace
    generalize mapPages pages heap.mappedBytes ((minimum + pageSize - 1) / pageSize) 0 heap.memory
      state = mapped at hsame
    obtain ⟨success, memory, state'⟩ := mapped
    cases success with
    | false =>
      exact ⟨false, _, state', rfl, rfl, rfl, fun _ ↦ ⟨rfl, hsame⟩,
        fun hsuccess ↦ Bool.noConfusion hsuccess⟩
    | true =>
      have haligned : heapAlignment ∣ (minimum + pageSize - 1) / pageSize * pageSize :=
        dvd_mul_of_dvd_right (by decide) _
      generalize hadded : (minimum + pageSize - 1) / pageSize * pageSize = added at *
      have hroom := le_added (Nat.pos_of_ne_zero fun hzero ↦ hlimit (.inl hzero)) hadded
      have hrest : heapAlignment ∣ added - headerSize := Nat.dvd_sub haligned (by decide)
      have hheap : Represents { heap with memory := memory } (before ++ [last]) :=
        h.congr fun place hplace ↦ hsame place (h.tiled ▸ hplace.bounds.2)
      have hbounded : heap.mappedBytes + added ≤ heapMaxSize := by
        omega
      obtain ⟨other, hadd, honly, hlinked⟩ :=
        hheap.laid.addPages haligned hrest hheap.tiled hbounded hheap.first
      have hgrows :
          Grows (before ++ [last]) (before ++ growEnd last added haligned hrest) minimum :=
        grows_growEnd haligned hrest hroom.1 hroom.2
      refine ⟨true, other, state', ?_, honly.initialized_eq, honly.usedBytes_eq,
        fun hfailed ↦ Bool.noConfusion hfailed, fun _ ↦ ⟨_, ?_, hgrows⟩⟩
      · change (KernelHeap.addPages heap.mappedBytes added { heap with memory := memory } >>= _) = _
        rw [hadd]
        rfl
      · have htotal : total (before ++ growEnd last added haligned hrest) = other.mappedBytes := by
          have htiled := h.tiled
          rw [total_append, total_cons, total_nil] at htiled
          rw [total_append, total_growEnd haligned hrest hroom.2, honly.mappedBytes_eq]
          change _ = heap.mappedBytes + added
          omega
        refine ⟨⟨hlinked, htotal.le, honly.mappedBytes_eq.trans_le hbounded⟩,
          honly.firstBlock_eq.trans h.first, htotal, List.append_ne_nil_of_right_ne_nil _ ?_⟩
        unfold growEnd
        split_ifs <;> exact List.cons_ne_nil _ _

end Growing

/-! ### Allocating -/

/-- What stands in the place of a free block that was taken: the allocation, and what is left. -/
structure Placed (block : Block) (size : ℕ) (row : List Block) : Prop where
  total_eq : total row = block.span
  taken : ∃ first rest, row = first :: rest ∧ first.requested = size ∧
    (∀ other ∈ rest, other.free) ∧
    rest.length ≤ 1

section

variable (h : Placed block size row)
include h

theorem Placed.requested_eq : requestedBytes row = size := by
  obtain ⟨first, rest, rfl, hfirst, hrest, -⟩ := h.taken
  rw [requestedBytes_cons, hfirst, requestedBytes_of_free hrest, Nat.add_zero]

theorem Placed.allocations_eq (hpos : 0 < size) :
    allocations start row = [(start + headerSize, size)] := by
  obtain ⟨first, rest, rfl, hfirst, hrest, -⟩ := h.taken
  have hused : ¬ first.free := fun hfree ↦ hpos.ne' (hfirst ▸ hfree)
  rw [allocations, if_neg hused, allocations_of_free hrest, hfirst]
  rfl

/-- Taking a free block keeps free blocks apart. -/
theorem Placed.settled (hpos : 0 < size) (hfree : block.free)
    (hsettled : Settled (before ++ block :: after)) : Settled (before ++ (row ++ after)) := by
  obtain ⟨first, rest, rfl, hfirst, hrest, hlength⟩ := h.taken
  have hused : ¬ first.free := fun hfirstFree ↦ hpos.ne' (hfirst ▸ hfirstFree)
  have hbehind := hsettled.behind hfree
  obtain ⟨hleft, hright, -⟩ := List.isChain_append.1 hsettled
  have hafter : Settled after := List.IsChain.of_cons hright
  refine List.isChain_append.2 ⟨hleft, ?_, fun last _ next hnext hboth ↦ ?_⟩
  · match rest, hlength with
    | [], _ =>
      refine List.isChain_append.2
        ⟨List.isChain_singleton _, hafter, fun last hlast next _ hboth ↦ ?_⟩
      cases hlast
      exact hused hboth.1
    | [remaining], _ =>
      refine List.isChain_append.2 ⟨List.isChain_cons_cons.2 ⟨fun hboth ↦ hused hboth.1,
        List.isChain_singleton _⟩, hafter, fun last _ next hnext hboth ↦ ?_⟩
      exact hbehind next hnext hboth.2
  · cases hnext
    exact hused hboth.2

theorem Placed.total_row :
    total (before ++ (row ++ after)) = total (before ++ block :: after) := by
  rw [total_append, total_append, total_append, total_cons, h.total_eq]

end

theorem alignUp_spec (value : ℕ) :
    value ≤ alignUp value ∧ alignUp value < value + heapAlignment ∧
      heapAlignment ∣ alignUp value := by
  have halignUp : alignUp value = (value + 16 - 1) / 16 * 16 := rfl
  have halignment : heapAlignment = 16 := rfl
  exact ⟨by omega, by omega, Dvd.intro_left _ rfl⟩

/-- A free block that is large enough is cut to size and taken. -/
theorem Represents.place {required : ℕ} (h : Represents heap (before ++ block :: after))
    (hfree : block.free) (hpos : 0 < size) (haligned : heapAlignment ∣ required)
    (hsize : size + canarySize ≤ required) (hfits : required ≤ block.capacity)
    (hother : other = takeBlock (heapStart + total before) size
      (splitBlock (heapStart + total before) required heap)) :
    ∃ row, Represents other (before ++ (row ++ after)) ∧ other.usedBytes = heap.usedBytes + size ∧
      other.initialized = heap.initialized ∧ Placed block size row := by
  by_cases hwide : block.capacity < required + headerSize + heapAlignment
  · have hsplit : splitBlock (heapStart + total before) required heap = heap :=
      if_pos (by rw [h.laid.capacity_eq]; exact hwide)
    rw [hsplit] at hother
    obtain ⟨honly, hlinked⟩ := h.laid.takeBlock hfree hpos (hsize.trans hfits)
    rw [← hother] at honly hlinked
    have hplaced : Placed block size [block.taken size (hsize.trans hfits)] :=
      ⟨rfl, _, [], rfl, rfl, fun other hother ↦ absurd hother List.not_mem_nil, Nat.zero_le _⟩
    exact ⟨_, h.of_linked honly hlinked hplaced.total_row
      (List.append_ne_nil_of_right_ne_nil _ (List.cons_ne_nil _ _)), honly.usedBytes_eq,
      honly.initialized_eq, hplaced⟩
  · have hrest : heapAlignment ∣ block.capacity - required - headerSize :=
      Nat.dvd_sub (Nat.dvd_sub block.aligned haligned) (by decide)
    have hspan : (Block.empty required haligned).span +
        (Block.empty (block.capacity - required - headerSize) hrest).span = block.span := by
      change headerSize + required + (headerSize + (block.capacity - required - headerSize)) =
        headerSize + block.capacity
      omega
    have hroom :
        heapAlignment ≤ (Block.empty (block.capacity - required - headerSize) hrest).capacity := by
      change heapAlignment ≤ block.capacity - required - headerSize
      omega
    obtain ⟨hsplitOnly, hsplitLinked⟩ := h.laid.splitBlock (.empty required haligned)
      (.empty (block.capacity - required - headerSize) hrest) hfree rfl rfl hroom hspan
    have hsplit : Represents (splitBlock (heapStart + total before) required heap)
        (before ++ Block.empty required haligned ::
          ([Block.empty (block.capacity - required - headerSize) hrest] ++ after)) := by
      refine h.of_linked hsplitOnly hsplitLinked ?_
        (List.append_ne_nil_of_right_ne_nil _ (List.cons_ne_nil _ _))
      rw [total_append, total_append, total_cons, total_cons, total_append, total_cons, total_nil,
        ← hspan]
      omega
    obtain ⟨honly, hlinked⟩ := hsplit.laid.takeBlock rfl hpos hsize
    rw [← hother] at honly hlinked
    have hplaced : Placed block size [(Block.empty required haligned).taken size hsize,
        .empty (block.capacity - required - headerSize) hrest] := by
      refine ⟨?_, _, _, rfl, rfl, fun remaining hremaining ↦ ?_, le_rfl⟩
      · rw [total_cons, total_cons, total_nil, ← hspan]
        rfl
      · rw [List.mem_singleton.1 hremaining]
        rfl
    have htotal := hplaced.total_row.trans
      (h.tiled.trans (hsplitOnly.mappedBytes_eq.symm.trans hsplit.tiled.symm))
    refine ⟨_, hsplit.of_linked honly hlinked htotal
      (List.append_ne_nil_of_right_ne_nil _ (List.cons_ne_nil _ _)), ?_, ?_, hplaced⟩
    · rw [honly.usedBytes_eq]
      exact congrArg (· + size) hsplitOnly.usedBytes_eq
    · rw [honly.initialized_eq]
      exact hsplitOnly.initialized_eq

section Calls

variable {σ : Type} (pages : Pages σ)

/-- Why a call of `kmalloc` returns the null pointer. -/
def Refused (size : ℕ) (heap : Heap) (state : σ) (after : Heap × σ) : Prop :=
  ((size = 0 ∨ heapMaxSize - canarySize - heapAlignment < size) ∧ after = (heap, state)) ∨
    expandHeap pages (alignUp (size + canarySize) + headerSize) heap state = .ok (false, after)

/-- `kmalloc` refuses and leaves the heap as it was, or takes a free block, which may only be there
since the heap has grown. -/
theorem Represents.kmalloc (h : Represents heap blocks) (hready : heap.initialized = true)
    (size : ℕ)
    (state : σ) :
    ∃ pointer heap' state', kmalloc pages size heap state = .ok (pointer, heap', state') ∧
      heap'.initialized = true ∧
      ((pointer = 0 ∧ Refused pages size heap state (heap', state') ∧ OnlyMemory heap heap' ∧
          ∀ place, place < heap.heapEnd → heap'.memory place = heap.memory place) ∨
        0 < size ∧ ∃ between before block after row, between = before ++ block :: after ∧
          (between = blocks ∨ ∃ minimum, Grows blocks between minimum) ∧ block.free ∧
          Placed block size row ∧ Represents heap' (before ++ (row ++ after)) ∧
          pointer = heapStart + total before + headerSize ∧
          heap'.usedBytes = heap.usedBytes + size) := by
  have hpos := heapStart_facts.2.1
  obtain ⟨hcovers, hclose, haligned⟩ := alignUp_spec (size + canarySize)
  unfold KernelHeap.kmalloc
  by_cases hrefused : heap.initialized = false ∨ size = 0 ∨
      heapMaxSize - canarySize - heapAlignment < size
  · rw [if_pos hrefused]
    refine ⟨0, heap, state, rfl, hready, .inl ⟨rfl, .inl ⟨?_, rfl⟩, rfl, fun _ _ ↦ rfl⟩⟩
    exact hrefused.resolve_left (by rw [hready]; decide)
  · rw [if_neg hrefused]
    have hsize : 0 < size := Nat.pos_of_ne_zero fun hzero ↦ hrefused (.inr (.inl hzero))
    dsimp only
    rw [h.first]
    rcases h.laid.findFreeBlock h.nonempty (alignUp (size + canarySize)) with ⟨hnone, -⟩ |
      ⟨before, block, after, rfl, hfree, hfits, hfound⟩
    · rw [hnone]
      obtain ⟨success, grown, state', hexpand, hinit, hused, hfailure, hsuccess⟩ :=
        h.expandHeap pages (alignUp (size + canarySize) + headerSize) state
      rw [hexpand]
      cases success with
      | false =>
        obtain ⟨honly, hsame⟩ := hfailure rfl
        exact ⟨0, grown, state', rfl, hinit.trans hready, .inl ⟨rfl, .inr hexpand, honly, hsame⟩⟩
      | true =>
        obtain ⟨between, hbetween, hgrows⟩ := hsuccess rfl
        change ∃ pointer heap' state',
          ((KernelHeap.findFreeBlock grown _ _ grown.firstBlock >>= _) =
          _) ∧ _
        rw [hbetween.first]
        rcases hbetween.laid.findFreeBlock hbetween.nonempty (alignUp (size + canarySize)) with
          ⟨-, hall⟩ | ⟨before, block, after, rfl, hfree, hfits, hfound⟩
        · -- the block at the end is large enough
          obtain ⟨last, hlast, hfree, hroom⟩ := hgrows.room
          have hspan : last.span = headerSize + last.capacity := rfl
          have hsmall := hall last hlast hfree
          omega
        · rw [hfound]
          obtain ⟨row, hrow, hrowUsed, hrowInit, hplaced⟩ :=
            hbetween.place hfree hsize haligned hcovers hfits rfl
          refine ⟨_, _, state', if_neg ?_, hrowInit.trans (hinit.trans hready),
            .inr ⟨hsize, _, before,
            block, after, row, rfl, .inr ⟨_, hgrows⟩, hfree, hplaced, hrow, rfl, ?_⟩⟩
          · omega
          · rw [hrowUsed, hused]
    · rw [hfound]
      obtain ⟨row, hrow, hused, hinit, hplaced⟩ := h.place hfree hsize haligned hcovers hfits rfl
      refine ⟨_, _, state, if_pos ?_, hinit.trans hready, .inr ⟨hsize, _, before, block, after, row,
        rfl, .inl rfl, hfree, hplaced, hrow, rfl, hused⟩⟩
      omega

end Calls

/-! ### Freeing -/

/-- What stands in the place of a block that was returned: it is joined with its free neighbours. -/
structure Coalesced (before : List Block) (block : Block) (after : List Block)
    (row : List Block) : Prop where
  joined : ∃ front left joint right back, before = front ++ left ∧ after = right ++ back ∧
    row = front ++ joint :: back ∧ (∀ other ∈ left, other.free) ∧ (∀ other ∈ right, other.free) ∧
    joint.free ∧ joint.span = total left + block.span + total right ∧
    (∀ last ∈ front.getLast?, ¬ last.free) ∧ ∀ next ∈ back.head?, ¬ next.free

namespace Coalesced

variable (h : Coalesced before block after row)
include h

theorem requested_eq :
    requestedBytes row + block.requested = requestedBytes (before ++ block :: after) := by
  obtain ⟨front, left, joint, right, back, rfl, rfl, rfl, hleft, hright, hjoint, -⟩ := h.joined
  have hjointZero : joint.requested = 0 := hjoint
  simp only [requestedBytes_append, requestedBytes_cons, requestedBytes_of_free hleft,
    requestedBytes_of_free hright, hjointZero]
  omega

theorem allocations_eq :
    allocations heapStart row =
      allocations heapStart before ++
        allocations (heapStart + total before + block.span) after := by
  obtain ⟨front, left, joint, right, back, rfl, rfl, rfl, hleft, hright, hjoint, hspan, -⟩ :=
    h.joined
  rw [allocations_append, allocations_append, allocations_append, allocations_of_free hleft,
    allocations_of_free hright, allocations, if_pos hjoint, hspan, List.append_nil, List.nil_append,
    List.nil_append, total_append]
  congr 2
  omega

theorem settled (hsettled : Settled (before ++ block :: after)) : Settled row := by
  obtain ⟨front, left, joint, right, back, rfl, rfl, rfl, -, -, -, -, hfront, hback⟩ := h.joined
  obtain ⟨hbefore, hrest, -⟩ := List.isChain_append.1 hsettled
  have hafter := List.IsChain.of_cons hrest
  refine List.isChain_append.2 ⟨(List.isChain_append.1 hbefore).1, ?_, fun last hlast _ _ hboth ↦
    hfront last hlast hboth.1⟩
  cases back with
  | nil => exact List.isChain_singleton _
  | cons next rest =>
    exact List.isChain_cons_cons.2 ⟨fun hboth ↦ hback next rfl hboth.2,
      (List.isChain_append.1 hafter).2.1⟩

end Coalesced

/-- A free block takes in the free block behind it. -/
theorem mergeHead_spec (hfree : block.free) (hsettled : Settled after) :
    ∃ joint right back, mergeHead block after = joint :: back ∧ after = right ++ back ∧
      (∀ other ∈ right, other.free) ∧ joint.free ∧ joint.span = block.span + total right ∧
      ∀ next ∈ back.head?, ¬ next.free := by
  have hnone : ∀ other ∈ ([] : List Block), other.free := by simp
  cases after with
  | nil => exact ⟨block, [], [], rfl, rfl, hnone, hfree, rfl, fun _ hnext ↦ by cases hnext⟩
  | cons behind rest =>
    by_cases hbehind : behind.free
    · rw [mergeHead, if_pos hbehind]
      refine ⟨_, [behind], rest, rfl, rfl, fun other hother ↦ ?_, rfl, ?_, ?_⟩
      · rw [List.mem_singleton.1 hother]
        exact hbehind
      · exact block.span_joint behind
      · have hrow : Settled ([] ++ behind :: rest) := hsettled
        exact hrow.behind hbehind
    · rw [mergeHead, if_neg hbehind]
      refine ⟨block, [], behind :: rest, rfl, rfl, hnone, hfree, rfl, fun next hnext ↦ ?_⟩
      cases hnext
      exact hbehind

/-- What `kfree` checks holds of every live allocation. -/
theorem Represents.kfree_begin (h : Represents heap (before ++ block :: after))
    (hused : ¬ block.free) :
    kfree (heapStart + total before + headerSize) heap = (do
      let merged ← mergeWithNext (heapStart + total before)
        (returnBlock (heapStart + total before) heap)
      if merged.previous (heapStart + total before) = 0 then return merged
      else if merged.blockIsValid (merged.previous (heapStart + total before)) = false then
        .error (.panic "Kernel heap previous-block corruption.")
      else if merged.isFree (merged.previous (heapStart + total before)) then
        mergeWithNext (merged.previous (heapStart + total before)) merged
      else return merged) := by
  have hfacts := heapStart_facts
  have hbounds := h.laid.bounds
  have hheader : headerSize = 32 := rfl
  have hcanary : canarySize = 4 := rfl
  have hfits := block.fits (Nat.pos_of_ne_zero hused)
  have hmod : (heapStart + total before + headerSize) % heapAlignment = 0 := by
    have hcount : 16 ∣ total before := dvd_total before
    change (heapStart + total before + 32) % 16 = 0
    omega
  have hblock : heapStart + total before + headerSize - headerSize = heapStart + total before :=
    Nat.add_sub_cancel _ _
  unfold KernelHeap.kfree
  rw [hblock, if_neg (by omega), if_neg (by omega), if_neg]
  rw [h.laid.blockIsValid, h.laid.isFree_eq, h.laid.capacity_eq, h.laid.requested_eq,
    h.laid.canaryIsValid hused, decide_eq_false hused]
  rintro (hcheck | hcheck | hcheck | hcheck | hcheck)
  · cases hcheck
  · cases hcheck
  · omega
  · omega
  · cases hcheck

/-- A live allocation is freed, and its block joined with its free neighbours. -/
theorem Represents.kfree (h : Represents heap (before ++ block :: after))
    (hsettled : Settled (before ++ block :: after)) (hused : ¬ block.free) :
    ∃ other row, kfree (heapStart + total before + headerSize) heap = .ok other ∧
      Represents other row ∧ Coalesced before block after row ∧
      other.usedBytes = heap.usedBytes - block.requested ∧
      other.initialized = heap.initialized := by
  rw [h.kfree_begin hused]
  obtain ⟨hreturnOnly, hreturnLinked⟩ := h.laid.returnBlock
  have hreturn := h.of_linked hreturnOnly hreturnLinked
    (by rw [total_append, total_append]; rfl)
    (List.append_ne_nil_of_right_ne_nil _ (List.cons_ne_nil _ _))
  have hbefore : Settled before := (List.isChain_append.1 hsettled).1
  have hafter : Settled after := List.IsChain.of_cons (List.isChain_append.1 hsettled).2.1
  have hreturned : block.returned.free := rfl
  obtain ⟨merged, hmerge, hmergedOnly, hmergedLinked⟩ := hreturn.laid.mergeWithNext hreturned
  obtain ⟨joint, right, back, hmergeHead, hright, hrightFree, hjoint, hspan, hback⟩ :=
    mergeHead_spec hreturned hafter
  rw [hmergeHead] at hmergedLinked
  have hmerged : Represents merged (before ++ joint :: back) :=
    hreturn.of_linked hmergedOnly hmergedLinked (by
      rw [total_append, total_append, total_cons, total_cons, hright, total_append, hspan,
        Nat.add_assoc]) (List.append_ne_nil_of_right_ne_nil _ (List.cons_ne_nil _ _))
  rw [hmerge]
  change ∃ other row, (if merged.previous _ = 0 then _ else _) = _ ∧ _
  rw [hmerged.laid.previous_eq]
  have hnone : ∀ other ∈ ([] : List Block), other.free := by simp
  have hjointSpan : joint.span = total [] + block.span + total right := by
    rw [hspan, total_nil, Nat.zero_add]
    rfl
  have husedBytes : merged.usedBytes = heap.usedBytes - block.requested :=
    hmergedOnly.usedBytes_eq.trans hreturnOnly.usedBytes_eq
  have hinitialized : merged.initialized = heap.initialized :=
    hmergedOnly.initialized_eq.trans hreturnOnly.initialized_eq
  rcases List.eq_nil_or_concat' before with rfl | ⟨front, previous, rfl⟩
  · exact ⟨merged, _, if_pos rfl, hmerged, ⟨[], [], joint, right, back, rfl, hright, rfl, hnone,
      hrightFree, hjoint, hjointSpan, fun _ hlast ↦ absurd hlast (Option.not_mem_none _), hback⟩,
      husedBytes, hinitialized⟩
  · have hlaid : Represents merged (front ++ previous :: joint :: back) := by
      rw [List.append_cons]
      exact hmerged
    have hpos := heapStart_facts.2.1
    rw [exit_concat, if_neg (by omega), hlaid.laid.blockIsValid, if_neg (by decide),
      hlaid.laid.isFree_eq]
    by_cases hfree : previous.free
    · rw [if_pos (decide_eq_true hfree)]
      obtain ⟨other, hother, hotherOnly, hotherLinked⟩ := hlaid.laid.mergeWithNext hfree
      rw [mergeHead, if_pos hjoint] at hotherLinked
      refine ⟨other, _, hother, hlaid.of_linked hotherOnly hotherLinked ?_
        (List.append_ne_nil_of_right_ne_nil _ (List.cons_ne_nil _ _)),
        ⟨front, [previous], _, right, back, rfl, hright, rfl, fun other hother ↦ ?_,
          hrightFree, rfl,
          ?_, ?_, hback⟩, hotherOnly.usedBytes_eq.trans husedBytes,
        hotherOnly.initialized_eq.trans hinitialized⟩
      · simp only [total_append, total_cons, Block.span_joint, Nat.add_assoc]
      · rw [List.mem_singleton.1 hother]
        exact hfree
      · rw [Block.span_joint, hjointSpan, total_cons, total_nil]
        omega
      · intro last hlast hlastFree
        exact (List.isChain_append.1 hbefore).2.2 last hlast previous rfl ⟨hlastFree, hfree⟩
    · rw [if_neg (by rw [decide_eq_false hfree]; decide)]
      refine ⟨merged, _, rfl, hmerged, ⟨front ++ [previous], [], joint, right, back,
        (List.append_nil _).symm, hright, rfl, hnone, hrightFree, hjoint, hjointSpan, ?_, hback⟩,
        husedBytes, hinitialized⟩
      intro last hlast
      rw [List.getLast?_concat] at hlast
      cases hlast
      exact hfree

end EfesOS.Memory.KernelHeap
