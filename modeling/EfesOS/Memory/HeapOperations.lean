import EfesOS.Memory.HeapBlocks

/-!
# The operations of the heap on its row of blocks

Each theorem takes a heap whose memory holds a row of blocks and says which row it holds after one
of the functions of `src/memory/heap.c`. The functions that walk or check never stop the kernel on
such a heap.
-/

set_option autoImplicit false

namespace EfesOS.Memory.KernelHeap

open EfesOS.Foundation.Registers

variable {heap other : Heap} {address previous next following place size : ℕ} {block : Block}
  {blocks before after : List Block}

/-! ### Headers before their cookie is written -/

/-- A header that is complete but for its cookie. -/
def Headed (heap : Heap) (address : ℕ) (block : Block) (previous next : ℕ) : Prop :=
  ∀ name, name ≠ .cookie → heap.read address name = block.header address previous next name

section

variable (h : Headed heap address block previous next)
include h

theorem Headed.refresh (name : Field) :
    (heap.refreshBlockCookie address).read address name =
      block.header address previous next name := by
  unfold Heap.refreshBlockCookie
  by_cases hname : name = .cookie
  · rw [hname, Heap.read_write_same, Heap.blockCookie, h _ (by decide), h _ (by decide)]
    rfl
  · rw [Heap.read_write_of_ne hname]
    exact h name hname

/-- A header of another size. -/
theorem Headed.widen {block' : Block} (hrequested : block'.requested = block.requested) :
    Headed (heap.write address .capacity (UInt32.ofNat block'.capacity)) address block' previous
      next := by
  intro name hname
  have hfree : block'.free ↔ block.free := by
    unfold Block.free
    rw [hrequested]
  rw [Heap.read_write, h name hname]
  cases name <;> simp [Block.header, hfree, hrequested] at hname ⊢

/-- A header with another block behind it. -/
theorem Headed.link (next' : ℕ) :
    Headed (heap.write address .next (UInt32.ofNat next')) address block previous next' := by
  intro name hname
  rw [Heap.read_write, h name hname]
  cases name <;> simp [Block.header] at hname ⊢

/-- A header of the same size, for another request. -/
theorem Headed.mark {block' : Block} (hcapacity : block'.capacity = block.capacity) :
    Headed ((heap.write address .requested (UInt32.ofNat block'.requested)).write address .flags
      (if block'.free then heapBlockFree else 0)) address block' previous next := by
  intro name hname
  rw [Heap.read_write, Heap.read_write, h name hname]
  cases name <;> simp [Block.header, hcapacity] at hname ⊢

end

/-- A free block is stored once its header is. -/
theorem Stored.of_free (hfree : block.free)
    (h : ∀ name, heap.read address name = block.header address previous next name) :
    Stored heap address block previous next :=
  ⟨h, fun hused ↦ absurd hfree hused⟩

theorem headed_newFreeBlock (address previous next : ℕ) (heap : Heap) (hfree : block.free) :
    Headed (newFreeBlock address block.capacity previous next heap) address block previous
      next := by
  intro name hname
  have hrequested : block.requested = 0 := hfree
  simp only [newFreeBlock, Heap.read_write]
  cases name <;> simp [Block.header, hfree, hrequested] at hname ⊢

/-- Only the memory of the heap changes. -/
def OnlyMemory (heap other : Heap) : Prop := other = { heap with memory := other.memory }

section

variable (h : OnlyMemory heap other)
include h

theorem OnlyMemory.trans {third : Heap} (h' : OnlyMemory other third) :
    OnlyMemory heap third := by
  unfold OnlyMemory at *
  rw [h', h]

theorem OnlyMemory.mappedBytes_eq :
    other.mappedBytes = heap.mappedBytes := by
  rw [h]

theorem OnlyMemory.firstBlock_eq :
    other.firstBlock = heap.firstBlock := by
  rw [h]

theorem OnlyMemory.usedBytes_eq : other.usedBytes = heap.usedBytes := by
  rw [h]

theorem OnlyMemory.initialized_eq :
    other.initialized = heap.initialized := by
  rw [h]

end

/-- Only memory between two addresses changes. -/
structure Edits (low high : ℕ) (heap other : Heap) : Prop where
  only : OnlyMemory heap other
  same : SameOutside low high heap other

namespace Edits

variable {low high : ℕ} (h : Edits low high heap other)
include h

theorem trans {third : Heap} (h' : Edits low high other third) : Edits low high heap third :=
  ⟨h.only.trans h'.only, fun place hplace ↦ (h'.same place hplace).trans (h.same place hplace)⟩

theorem mono {low' high' : ℕ} (hlow : low' ≤ low) (hhigh : high ≤ high') :
    Edits low' high' heap other :=
  ⟨h.only, fun place hplace ↦ h.same place (by omega)⟩

variable (hfar : address + headerSize ≤ low ∨ high ≤ address)
include hfar

theorem read_eq (name : Field) : other.read address name = heap.read address name :=
  Heap.read_congr fun place hle hlt ↦ h.same place (by omega)

theorem blockCookie_eq : other.blockCookie address = heap.blockCookie address := by
  unfold Heap.blockCookie
  rw [h.read_eq hfar, h.read_eq hfar]

theorem headed (hheaded : Headed heap address block previous next) :
    Headed other address block previous next :=
  fun name hname ↦ (h.read_eq hfar name).trans (hheaded name hname)

end Edits

theorem edits_write {name : Field} {value : UInt32} :
    Edits address (address + headerSize) heap (heap.write address name value) :=
  ⟨rfl, Heap.sameOutside_write⟩

theorem edits_refresh :
    Edits address (address + headerSize) heap (heap.refreshBlockCookie address) :=
  edits_write

theorem edits_newFreeBlock {capacity : ℕ} :
    Edits address (address + headerSize) heap
      (newFreeBlock address capacity previous next heap) :=
  edits_write.trans <| edits_write.trans <| edits_write.trans <| edits_write.trans <|
    edits_write.trans <| edits_write.trans edits_write

theorem linkNext_of_nil (h : heap.next address = 0) : linkNext address heap = heap := by
  unfold linkNext
  rw [if_pos h]

theorem linkNext_of_cons (h : heap.next address = following) (hpos : following ≠ 0)
    (hfar : address + headerSize ≤ following)
    (hcookie : heap.read following .cookie = heap.blockCookie following) :
    linkNext address heap = heap.write following .previous (UInt32.ofNat address) := by
  have hnext : (heap.write following .previous (UInt32.ofNat address)).next address =
      following := by
    rw [← h]
    unfold Heap.next
    rw [Heap.read_write_far]
    rw [← h] at hfar
    exact .inr hfar
  unfold linkNext
  rw [h, if_neg hpos]
  dsimp only
  rw [hnext]
  refine Heap.refreshBlockCookie_of_valid ?_
  rw [Heap.blockCookie_write_link (by decide), Heap.read_write_of_ne (by decide), hcookie]

section Linking

variable {e : ℕ} (hentry : (UInt32.ofNat (entry 0 e after)).toNat = entry 0 e after)
  (hcookie : after ≠ [] → heap.read e .cookie = heap.blockCookie e)
include hentry hcookie

/-- The blocks behind point back to a block that was edited, and nothing else changes. -/
theorem linkNext_spec {low high : ℕ} (hedits : Edits low high heap other) (hhigh : high ≤ e)
    (hheaded : Headed other address block previous (entry 0 e after))
    (hfar : address + headerSize ≤ e) :
    Edits e (e + headerSize) other (linkNext address other) ∧
      (after ≠ [] → ∀ name, (linkNext address other).read e name =
        if name = .previous then UInt32.ofNat address else heap.read e name) := by
  have hnext : other.next address = entry 0 e after := by
    unfold Heap.next
    rw [hheaded _ (by decide)]
    exact hentry
  cases after with
  | nil =>
    rw [linkNext_of_nil hnext]
    exact ⟨⟨rfl, fun _ _ ↦ rfl⟩, fun hne ↦ absurd rfl hne⟩
  | cons first rest =>
    have hvalid : other.read e .cookie = other.blockCookie e := by
      rw [hedits.read_eq (.inr hhigh), hedits.blockCookie_eq (.inr hhigh)]
      exact hcookie (List.cons_ne_nil _ _)
    have hlinked : linkNext address other = other.write e .previous (UInt32.ofNat address) :=
      linkNext_of_cons hnext (Nat.ne_zero_of_lt hfar) hfar hvalid
    rw [hlinked]
    refine ⟨edits_write, fun _ name ↦ ?_⟩
    rw [Heap.read_write, hedits.read_eq (.inr hhigh)]

/-- The stores that cut a block in two. -/
theorem cut_spec {a r : ℕ} {first second : Block} (hblock : Headed heap a block previous next)
    (hrequested : first.requested = block.requested) (hfree : second.free)
    (hfirst : a + headerSize ≤ r) (hsecond : r + headerSize ≤ e)
    (hcut : other = (newFreeBlock r second.capacity a (entry 0 e after) heap
      |> linkNext r
      |>.refreshBlockCookie r
      |>.write a .capacity (UInt32.ofNat first.capacity)
      |>.write a .next (UInt32.ofNat r)
      |>.refreshBlockCookie a)) :
    Edits a (e + headerSize) heap other ∧
      (∀ name, other.read a name = first.header a previous r name) ∧
      (∀ name, other.read r name = second.header r a (entry 0 e after) name) ∧
      (after ≠ [] → ∀ name, other.read e name =
        if name = .previous then UInt32.ofNat r else heap.read e name) := by
  have hmade : Edits r (r + headerSize) heap
      (newFreeBlock r second.capacity a (entry 0 e after) heap) := edits_newFreeBlock
  have hmadeHead := headed_newFreeBlock r a (entry 0 e after) heap hfree
  generalize newFreeBlock r second.capacity a (entry 0 e after) heap = made at *
  obtain ⟨hlink, hlinkHead⟩ := linkNext_spec hentry hcookie hmade hsecond hmadeHead hsecond
  generalize linkNext r made = linked at *
  have hrefresh : Edits r (r + headerSize) linked (linked.refreshBlockCookie r) := edits_refresh
  -- the stores that follow are in the first header
  have hlast : Edits a (a + headerSize) (linked.refreshBlockCookie r) other := by
    rw [hcut]
    exact edits_write.trans (edits_write.trans edits_refresh)
  refine ⟨?_, fun name ↦ ?_, fun name ↦ ?_, fun hne name ↦ ?_⟩
  · exact (hmade.mono (by omega) (by omega)).trans <| (hlink.mono (by omega) le_rfl).trans <|
      (hrefresh.mono (by omega) (by omega)).trans (hlast.mono le_rfl (by omega))
  · have hold := hrefresh.headed (.inl hfirst)
      (hlink.headed (.inl (by omega)) (hmade.headed (.inl hfirst) hblock))
    rw [hcut]
    exact ((hold.widen hrequested).link r).refresh name
  · rw [hlast.read_eq (.inr hfirst)]
    exact (hlink.headed (.inl hsecond) hmadeHead).refresh name
  · rw [hlast.read_eq (.inr (by omega)), hrefresh.read_eq (.inr hsecond), hlinkHead hne name]

/-- The stores that join a block with the one behind it. -/
theorem join_spec {a : ℕ} {joint : Block} (hblock : Headed heap a block previous next)
    (hrequested : joint.requested = block.requested) (hend : a + headerSize ≤ e)
    (hjoin : other = (heap.write a .capacity (UInt32.ofNat joint.capacity)
      |>.write a .next (UInt32.ofNat (entry 0 e after))
      |> linkNext a
      |>.refreshBlockCookie a)) :
    Edits a (e + headerSize) heap other ∧
      (∀ name, other.read a name = joint.header a previous (entry 0 e after) name) ∧
      (after ≠ [] → ∀ name, other.read e name =
        if name = .previous then UInt32.ofNat a else heap.read e name) := by
  have hwideHead := (hblock.widen hrequested).link (entry 0 e after)
  have hwide : Edits a (a + headerSize) heap ((heap.write a .capacity
      (UInt32.ofNat joint.capacity)).write a .next (UInt32.ofNat (entry 0 e after))) :=
    edits_write.trans edits_write
  generalize (heap.write a .capacity (UInt32.ofNat joint.capacity)).write a .next
    (UInt32.ofNat (entry 0 e after)) = wide at *
  obtain ⟨hlink, hlinkHead⟩ := linkNext_spec hentry hcookie hwide hend hwideHead hend
  generalize linkNext a wide = linked at *
  have hrefresh : Edits a (a + headerSize) linked other := by
    rw [hjoin]
    exact edits_refresh
  refine ⟨?_, fun name ↦ ?_, fun hne name ↦ ?_⟩
  · exact (hwide.mono le_rfl (by omega)).trans <| (hlink.mono (by omega) le_rfl).trans
      (hrefresh.mono le_rfl (by omega))
  · rw [hjoin]
    exact (hlink.headed (.inl hend) hwideHead).refresh name
  · rw [hrefresh.read_eq (.inr hend), hlinkHead hne name]

end Linking

section Laid

variable (h : Laid heap (before ++ block :: after))
include h

theorem Laid.cookie_behind (hafter : after ≠ []) :
    heap.read (heapStart + total before + block.span) .cookie =
      heap.blockCookie (heapStart + total before + block.span) := by
  obtain ⟨behind, rest, rfl⟩ := List.exists_cons_of_ne_nil hafter
  rw [← heapStart_add_concat]
  exact h.concat.cookie_eq

theorem Laid.entry_eq :
    (UInt32.ofNat (entry 0 (heapStart + total before + block.span) after)).toNat =
      entry 0 (heapStart + total before + block.span) after := by
  rw [← h.next_eq]
  exact congrArg UInt32.toNat UInt32.ofNat_toNat

theorem Laid.headed :
    Headed heap (heapStart + total before) block (exit 0 heapStart before)
      (entry 0 (heapStart + total before + block.span) after) :=
  fun name _ ↦ h.stored.header name

/-- A free block is cut in two where it is large enough. -/
theorem Laid.splitBlock (first second : Block)
    (hfree : block.free) (hfirst : first.free) (hsecond : second.free)
    (hroom : heapAlignment ≤ second.capacity)
    (hspan : first.span + second.span = block.span) :
    OnlyMemory heap (splitBlock (heapStart + total before) first.capacity heap) ∧
      Linked (splitBlock (heapStart + total before) first.capacity heap) 0 0 heapStart
        (before ++ ([first, second] ++ after)) := by
  have hheader : headerSize = 32 := rfl
  have hsizes : first.span = 32 + first.capacity ∧ second.span = 32 + second.capacity ∧
      block.span = 32 + block.capacity := ⟨rfl, rfl, rfl⟩
  have hsplit : KernelHeap.splitBlock (heapStart + total before) first.capacity heap = _ :=
    if_neg (by rw [h.capacity_eq]; omega)
  have hremaining : block.capacity - first.capacity - headerSize = second.capacity := by omega
  have hplace : heapStart + total before + headerSize + first.capacity =
      heapStart + total before + first.span := Nat.add_assoc _ _ _
  rw [h.next_eq, h.capacity_eq, hremaining, hplace] at hsplit
  obtain ⟨hedits, hfirstHeader, hsecondHeader, hhead⟩ := cut_spec h.entry_eq h.cookie_behind
    h.headed (hfirst.trans hfree.symm) hsecond (by omega) (by omega) hsplit
  have hrow : Linked heap 0 0 heapStart (before ++ ([block] ++ after)) := h.linked
  refine ⟨hedits.only, hrow.replace (List.cons_ne_nil _ _) (List.cons_ne_nil _ _)
    ⟨.of_free hfirst hfirstHeader, .of_free hsecond hsecondHeader, trivial⟩ ?_ hhead hedits.same⟩
  simp only [total_cons, total_nil]
  omega

end Laid

/-- A free block is joined with the free block behind it. -/
theorem Laid.joined {behind joint : Block} (h : Laid heap (before ++ block :: behind :: after))
    (hjoint : joint.free) (hfree : block.free) (hspan : joint.span = block.span + behind.span)
    (hjoin : other = (heap.write (heapStart + total before) .capacity (UInt32.ofNat joint.capacity)
      |>.write (heapStart + total before) .next
        (UInt32.ofNat (entry 0 (heapStart + total before + joint.span) after))
      |> linkNext (heapStart + total before)
      |>.refreshBlockCookie (heapStart + total before))) :
    OnlyMemory heap other ∧ Linked other 0 0 heapStart (before ++ ([joint] ++ after)) := by
  have hend : heapStart + total (before ++ [block]) + behind.span =
      heapStart + total before + joint.span := by
    rw [heapStart_add_concat, hspan, Nat.add_assoc _ block.span]
  have hentry := h.concat.entry_eq
  have hcookie := h.concat.cookie_behind
  rw [hend] at hentry hcookie
  obtain ⟨hedits, hheader, hhead⟩ := join_spec hentry hcookie h.headed (hjoint.trans hfree.symm)
    (Nat.add_le_add_left (Nat.le_add_right _ _) _) hjoin
  have htotal : total [block, behind] = joint.span := by
    simp only [total_cons, total_nil]
    omega
  have hrow : Linked heap 0 0 heapStart (before ++ ([block, behind] ++ after)) := h.linked
  refine ⟨hedits.only, hrow.replace (List.cons_ne_nil _ _) (List.cons_ne_nil _ _)
    ⟨.of_free hjoint ?_, trivial⟩ htotal.symm ?_ ?_⟩
  · rw [htotal]
    exact hheader
  · rw [htotal]
    exact hhead
  · rw [htotal]
    exact hedits.same

/-- Two neighbouring blocks as one. -/
def Block.joint (first second : Block) : Block :=
  .empty (first.capacity + headerSize + second.capacity)
    (dvd_add (dvd_add first.aligned (by decide)) second.aligned)

theorem Block.span_joint (first second : Block) :
    (first.joint second).span = first.span + second.span := by
  change headerSize + (first.capacity + headerSize + second.capacity) =
    headerSize + first.capacity + (headerSize + second.capacity)
  omega

/-- A block and those behind it, with the next one joined to it if it is free. -/
def mergeHead (block : Block) : List Block → List Block
  | [] => [block]
  | behind :: rest => if behind.free then block.joint behind :: rest else block :: behind :: rest

/-- A free block is joined with the one behind it where that is free. -/
theorem Laid.mergeWithNext (h : Laid heap (before ++ block :: after)) (hfree : block.free) :
    ∃ other, mergeWithNext (heapStart + total before) heap = .ok other ∧ OnlyMemory heap other ∧
      Linked other 0 0 heapStart (before ++ mergeHead block after) := by
  unfold KernelHeap.mergeWithNext
  rw [h.next_eq]
  cases after with
  | nil => exact ⟨heap, if_pos rfl, rfl, h.linked⟩
  | cons behind rest =>
    have hpos := heapStart_facts.2.1
    have hvalid := h.concat.blockIsValid
    have hstate := h.concat.isFree_eq
    have hcapacity := h.concat.capacity_eq
    have hnext : heap.read (heapStart + total (before ++ [block])) .next = _ :=
      h.concat.stored.header .next
    rw [heapStart_add_concat] at hvalid hstate hcapacity hnext
    have hadjacent : heapStart + total before + headerSize + block.capacity =
        heapStart + total before + block.span := Nat.add_assoc _ _ _
    dsimp only [entry]
    rw [if_neg (by omega), hvalid, if_neg (by decide), hstate, h.capacity_eq, hcapacity, hnext,
      hadjacent]
    by_cases hbehind : behind.free
    · rw [decide_eq_true hbehind, if_neg (by decide), if_neg (not_not.2 rfl), mergeHead,
        if_pos hbehind]
      refine ⟨_, rfl, h.joined rfl hfree (block.span_joint behind) ?_⟩
      rw [Block.span_joint, ← Nat.add_assoc]
      rfl
    · rw [decide_eq_false hbehind, if_pos rfl, mergeHead, if_neg hbehind]
      exact ⟨heap, rfl, rfl, h.linked⟩

/-! ### Taking and returning a block -/

section

variable (hword : (UInt32.ofNat block.requested).toNat = block.requested)
include hword

theorem blockCanary_eq (h : heap.read address .requested = UInt32.ofNat block.requested) :
    heap.blockCanary address = address + headerSize + block.requested := by
  unfold Heap.blockCanary Heap.requested
  rw [h, hword]

theorem memory_writeCanary (h : heap.read address .requested = UInt32.ofNat block.requested)
    (hplace : place < address + headerSize + block.requested ∨
      address + headerSize + block.requested + canarySize ≤ place) :
    (heap.writeCanary address).memory place = heap.memory place := by
  rw [← blockCanary_eq hword h] at hplace
  exact storeBytes_of_outside _ hplace

/-- An allocated block is stored once its header and its canary are. -/
theorem Stored.of_writeCanary
    (h : ∀ name, heap.read address name = block.header address previous next name) :
    Stored (heap.writeCanary address) address block previous next := by
  have hplace := blockCanary_eq hword (h .requested)
  refine ⟨fun name ↦ ?_, fun _ ↦ ?_⟩
  · rw [← h name]
    exact Heap.read_congr fun place _ hlt ↦
      memory_writeCanary hword (h .requested) (.inl (Nat.lt_add_right _ hlt))
  · change (dword _).get ((dword (heap.blockCanary address)).set _ heap.memory) = _
    rw [← hplace, (dword _).get_set, h]
    rfl

end

theorem takeBlock_eq (hflags : heap.read address .flags = heapBlockFree) :
    takeBlock address size heap =
      ((({ heap with usedBytes := heap.usedBytes + size }.write address .requested
        (UInt32.ofNat size)).write address .flags 0).refreshBlockCookie address).writeCanary
          address := by
  have hmarked : (heap.write address .requested (UInt32.ofNat size)).read address .flags &&&
      ~~~heapBlockFree = 0 := by
    rw [Heap.read_write_of_ne (by decide), hflags]
    decide
  unfold takeBlock
  dsimp only
  rw [hmarked]
  rfl

section Laid

variable (h : Laid heap (before ++ block :: after))
include h

/-- The header of a block is changed for another request, together with the counter. -/
theorem Laid.remark {block' : Block} (used : ℕ) (hcapacity : block'.capacity = block.capacity)
    (hother : other = ((({ heap with usedBytes := used }.write (heapStart + total before) .requested
      (UInt32.ofNat block'.requested)).write (heapStart + total before) .flags
        (if block'.free then heapBlockFree else 0)).refreshBlockCookie
          (heapStart + total before))) :
    Edits (heapStart + total before) (heapStart + total before + headerSize)
        { heap with usedBytes := used } other ∧
      ∀ name, other.read (heapStart + total before) name =
        block'.header (heapStart + total before) (exit 0 heapStart before)
          (entry 0 (heapStart + total before + block.span) after) name := by
  have hcounted : Headed { heap with usedBytes := used } (heapStart + total before) block
      (exit 0 heapStart before) (entry 0 (heapStart + total before + block.span) after) := h.headed
  subst hother
  exact ⟨edits_write.trans (edits_write.trans edits_refresh), (hcounted.mark hcapacity).refresh⟩

/-- A free block is taken by a client. -/
theorem Laid.takeBlock (hfree : block.free) (hpos : 0 < size)
    (hfits : size + canarySize ≤ block.capacity) :
    OnlyMemory { heap with usedBytes := heap.usedBytes + size }
        (takeBlock (heapStart + total before) size heap) ∧
      Linked (takeBlock (heapStart + total before) size heap) 0 0 heapStart
        (before ++ block.taken size hfits :: after) := by
  have hbounds := h.bounds
  have hheader : headerSize = 32 := rfl
  have hused : ¬ (block.taken size hfits).free := hpos.ne'
  have hword : (UInt32.ofNat size).toNat = size := toNat_word (by omega)
  have hflags : heap.read (heapStart + total before) .flags = heapBlockFree := by
    rw [h.stored.header, Block.header, if_pos hfree]
  obtain ⟨hedits, hmarked⟩ := h.remark _ (show (block.taken size hfits).capacity = _ from rfl) rfl
  rw [if_neg hused] at hmarked hedits
  rw [takeBlock_eq hflags]
  refine ⟨rfl, h.linked.exchange (.of_writeCanary hword hmarked) rfl fun place hplace ↦ ?_⟩
  refine (memory_writeCanary hword (hmarked .requested) ?_).trans (hedits.same place (by omega))
  change place < heapStart + total before + headerSize + size ∨
    heapStart + total before + headerSize + size + canarySize ≤ place
  omega

/-- A client returns a block. -/
theorem Laid.returnBlock :
    OnlyMemory { heap with usedBytes := heap.usedBytes - block.requested }
        (returnBlock (heapStart + total before) heap) ∧
      Linked (returnBlock (heapStart + total before) heap) 0 0 heapStart
        (before ++ block.returned :: after) := by
  have hbounds := h.bounds
  have hheader : headerSize = 32 := rfl
  have hflags : heap.read (heapStart + total before) .flags ||| heapBlockFree = heapBlockFree := by
    rw [h.stored.header, Block.header]
    split_ifs <;> decide
  have hreturn : KernelHeap.returnBlock (heapStart + total before) heap =
      (({ heap with usedBytes := heap.usedBytes - block.requested }.write (heapStart + total before)
        .requested 0).write (heapStart + total before) .flags heapBlockFree).refreshBlockCookie
          (heapStart + total before) := by
    unfold KernelHeap.returnBlock
    dsimp only
    rw [Heap.read_write_of_ne (by decide), h.requested_eq]
    change Heap.refreshBlockCookie _ (Heap.write _ _ (heap.read _ .flags ||| _) _) = _
    rw [hflags]
  obtain ⟨hedits, hmarked⟩ := h.remark _ (show block.returned.capacity = _ from rfl) hreturn
  exact ⟨hedits.only, h.linked.exchange (.of_free rfl hmarked) rfl
    (hedits.mono le_rfl (by omega)).same⟩

end Laid

/-! ### Walking the row -/

theorem Laid.length_le (h : Laid heap blocks) : blocks.length ≤ heap.mappedBytes := by
  have hlength : blocks.length ≤ total blocks := by
    clear h
    induction blocks with
    | nil => exact le_rfl
    | cons block rest ih =>
      have hspan : 32 ≤ block.span := Nat.le_add_right _ _
      rw [List.length_cons, total_cons]
      omega
  exact hlength.trans h.within

/-- The first free block that is large enough, or none. -/
theorem Laid.findFreeBlock_from {steps : ℕ} (h : Laid heap (before ++ after)) (capacity : ℕ)
    (hsteps : after.length < steps) :
    (findFreeBlock heap capacity steps (entry 0 (heapStart + total before) after) = .ok 0 ∧
        ∀ block ∈ after, block.free → block.capacity < capacity) ∨
      ∃ middle block rest, after = middle ++ block :: rest ∧ block.free ∧
        capacity ≤ block.capacity ∧
        findFreeBlock heap capacity steps (entry 0 (heapStart + total before) after) =
          .ok (heapStart + total (before ++ middle)) := by
  induction after generalizing before steps with
  | nil =>
    obtain ⟨steps, rfl⟩ := Nat.exists_eq_succ_of_ne_zero hsteps.ne'
    exact .inl ⟨if_pos rfl, fun _ hmem ↦ absurd hmem List.not_mem_nil⟩
  | cons block rest ih =>
    obtain ⟨steps, rfl⟩ := Nat.exists_eq_succ_of_ne_zero (Nat.ne_of_gt (Nat.zero_lt_of_lt hsteps))
    have hpos := heapStart_facts.2.1
    have hstep : findFreeBlock heap capacity (steps + 1)
        (entry 0 (heapStart + total before) (block :: rest)) =
          if decide block.free = true ∧ capacity ≤ block.capacity then
            .ok (heapStart + total before)
          else findFreeBlock heap capacity steps
            (entry 0 (heapStart + total (before ++ [block])) rest) := by
      rw [entry, findFreeBlock, if_neg (by omega), h.blockIsValid, if_neg (by decide), h.isFree_eq,
        h.capacity_eq, h.next_eq, heapStart_add_concat]
    rw [hstep]
    by_cases hfound : decide block.free = true ∧ capacity ≤ block.capacity
    · rw [if_pos hfound]
      exact .inr ⟨[], block, rest, rfl, of_decide_eq_true hfound.1, hfound.2, by
        rw [List.append_nil]⟩
    · rw [if_neg hfound]
      rcases ih h.concat (by simpa using hsteps) with ⟨hnone, hall⟩ |
        ⟨middle, found, behind, hat, hfree, hfits, hresult⟩
      · refine .inl ⟨hnone, fun other hother hfree ↦ ?_⟩
        rcases List.mem_cons.1 hother with rfl | hother
        · by_contra hfits
          exact hfound ⟨decide_eq_true hfree, Nat.not_lt.1 hfits⟩
        · exact hall other hother hfree
      · refine .inr
          ⟨block :: middle, found, behind, by rw [hat, List.cons_append], hfree, hfits, ?_⟩
        rw [hresult, List.append_assoc, List.singleton_append]

/-- The last block. -/
theorem Laid.findLast_from {steps : ℕ} {middle : List Block}
    (h : Laid heap (before ++ (middle ++ [block]))) (hsteps : middle.length < steps) :
    findLast heap steps (entry 0 (heapStart + total before) (middle ++ [block])) =
      .ok (heapStart + total (before ++ middle)) := by
  induction middle generalizing before steps with
  | nil =>
    obtain ⟨steps, rfl⟩ := Nat.exists_eq_succ_of_ne_zero hsteps.ne'
    rw [List.nil_append] at h ⊢
    rw [entry, findLast, h.blockIsValid, if_neg (by decide), h.next_eq, entry, if_pos rfl,
      List.append_nil]
  | cons first rest ih =>
    obtain ⟨steps, rfl⟩ := Nat.exists_eq_succ_of_ne_zero (Nat.ne_of_gt (Nat.zero_lt_of_lt hsteps))
    rw [List.cons_append] at h
    have hnext : heap.next (heapStart + total before) =
        entry 0 (heapStart + total (before ++ [first])) (rest ++ [block]) := by
      rw [heapStart_add_concat, h.next_eq]
    have hentry : entry 0 (heapStart + total (before ++ [first])) (rest ++ [block]) =
        heapStart + total before + first.span := by
      rw [← heapStart_add_concat]
      cases rest <;> rfl
    have hspan : 0 < first.span := Nat.add_pos_left (by decide) _
    rw [List.cons_append, entry, findLast, h.blockIsValid, if_neg (by decide), hnext,
      if_neg (by rw [hentry]; omega), if_neg (by rw [hentry]; omega),
      ih h.concat (by simpa using hsteps), List.append_assoc, List.singleton_append]

theorem Laid.findLast (h : Laid heap (before ++ [block])) :
    findLast heap (heap.mappedBytes + 1) heapStart = .ok (heapStart + total before) := by
  have hrow : Laid heap ([] ++ (before ++ [block])) := h
  have hstart : entry 0 (heapStart + total []) (before ++ [block]) = heapStart := by
    cases before <;> rfl
  have hlength : before.length < heap.mappedBytes + 1 := by
    have hle := h.length_le
    rw [List.length_append] at hle
    exact Nat.lt_succ_of_le ((Nat.le_add_right _ _).trans hle)
  have hfound := hrow.findLast_from hlength
  rw [hstart] at hfound
  exact hfound

theorem Laid.findFreeBlock (h : Laid heap blocks) (hne : blocks ≠ []) (capacity : ℕ) :
    (findFreeBlock heap capacity (heap.mappedBytes + 1) heapStart = .ok 0 ∧
        ∀ block ∈ blocks, block.free → block.capacity < capacity) ∨
      ∃ before block after, blocks = before ++ block :: after ∧ block.free ∧
        capacity ≤ block.capacity ∧
        findFreeBlock heap capacity (heap.mappedBytes + 1) heapStart =
          .ok (heapStart + total before) := by
  have hrow : Laid heap ([] ++ blocks) := h
  have hstart : entry 0 (heapStart + total []) blocks = heapStart := by
    obtain ⟨first, rest, rfl⟩ := List.exists_cons_of_ne_nil hne
    rfl
  have hfound := hrow.findFreeBlock_from capacity (Nat.lt_succ_of_le h.length_le)
  rw [hstart] at hfound
  exact hfound

/-! ### Growing the row -/

section Growing

variable {σ : Type} (pages : Pages σ)

/-- Mapping pages leaves the heap as it was below them. -/
theorem memory_mapPages {oldMappedBytes remaining mappedPages : ℕ} {memory : Bytes} {state : σ}
    (h : place < heapStart + oldMappedBytes) :
    (mapPages pages oldMappedBytes remaining mappedPages memory state).2.1 place =
      memory place := by
  induction remaining generalizing mappedPages memory state with
  | zero => rfl
  | succ remaining ih =>
    unfold mapPages
    dsimp only
    split_ifs
    · rfl
    · rw [ih]
      exact if_neg fun hinside ↦ by omega
    · rfl

end Growing

/-- A block that reaches further. -/
def Block.grown (block : Block) (added : ℕ) (haligned : heapAlignment ∣ added) : Block where
  capacity := block.capacity + added
  requested := block.requested
  aligned := dvd_add block.aligned haligned
  fits h := (block.fits h).trans (Nat.le_add_right _ _)

/-- The end of the row after pages were added behind the last block. -/
def growEnd (last : Block) (added : ℕ) (haligned : heapAlignment ∣ added)
    (hrest : heapAlignment ∣ added - headerSize) : List Block :=
  if last.free then [last.grown added haligned] else [last, .empty (added - headerSize) hrest]

section

variable (h : Laid heap (before ++ [block]))
include h

/-- The last block of a row reaches further. -/
theorem Laid.widenLast {added : ℕ} (hfree : block.free)
    (haligned : heapAlignment ∣ added) :
    Linked ((heap.write (heapStart + total before) .capacity
        (UInt32.ofNat (block.grown added haligned).capacity)).refreshBlockCookie
          (heapStart + total before))
      0 0 heapStart (before ++ [block.grown added haligned]) := by
  have hlast : Headed heap (heapStart + total before) block (exit 0 heapStart before) 0 := h.headed
  have hwide : Headed (heap.write (heapStart + total before) .capacity
      (UInt32.ofNat (block.grown added haligned).capacity)) (heapStart + total before)
      (block.grown added haligned) (exit 0 heapStart before) 0 := hlast.widen rfl
  exact h.linked.replace_end (List.cons_ne_nil _ _) (List.cons_ne_nil _ _)
    ⟨.of_free hfree hwide.refresh, trivial⟩ (edits_write.trans edits_refresh).same

/-- A free block is appended to a row. -/
theorem Laid.appendBlock {a e : ℕ} {new : Block}
    (hnew : new.free) (ha : heapStart + total before = a) (he : a + block.span = e)
    (hother : other = (newFreeBlock e new.capacity a 0 heap
      |>.refreshBlockCookie e
      |>.write a .next (UInt32.ofNat e)
      |>.refreshBlockCookie a)) :
    OnlyMemory heap other ∧ Linked other 0 0 heapStart (before ++ [block, new]) := by
  have hheader : headerSize = 32 := rfl
  have hspan : block.span = 32 + block.capacity := rfl
  have hmade : Edits e (e + headerSize) heap
      ((newFreeBlock e new.capacity a 0 heap).refreshBlockCookie e) :=
    edits_newFreeBlock.trans edits_refresh
  have hmadeHead := (headed_newFreeBlock e a 0 heap hnew).refresh
  generalize (newFreeBlock e new.capacity a 0 heap).refreshBlockCookie e = made at *
  have hstored : Stored made a block (exit 0 heapStart before) 0 := by
    subst ha he
    exact h.stored.congr fun place hplace ↦ hmade.same place (.inl hplace.bounds.2)
  have hlinked := Headed.link (fun name _ ↦ hstored.header name) e
  have hlast : Edits a (a + headerSize) made other := by
    rw [hother]
    exact edits_write.trans edits_refresh
  have hedits := (hmade.mono (Nat.le.intro he) le_rfl).trans (hlast.mono le_rfl (by omega))
  subst ha he
  refine ⟨hedits.only, h.linked.replace_end (List.cons_ne_nil _ _) (List.cons_ne_nil _ _)
    ⟨⟨hother ▸ hlinked.refresh, fun hused ↦ ?_⟩, .of_free hnew fun name ↦ ?_, trivial⟩ hedits.same⟩
  · rw [← hstored.canary hused]
    exact readDword_congr fun place hle _ ↦ hlast.same place (by omega)
  · rw [hlast.read_eq (.inr (by omega))]
    exact hmadeHead name

/-- The row grows at its end. -/
theorem Laid.addPages {added : ℕ}
    (haligned : heapAlignment ∣ added) (hrest : heapAlignment ∣ added - headerSize)
    (htiled : total (before ++ [block]) = heap.mappedBytes)
    (hbounded : heap.mappedBytes + added ≤ heapMaxSize) (hfirst : heap.firstBlock = heapStart) :
    ∃ other, addPages heap.mappedBytes added heap = .ok other ∧
      OnlyMemory { heap with mappedBytes := heap.mappedBytes + added } other ∧
      Linked other 0 0 heapStart (before ++ growEnd block added haligned hrest) := by
  have hpos := heapStart_facts.2.1
  have hwider : Laid { heap with mappedBytes := heap.mappedBytes + added } (before ++ [block]) :=
    ⟨h.linked.congr fun _ _ ↦ rfl, h.within.trans (Nat.le_add_right _ _), hbounded⟩
  have hbegin : KernelHeap.addPages heap.mappedBytes added heap =
      if block.free then
        .ok (({ heap with mappedBytes := heap.mappedBytes + added }.write (heapStart + total before)
          .capacity (UInt32.ofNat (block.capacity + added))).refreshBlockCookie
            (heapStart + total before))
      else
        .ok ((((newFreeBlock (heapStart + heap.mappedBytes) (added - headerSize)
          (heapStart + total before) 0
          { heap with mappedBytes := heap.mappedBytes + added }).refreshBlockCookie
            (heapStart + heap.mappedBytes)).write (heapStart + total before) .next
              (UInt32.ofNat (heapStart + heap.mappedBytes))).refreshBlockCookie
                (heapStart + total before)) := by
    have hstart :
        ¬ ({ heap with mappedBytes := heap.mappedBytes + added } : Heap).firstBlock = 0 := by
      change ¬ heap.firstBlock = 0
      omega
    have hlast : KernelHeap.findLast { heap with mappedBytes := heap.mappedBytes + added }
        (heap.mappedBytes + added + 1) heap.firstBlock = .ok (heapStart + total before) :=
      (congrArg (KernelHeap.findLast _ _) hfirst).trans hwider.findLast
    unfold KernelHeap.addPages
    rw [if_neg hstart, hlast]
    change (if Heap.isFree _ _ = true then _ else _) = _
    rw [hwider.isFree_eq, hwider.capacity_eq]
    by_cases hfree : block.free
    · rw [if_pos (decide_eq_true hfree), if_pos hfree]
      rfl
    · rw [if_neg (by rw [decide_eq_false hfree]; decide), if_neg hfree]
      rfl
  have hend : heapStart + heap.mappedBytes = heapStart + total before + block.span := by
    rw [← htiled, heapStart_add_concat]
  rw [hbegin]
  unfold growEnd
  by_cases hfree : block.free
  · rw [if_pos hfree, if_pos hfree]
    exact ⟨_, rfl, rfl, hwider.widenLast hfree haligned⟩
  · rw [if_neg hfree, if_neg hfree, hend]
    have hnew : (Block.empty (added - headerSize) hrest).free := rfl
    exact ⟨_, rfl, hwider.appendBlock hnew rfl rfl rfl⟩

end

end EfesOS.Memory.KernelHeap
