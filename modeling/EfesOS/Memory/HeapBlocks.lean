import Mathlib.Data.List.Chain
import Mathlib.Algebra.BigOperators.Group.List.Basic
import Mathlib.Tactic.Linarith
import EfesOS.Memory.Heap

/-!
# The heap as a row of blocks

An abstract heap is a list of blocks, each a capacity and the number of bytes that were asked for.
`Represents` says that the memory holds such a row: every header stands where the block before it
ends, with its links, its cookie and its flag, and every allocation is followed by its canary.

Each operation on the list in memory is an operation on the row: `splitBlock` cuts a block in two,
`mergeWithNext` joins it with a free neighbour, `addPages` makes the row longer.
-/

set_option autoImplicit false

namespace EfesOS.Memory.KernelHeap

open EfesOS.Foundation.Registers

theorem heapStart_facts :
    heapStart % 16 = 0 ∧ 0 < heapStart ∧ heapStart + heapMaxSize < 2 ^ 32 ∧ 32 < heapMaxSize := by
  decide

/-! ### Fields in memory -/

theorem offset_le (name : Field) : name.offset + 4 ≤ headerSize := by
  cases name <;> decide

theorem offset_disjoint {first second : Field} (h : first ≠ second) :
    first.offset + 4 ≤ second.offset ∨ second.offset + 4 ≤ first.offset := by
  revert h
  cases first <;> cases second <;> decide

/-- Memory is the same outside of an interval. -/
def SameOutside (low high : ℕ) (heap other : Heap) : Prop :=
  ∀ place, place < low ∨ high ≤ place → other.memory place = heap.memory place

namespace Heap

variable {heap other : Heap} {block : ℕ} {name : Field} {value : UInt32}

theorem read_congr
    (h : ∀ place, block ≤ place → place < block + headerSize → other.memory place =
      heap.memory place) :
    other.read block name = heap.read block name := by
  have hbound := offset_le name
  exact readDword_congr fun place hle hlt ↦ h place (by omega) (by omega)

theorem sameOutside_write :
    SameOutside block (block + headerSize) heap (heap.write block name value) := by
  intro place hplace
  have hbound := offset_le name
  refine storeBytes_of_outside _ ?_
  change place < block + name.offset ∨ block + name.offset + 4 ≤ place
  omega

@[simp] theorem read_write_same :
    (heap.write block name value).read block name = value :=
  (field block name).get_set value heap.memory

theorem read_write_of_ne {second : Field} (h : second ≠ name) :
    (heap.write block name value).read block second = heap.read block second := by
  refine Register.KeptBy.get (Register.Disjoint.keptBy_set (dword_disjoint_dword ?_) value) _
  have := offset_disjoint h
  omega

theorem read_write (second : Field) :
    (heap.write block name value).read block second =
      if second = name then value else heap.read block second := by
  split_ifs with h
  · rw [h, read_write_same]
  · exact read_write_of_ne h

theorem read_write_far {far : ℕ} {second : Field}
    (h : block + headerSize ≤ far ∨ far + headerSize ≤ block) :
    (heap.write block name value).read far second = heap.read far second :=
  read_congr fun place hle hlt ↦ sameOutside_write place (by omega)

/-- A field that is written as it is. -/
theorem write_read (name : Field) : heap.write block name (heap.read block name) = heap := by
  unfold write read
  rw [(field block name).set_get]

/-- The cookie does not depend on the links. -/
theorem blockCookie_write_link (hname : name ≠ .capacity ∧ name ≠ .requested) :
    (heap.write block name value).blockCookie block = heap.blockCookie block := by
  unfold blockCookie
  rw [read_write_of_ne hname.1.symm, read_write_of_ne hname.2.symm]

theorem refreshBlockCookie_of_valid (h : heap.read block .cookie = heap.blockCookie block) :
    heap.refreshBlockCookie block = heap := by
  unfold refreshBlockCookie
  rw [← h, write_read]

end Heap

/-! ### Rows of blocks -/

/-- A block of the heap; one that nobody asked for is free. -/
structure Block where
  capacity : ℕ
  requested : ℕ
  aligned : heapAlignment ∣ capacity
  fits : 0 < requested → requested + canarySize ≤ capacity

namespace Block

def span (block : Block) : ℕ := headerSize + block.capacity

def free (block : Block) : Prop := block.requested = 0
  deriving Decidable

/-- A free block. -/
def empty (capacity : ℕ) (aligned : heapAlignment ∣ capacity) : Block where
  capacity := capacity
  requested := 0
  aligned := aligned
  fits h := absurd h (lt_irrefl 0)

/-- The block while a client uses it. -/
def taken (block : Block) (size : ℕ) (fits : size + canarySize ≤ block.capacity) : Block where
  capacity := block.capacity
  requested := size
  aligned := block.aligned
  fits _ := fits

/-- The block after the client returned it. -/
def returned (block : Block) : Block := empty block.capacity block.aligned

def cookie (block : Block) (address : ℕ) : UInt32 :=
  heapCookieSeed ^^^ UInt32.ofNat address ^^^ UInt32.ofNat block.capacity ^^^
    UInt32.ofNat block.requested

/-- The header of the block at an address, between two others. -/
def header (block : Block) (address previous next : ℕ) : Field → UInt32
  | .magic => heapBlockMagic
  | .capacity => UInt32.ofNat block.capacity
  | .requested => UInt32.ofNat block.requested
  | .cookie => block.cookie address
  | .previous => UInt32.ofNat previous
  | .next => UInt32.ofNat next
  | .flags => if block.free then heapBlockFree else 0
  | .reserved => 0

/-- The bytes of the block that belong to the heap: its header and its canary. -/
def Owns (block : Block) (address place : ℕ) : Prop :=
  (address ≤ place ∧ place < address + headerSize) ∨
    ¬ block.free ∧ address + headerSize + block.requested ≤ place ∧
      place < address + headerSize + block.requested + canarySize

end Block

def total (blocks : List Block) : ℕ := (blocks.map Block.span).sum

@[simp] theorem total_nil : total [] = 0 := rfl

@[simp] theorem total_cons (block : Block) (rest : List Block) :
    total (block :: rest) = block.span + total rest := rfl

@[simp] theorem total_append (first second : List Block) :
    total (first ++ second) = total first + total second := by
  unfold total
  rw [List.map_append, List.sum_append]

/-- The address of the first of a row of blocks, or of what comes behind it. -/
def entry (following start : ℕ) : List Block → ℕ
  | [] => following
  | _ :: _ => start

/-- The address of the last of a row of blocks, or of what comes before it. -/
def exit (previous start : ℕ) : List Block → ℕ
  | [] => previous
  | block :: rest => exit start (start + block.span) rest

theorem entry_append (following start : ℕ) (first second : List Block) :
    entry following start (first ++ second) =
      entry (entry following (start + total first) second) start first := by
  cases first with
  | nil => simp [entry]
  | cons => rfl

theorem exit_append (previous start : ℕ) (first second : List Block) :
    exit previous start (first ++ second) =
      exit (exit previous start first) (start + total first) second := by
  induction first generalizing previous start with
  | nil => simp [exit]
  | cons block rest ih =>
    rw [List.cons_append, exit, ih, exit, total_cons, ← Nat.add_assoc]

/-- The memory holds a block at an address. -/
structure Stored (heap : Heap) (address : ℕ) (block : Block) (previous next : ℕ) : Prop where
  header : ∀ name, heap.read address name = block.header address previous next name
  canary : ¬ block.free →
    (dword (address + headerSize + block.requested)).get heap.memory = block.cookie address

/-- The memory holds a row of blocks from an address on. -/
def Linked (heap : Heap) (following : ℕ) : ℕ → ℕ → List Block → Prop
  | _, _, [] => True
  | previous, start, block :: rest =>
    Stored heap start block previous (entry following (start + block.span) rest) ∧
      Linked heap following start (start + block.span) rest

/-- The bytes of a row of blocks that belong to the heap. -/
def Owned : ℕ → List Block → ℕ → Prop
  | _, [], _ => False
  | start, block :: rest, place =>
    block.Owns start place ∨ Owned (start + block.span) rest place

variable {heap other : Heap} {address previous next following start place : ℕ} {block : Block}
  {blocks before middle after : List Block}

theorem Block.Owns.bounds (h : block.Owns address place) :
    address ≤ place ∧ place < address + block.span := by
  unfold Block.span
  rcases h with h | ⟨hused, h⟩
  · omega
  · have hfits := block.fits (Nat.pos_of_ne_zero hused)
    omega

theorem Owned.bounds (h : Owned start blocks place) :
    start ≤ place ∧ place < start + total blocks := by
  induction blocks generalizing start with
  | nil => exact h.elim
  | cons block rest ih =>
    rw [total_cons]
    rcases h with h | h
    · have := h.bounds
      omega
    · have := ih h
      omega

theorem Stored.congr (h : Stored heap address block previous next)
    (hsame : ∀ place, block.Owns address place → other.memory place = heap.memory place) :
    Stored other address block previous next where
  header name := by
    rw [← h.header name]
    exact Heap.read_congr fun place hle hlt ↦ hsame place (.inl ⟨hle, hlt⟩)
  canary hused := by
    rw [← h.canary hused]
    exact readDword_congr fun place hle hlt ↦ hsame place (.inr ⟨hused, hle, hlt⟩)

theorem Linked.congr (h : Linked heap following previous start blocks)
    (hsame : ∀ place, Owned start blocks place → other.memory place = heap.memory place) :
    Linked other following previous start blocks := by
  induction blocks generalizing previous start with
  | nil => trivial
  | cons block rest ih =>
    exact ⟨h.1.congr fun place hplace ↦ hsame place (.inl hplace),
      ih h.2 fun place hplace ↦ hsame place (.inr hplace)⟩

/-- A row is linked when its two parts are, each with the other behind it or before it. -/
theorem linked_append (first second : List Block) :
    Linked heap following previous start (first ++ second) ↔
      Linked heap (entry following (start + total first) second) previous start first ∧
        Linked heap following (exit previous start first) (start + total first) second := by
  induction first generalizing previous start with
  | nil => simp [Linked, exit]
  | cons block rest ih =>
    rw [List.cons_append, Linked, Linked, ih, entry_append, total_cons, ← Nat.add_assoc, exit,
      and_assoc]

/-- A row whose first block points back to another place. -/
theorem Linked.relink {before' : ℕ} (h : Linked heap following previous start blocks)
    (hhead : blocks ≠ [] → ∀ name, other.read start name =
      if name = .previous then UInt32.ofNat before' else heap.read start name)
    (hsame : ∀ place, start + headerSize ≤ place → other.memory place = heap.memory place) :
    Linked other following before' start blocks := by
  cases blocks with
  | nil => trivial
  | cons block rest =>
    refine ⟨⟨fun name ↦ ?_, fun hused ↦ ?_⟩, h.2.congr fun place hplace ↦ hsame place ?_⟩
    · rw [hhead (List.cons_ne_nil _ _), h.1.header]
      cases name <;> rfl
    · rw [← h.1.canary hused]
      exact readDword_congr fun place hle _ ↦ hsame place (by omega)
    · have hbounds := hplace.bounds
      unfold Block.span at hbounds
      omega

section

variable {middle' : List Block} (hne : middle ≠ []) (hne' : middle' ≠ [])
include hne hne'

/-- The end of a row is replaced by another. -/
theorem Linked.replace_end {behind high : ℕ}
    (h : Linked heap following previous start (before ++ middle))
    (hmiddle : Linked other behind (exit previous start before) (start + total before) middle')
    (hsame : SameOutside (start + total before) high heap other) :
    Linked other behind previous start (before ++ middle') := by
  obtain ⟨first, rest, rfl⟩ := List.exists_cons_of_ne_nil hne
  obtain ⟨first', rest', rfl⟩ := List.exists_cons_of_ne_nil hne'
  rw [linked_append] at h ⊢
  exact ⟨h.1.congr fun place hplace ↦ hsame place (.inl hplace.bounds.2), hmiddle⟩

/-- A part of a row is replaced by another of the same size. -/
theorem Linked.replace
    (h : Linked heap following previous start (before ++ (middle ++ after)))
    (hmiddle : Linked other (entry following (start + total before + total middle) after)
      (exit previous start before) (start + total before) middle')
    (htotal : total middle' = total middle)
    (hhead : after ≠ [] → ∀ name, other.read (start + total before + total middle) name =
      if name = .previous then
        UInt32.ofNat (exit (exit previous start before) (start + total before)
        middle') else heap.read (start + total before + total middle) name)
    (hsame : SameOutside (start + total before) (start + total before + total middle + headerSize)
      heap other) :
    Linked other following previous start (before ++ (middle' ++ after)) := by
  refine h.replace_end (List.append_ne_nil_of_left_ne_nil hne _)
    (List.append_ne_nil_of_left_ne_nil hne' _) ?_ hsame
  rw [linked_append] at h ⊢
  have hrest := ((linked_append _ _).1 h.2).2
  rw [htotal]
  exact ⟨hmiddle, hrest.relink hhead fun place hle ↦ hsame place (.inr hle)⟩

end

/-- One block of a row is replaced by another of the same size. -/
theorem Linked.exchange {block' : Block}
    (h : Linked heap following previous start (before ++ block :: after))
    (hblock : Stored other (start + total before) block' (exit previous start before)
      (entry following (start + total before + block.span) after))
    (hspan : block'.span = block.span)
    (hsame : SameOutside (start + total before) (start + total before + block.span) heap other) :
    Linked other following previous start (before ++ block' :: after) := by
  refine h.replace_end (List.cons_ne_nil _ _) (List.cons_ne_nil _ _) ⟨?_, ?_⟩ hsame
  · rw [hspan]
    exact hblock
  · rw [hspan]
    exact ((linked_append _ _).1 h).2.2.congr fun place hplace ↦ hsame place (.inr hplace.bounds.1)

/-! ### Reading a row -/

theorem exit_le (h : previous ≤ start) : exit previous start blocks ≤ start + total blocks := by
  induction blocks generalizing previous start with
  | nil => exact h
  | cons block rest ih =>
    have hrest : exit start (start + block.span) rest ≤ _ := ih (Nat.le_add_right _ _)
    rw [exit, total_cons]
    omega

theorem exit_concat : exit previous start (before ++ [block]) = start + total before := by
  rw [exit_append]
  rfl

theorem toNat_word {value : ℕ} (h : value ≤ heapStart + heapMaxSize) :
    (UInt32.ofNat value).toNat = value := by
  have hlt : value < 2 ^ 32 := by
    have hfacts := heapStart_facts
    omega
  exact UInt32.toNat_ofNat_of_lt' hlt

/-- A heap whose row of blocks lies inside the mapped bytes. -/
structure Laid (heap : Heap) (blocks : List Block) : Prop where
  linked : Linked heap 0 0 heapStart blocks
  within : total blocks ≤ heap.mappedBytes
  bounded : heap.mappedBytes ≤ heapMaxSize

theorem heapStart_add_concat :
    heapStart + total (before ++ [block]) = heapStart + total before + block.span := by
  rw [total_append, total_cons, total_nil, Nat.add_zero, Nat.add_assoc]

namespace Laid

variable (h : Laid heap (before ++ block :: after))
include h

/-- The walk goes on behind the block. -/
theorem concat : Laid heap ((before ++ [block]) ++ after) := by
  rw [List.append_assoc]
  exact h

theorem stored : Stored heap (heapStart + total before) block (exit 0 heapStart before)
    (entry 0 (heapStart + total before + block.span) after) :=
  ((linked_append _ _).1 h.linked).2.1

theorem bounds : total before + block.span + total after ≤ heap.mappedBytes ∧
    heap.mappedBytes ≤ heapMaxSize ∧ block.span = 32 + block.capacity := by
  have hwithin := h.within
  rw [total_append, total_cons] at hwithin
  exact ⟨by omega, h.bounded, rfl⟩

theorem capacity_eq : heap.capacity (heapStart + total before) = block.capacity := by
  have hbounds := h.bounds
  unfold Heap.capacity
  rw [h.stored.header]
  exact toNat_word (by omega)

theorem requested_eq : heap.requested (heapStart + total before) = block.requested := by
  have hbounds := h.bounds
  have hfits : 0 < block.requested → block.requested + 4 ≤ block.capacity := block.fits
  unfold Heap.requested
  rw [h.stored.header]
  exact toNat_word (by omega)

theorem next_eq : heap.next (heapStart + total before) =
    entry 0 (heapStart + total before + block.span) after := by
  have hbounds := h.bounds
  unfold Heap.next
  rw [h.stored.header]
  refine toNat_word ?_
  cases after with
  | nil => exact Nat.zero_le _
  | cons => rw [entry]; omega

theorem previous_eq : heap.previous (heapStart + total before) = exit 0 heapStart before := by
  have hbounds := h.bounds
  have hexit : exit 0 heapStart before ≤ heapStart + total before := exit_le (Nat.zero_le _)
  unfold Heap.previous
  rw [h.stored.header]
  exact toNat_word (by omega)

theorem isFree_eq : heap.isFree (heapStart + total before) = decide block.free := by
  unfold Heap.isFree
  rw [h.stored.header, Block.header]
  by_cases hfree : block.free
  · rw [if_pos hfree, decide_eq_true hfree]
    rfl
  · rw [if_neg hfree, decide_eq_false hfree]
    rfl

theorem blockCookie_eq : heap.blockCookie (heapStart + total before) =
    block.cookie (heapStart + total before) := by
  unfold Heap.blockCookie
  rw [h.stored.header, h.stored.header]
  rfl

theorem cookie_eq : heap.read (heapStart + total before) .cookie =
    heap.blockCookie (heapStart + total before) := by
  rw [h.blockCookie_eq, h.stored.header]
  rfl

theorem blockIsValid : heap.blockIsValid (heapStart + total before) = true := by
  have hbounds := h.bounds
  have hcapacity := h.capacity_eq
  have hmagic : heap.read (heapStart + total before) .magic = heapBlockMagic := h.stored.header _
  have hheader : headerSize = 32 := rfl
  unfold Heap.blockIsValid Heap.heapEnd
  rw [h.cookie_eq, hmagic, hcapacity]
  simp only [beq_self_eq_true, Bool.and_true, Bool.and_eq_true, decide_eq_true_eq]
  omega

theorem canaryIsValid (hused : ¬ block.free) :
    heap.canaryIsValid (heapStart + total before) = true := by
  unfold Heap.canaryIsValid Heap.blockCanary
  rw [h.requested_eq, h.stored.canary hused, h.stored.header]
  exact beq_self_eq_true _

end Laid

end EfesOS.Memory.KernelHeap
