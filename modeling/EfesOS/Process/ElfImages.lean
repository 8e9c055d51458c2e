import EfesOS.Process.ElfLoader

/-!
# What the ELF parser accepts

The bytes of an image say where its program headers are and what they are (`Bytes.headerAt`). For an
image that `elf_validate_image` accepts the header table lies inside it and every loadable header
names bytes of the image and addresses below the user limit (`Accepted`). `yields_elfValidateImage`
shows so, and that no check on the way there reads behind the end of the image or wraps. The same is
shown of the functions that find the place of an image and of a segment: `yields_imageBounds`,
`yields_chooseBias` and `yields_placeSegment`.
-/

set_option autoImplicit false

namespace EfesOS.Process.Elf

open EfesOS.Foundation EfesOS.Foundation.Checked EfesOS.Memory

variable {allowed : Fault → Prop} {data : Bytes} {size : UInt32}

/-! ### Values of the file -/

namespace Bytes

/-- The 16-bit value at an offset. -/
def half (data : Bytes) (offset : ℕ) : UInt32 :=
  (data offset).toUInt32 ||| (data (offset + 1)).toUInt32 <<< 8

/-- The 32-bit value at an offset. -/
def word (data : Bytes) (offset : ℕ) : UInt32 :=
  (data offset).toUInt32 ||| (data (offset + 1)).toUInt32 <<< 8 |||
    (data (offset + 2)).toUInt32 <<< 16 ||| (data (offset + 3)).toUInt32 <<< 24

def imageType (data : Bytes) : UInt32 := data.half 16

def entryPoint (data : Bytes) : UInt32 := data.word 24

def phoff (data : Bytes) : UInt32 := data.word 28

def phnum (data : Bytes) : UInt32 := data.half 44

/-- Where a program header is. -/
def headerPlace (data : Bytes) (index : ℕ) : ℕ := data.phoff.toNat + 32 * index

def typeAt (data : Bytes) (index : ℕ) : UInt32 := data.word (data.headerPlace index)

def headerAt (data : Bytes) (index : ℕ) : ProgramHeader where
  fileOffset := data.word (data.headerPlace index + 4)
  virtualAddress := data.word (data.headerPlace index + 8)
  fileSize := data.word (data.headerPlace index + 16)
  memorySize := data.word (data.headerPlace index + 20)
  flags := data.word (data.headerPlace index + 24)
  alignment := data.word (data.headerPlace index + 28)

end Bytes

variable {offset : UInt32}

theorem fetch_eq (hinside : offset.toNat < size.toNat) :
    fetch data size offset = .ok (data offset.toNat) :=
  if_pos (UInt32.lt_iff_toNat_lt.2 hinside)

theorem toNat_add_of_lt {first second : UInt32} (hfits : first.toNat + second.toNat < 2 ^ 32) :
    (first + second).toNat = first.toNat + second.toNat := by
  rw [UInt32.toNat_add, Nat.mod_eq_of_lt hfits]

theorem readByte_eq {step : UInt32} (hinside : offset.toNat + step.toNat < size.toNat) :
    readByte data size offset step = .ok (data (offset.toNat + step.toNat)) := by
  have hfits : offset.toNat + step.toNat < 2 ^ 32 := hinside.trans size.toNat_lt
  have hnat := toNat_add_of_lt hfits
  rw [readByte, add_eq hfits, ok_bind, fetch_eq (hnat ▸ hinside), hnat]

theorem readU16_eq (hinside : offset.toNat + 2 ≤ size.toNat) :
    readU16 data size offset = .ok (data.half offset.toNat) := by
  have hone : (1 : UInt32).toNat = 1 := rfl
  rw [readU16, fetch_eq (by omega), ok_bind, readByte_eq (by omega), ok_bind]
  rfl

theorem readU32_eq (hinside : offset.toNat + 4 ≤ size.toNat) :
    readU32 data size offset = .ok (data.word offset.toNat) := by
  have hone : (1 : UInt32).toNat = 1 := rfl
  have htwo : (2 : UInt32).toNat = 2 := rfl
  have hthree : (3 : UInt32).toNat = 3 := rfl
  rw [readU32, fetch_eq (by omega), ok_bind, readByte_eq (by omega), ok_bind,
    readByte_eq (by omega), ok_bind, readByte_eq (by omega), ok_bind]
  rfl

theorem readField_eq {field : UInt32} (hinside : offset.toNat + field.toNat + 4 ≤ size.toNat) :
    readField data size offset field = .ok (data.word (offset.toNat + field.toNat)) := by
  have hsize := size.toNat_lt
  have hnat : (offset + field).toNat = offset.toNat + field.toNat := toNat_add_of_lt (by omega)
  rw [readField, add_eq (by omega), ok_bind, readU32_eq (by omega), hnat]

section Header

variable (data : Bytes) (hwhole : 52 ≤ size.toNat)

include hwhole

theorem readU16_type : readU16 data size elfTypeOffset = .ok data.imageType :=
  readU16_eq (show 16 + 2 ≤ size.toNat by omega)

theorem readU32_phoff : readU32 data size elfPhoffOffset = .ok data.phoff :=
  readU32_eq (show 28 + 4 ≤ size.toNat by omega)

theorem readU16_phnum : readU16 data size elfPhnumOffset = .ok data.phnum :=
  readU16_eq (show 44 + 2 ≤ size.toNat by omega)

theorem readU32_entry : readU32 data size elfEntryOffset = .ok data.entryPoint :=
  readU32_eq (show 24 + 4 ≤ size.toNat by omega)

end Header

/-- The header table of an image lies inside it. -/
def TableInside (data : Bytes) (size : UInt32) : Prop :=
  data.phoff.toNat + 32 * data.phnum.toNat ≤ size.toNat

variable {index : ℕ}

theorem TableInside.header (htable : TableInside data size) (hindex : index < data.phnum.toNat) :
    data.headerPlace index + 32 ≤ size.toNat := by
  unfold TableInside at htable
  unfold Bytes.headerPlace
  omega

section

variable (hinside : data.headerPlace index + 32 ≤ size.toNat)
include hinside

theorem exists_headerOffset :
    ∃ offset, headerOffset data.phoff index = .ok offset ∧
      offset.toNat = data.headerPlace index := by
  have hsize := size.toNat_lt
  unfold Bytes.headerPlace at hinside ⊢
  have hindex : (UInt32.ofNat index).toNat = index := by
    rw [UInt32.toNat_ofNat']
    omega
  have hfactor : index * elf32ProgramHeaderSize.toNat = 32 * index := Nat.mul_comm index 32
  have hproduct : (UInt32.ofNat index * elf32ProgramHeaderSize).toNat = 32 * index := by
    rw [UInt32.toNat_mul, hindex, hfactor]
    omega
  refine ⟨data.phoff + UInt32.ofNat index * elf32ProgramHeaderSize, ?_, ?_⟩
  · rw [headerOffset, mul_eq (by rw [hindex, hfactor]; omega), ok_bind, add_eq (by omega)]
  · rw [UInt32.toNat_add, hproduct]
    omega

theorem readField_header {field : UInt32} (hoffset : offset.toNat = data.headerPlace index)
    (hfield : field.toNat + 4 ≤ 32) :
    readField data size offset field = .ok (data.word (data.headerPlace index + field.toNat)) := by
  rw [readField_eq (by omega), hoffset]

theorem readProgramHeader_eq (hoffset : offset.toNat = data.headerPlace index) :
    readProgramHeader data size offset = .ok (data.headerAt index) := by
  rw [readProgramHeader, readField_header hinside hoffset (by decide), ok_bind,
    readField_header hinside hoffset (by decide), ok_bind,
    readField_header hinside hoffset (by decide), ok_bind,
    readField_header hinside hoffset (by decide), ok_bind,
    readField_header hinside hoffset (by decide), ok_bind,
    readField_header hinside hoffset (by decide), ok_bind]
  rfl

end

/-! ### Ranges of addresses -/

theorem rangeIsInside_eq (offset length limit : UInt32) :
    rangeIsInside offset length limit =
      .ok (decide (offset.toNat + length.toNat ≤ limit.toNat)) := by
  unfold rangeIsInside
  split
  · rename_i hle
    have hnat := UInt32.toNat_sub_of_le limit offset hle
    have hleNat := UInt32.le_iff_toNat_le.1 hle
    rw [sub_eq hle, ok_bind]
    refine congrArg Except.ok (decide_eq_decide.2 ?_)
    rw [UInt32.le_iff_toNat_le, hnat]
    omega
  · rename_i hgt
    rw [UInt32.not_le, UInt32.lt_iff_toNat_lt] at hgt
    refine congrArg Except.ok (decide_eq_false ?_).symm
    omega

/-- The addresses of a segment meet the ones set aside for stacks. -/
def MeetsStacks (address length : UInt32) : Prop :=
  length ≠ 0 ∧ address.toNat < 0x01800000 ∧ 0x00800000 < address.toNat + length.toNat
  deriving Decidable

theorem overlapsReservedStack_eq (address length : UInt32) :
    overlapsReservedStack address length = .ok (decide (MeetsStacks address length)) := by
  have hreserved : userStackReservedEnd.toNat = 0x01800000 := rfl
  have hbase : userStackReservedBase.toNat = 0x00800000 := rfl
  have hmost : (0xFFFFFFFF : UInt32).toNat = 0xFFFFFFFF := rfl
  unfold overlapsReservedStack
  split
  · rename_i hoff
    refine congrArg Except.ok (decide_eq_false ?_).symm
    rintro ⟨hlength, hbelow, -⟩
    rcases hoff with hzero | hle
    · exact hlength hzero
    · rw [UInt32.le_iff_toNat_le] at hle
      omega
  · rename_i hon
    obtain ⟨hlength, hbelow⟩ := not_or.1 hon
    rw [UInt32.not_le, UInt32.lt_iff_toNat_lt, hreserved] at hbelow
    have hle : address ≤ 0xFFFFFFFF := UInt32.le_iff_toNat_le.2 (by omega)
    have hroom : ((0xFFFFFFFF : UInt32) - address).toNat = 0xFFFFFFFF - address.toNat := by
      rw [UInt32.toNat_sub_of_le _ _ hle, hmost]
    rw [sub_eq hle, ok_bind]
    split
    · rename_i hlong
      rw [UInt32.lt_iff_toNat_lt, hroom] at hlong
      exact congrArg Except.ok (decide_eq_true ⟨hlength, hbelow, by omega⟩).symm
    · rename_i hshort
      rw [UInt32.lt_iff_toNat_lt, hroom] at hshort
      rw [add_eq (by omega), ok_bind]
      refine congrArg Except.ok (decide_eq_decide.2 ?_)
      rw [UInt32.lt_iff_toNat_lt, toNat_add_of_lt (by omega), hbase]
      exact ⟨fun hend ↦ ⟨hlength, hbelow, hend⟩, fun hmeets ↦ hmeets.2.2⟩

theorem toNat_pageStart (address : UInt32) :
    (pageStart address).toNat = address.toNat / 4096 * 4096 := toNat_and_pageAddressMask address

theorem aligned_pageStart (address : UInt32) : Aligned (pageStart address) :=
  aligned_and_mask address

/-- The end of the pages of a segment. -/
def roundUp (address : UInt32) : UInt32 := (address + pageSize - 1) &&& pageAddressMask

theorem aligned_roundUp (address : UInt32) : Aligned (roundUp address) := aligned_and_mask _

section RoundUp

variable {segmentEnd : UInt32} (hlow : segmentEnd.toNat ≤ 0x40000000)

include hlow

theorem toNat_add_pageSize : (segmentEnd + pageSize).toNat = segmentEnd.toNat + 4096 := by
  have hpage : pageSize.toNat = 4096 := rfl
  rw [toNat_add_of_lt (by omega), hpage]

theorem one_le_add_pageSize : (1 : UInt32) ≤ segmentEnd + pageSize := by
  rw [UInt32.le_iff_toNat_le, toNat_add_pageSize hlow, show (1 : UInt32).toNat = 1 from rfl]
  omega

theorem toNat_roundUp : (roundUp segmentEnd).toNat = (segmentEnd.toNat + 4095) / 4096 * 4096 := by
  rw [roundUp, toNat_and_pageAddressMask, UInt32.toNat_sub_of_le _ _ (one_le_add_pageSize hlow),
    toNat_add_pageSize hlow, show (1 : UInt32).toNat = 1 from rfl, Nat.add_sub_assoc (by decide)]

theorem pageEnd_eq : pageEnd segmentEnd = .ok (roundUp segmentEnd) := by
  have hpage : pageSize.toNat = 4096 := rfl
  rw [pageEnd, add_eq (by omega), ok_bind, sub_eq (one_le_add_pageSize hlow), ok_bind]
  rfl

end RoundUp

/-! ### Segments -/

/-- A segment has its bytes in the image and its addresses below the user limit. -/
structure Admitted (size : UInt32) (header : ProgramHeader) : Prop where
  contents : header.fileSize.toNat ≤ header.memorySize.toNat
  inside : header.fileOffset.toNat + header.fileSize.toNat ≤ size.toNat
  fits : header.virtualAddress.toNat + header.memorySize.toNat ≤ 0x40000000
  exclusive : ¬(header.isWritable ∧ header.isExecutable)

/-- The entry of an image is an address of a segment that can be executed. -/
structure HoldsEntry (imageEntry : UInt32) (header : ProgramHeader) : Prop where
  executable : header.isExecutable
  above : header.virtualAddress.toNat ≤ imageEntry.toNat
  below : imageEntry.toNat < header.virtualAddress.toNat + header.memorySize.toNat

section Segments

variable {imageType imageEntry : UInt32} {header : ProgramHeader}

theorem yields_segmentIsPlaced (htype : imageType = elfEtExec ∨ imageType = elfEtDyn) :
    Yields allowed (segmentIsPlaced imageType size header) fun placed ↦ placed = true →
      header.fileSize.toNat ≤ header.memorySize.toNat ∧
        header.fileOffset.toNat + header.fileSize.toNat ≤ size.toNat ∧
        header.virtualAddress.toNat + header.memorySize.toNat ≤ 0x40000000 := by
  rw [segmentIsPlaced, rangeIsInside_eq, ok_bind]
  refine yields_unless Bool.noConfusion fun hchecked ↦ ?_
  simp only [not_or, not_and, UInt32.not_lt, UInt32.not_le, Bool.not_eq_false,
    decide_eq_true_eq] at hchecked
  obtain ⟨hcontents, hinside, hexec, hdyn⟩ := hchecked
  have hbelow : header.virtualAddress < userMaxAddress := by
    rcases htype with hexecType | hdynType
    · exact (hexec hexecType).2
    · exact hdyn hdynType
  have hroom := UInt32.toNat_sub_of_le _ _ (UInt32.le_of_lt hbelow)
  rw [sub_eq (UInt32.le_of_lt hbelow), ok_bind, overlapsReservedStack_eq, ok_bind]
  refine yields_unless Bool.noConfusion fun hfits ↦ yields_pure.2 fun _ ↦ ?_
  rw [UInt32.not_lt, UInt32.le_iff_toNat_le, hroom] at hfits
  have hbelowNat := UInt32.lt_iff_toNat_lt.1 hbelow
  have hmax : userMaxAddress.toNat = 0x40000000 := rfl
  exact ⟨UInt32.le_iff_toNat_le.1 hcontents, hinside, by omega⟩

theorem yields_entryIsIn : Yields allowed (entryIsIn imageEntry header) fun hit ↦
    hit = true → HoldsEntry imageEntry header := by
  refine yields_ite.2 ⟨fun ⟨hexecutable, hle⟩ ↦ ?_, fun _ ↦ yields_pure.2 Bool.noConfusion⟩
  rw [sub_eq hle, ok_bind, yields_pure]
  intro hhit
  have hlt := UInt32.lt_iff_toNat_lt.1 (of_decide_eq_true hhit)
  have hleNat := UInt32.le_iff_toNat_le.1 hle
  rw [UInt32.toNat_sub_of_le _ _ hle] at hlt
  exact ⟨hexecutable, hleNat, by omega⟩

/-- What the loop over the headers keeps of its counters: they do not wrap in so many turns. -/
structure Tally.Small (tally : Tally) (turns : ℕ) : Prop where
  pages : tally.loadPages.toNat ≤ elfMaxImagePages
  segments : tally.loadSegments.toNat + turns < 2 ^ 32

variable {tally : Tally} {turns : ℕ}

section

variable (hsmall : tally.Small (turns + 1))
include hsmall

/-- A counter moves by at most one in a turn. -/
theorem Tally.Small.weaken :
    tally.Small turns := ⟨hsmall.pages, by have := hsmall.segments; omega⟩

theorem yields_countContents :
    Yields allowed (countContents header tally) fun segments ↦ segments.toNat + turns < 2 ^ 32 := by
  have hroom := hsmall.segments
  have hone : (1 : UInt32).toNat = 1 := rfl
  refine yields_ite.2 ⟨fun _ ↦ yields_add_of_lt (by omega) fun hnat ↦ ?_, fun _ ↦ ?_⟩
  · omega
  · rw [yields_pure]
    omega

theorem yields_countSegment
    (hfits : header.virtualAddress.toNat + header.memorySize.toNat ≤ 0x40000000) :
    Yields allowed (countSegment imageType imageEntry header tally) fun result ↦
      ∀ counted, result = some counted → counted.Small turns ∧
        (counted.entryExecutable = true →
          tally.entryExecutable = true ∨ HoldsEntry imageEntry header) := by
  have hsum : (header.virtualAddress + header.memorySize).toNat =
      header.virtualAddress.toNat + header.memorySize.toNat := toNat_add_of_lt (by omega)
  have hlow : (header.virtualAddress + header.memorySize).toNat ≤ 0x40000000 := by omega
  have hfirst := toNat_pageStart header.virtualAddress
  have hlast := toNat_roundUp hlow
  have hle : pageStart header.virtualAddress ≤ roundUp
      (header.virtualAddress + header.memorySize) :=
    UInt32.le_iff_toNat_le.2 (by omega)
  rw [countSegment, add_eq (by omega), ok_bind, pageEnd_eq hlow, ok_bind]
  refine yields_unless (by simp) fun _ ↦ ?_
  rw [sub_eq hle, ok_bind]
  generalize (roundUp (header.virtualAddress + header.memorySize) -
    pageStart header.virtualAddress) / pageSize = segmentPages
  refine yields_unless (by simp) fun hfew ↦ ?_
  have hlimit : (UInt32.ofNat elfMaxImagePages).toNat = 1024 := rfl
  have hfewNat : segmentPages.toNat ≤ 1024 := UInt32.le_iff_toNat_le.1 (UInt32.not_lt.1 hfew)
  rw [sub_eq (UInt32.not_lt.1 hfew), ok_bind]
  refine yields_unless (by simp) fun hleft ↦ ?_
  rw [UInt32.not_lt, UInt32.le_iff_toNat_le, UInt32.toNat_sub_of_le _ _ (UInt32.not_lt.1 hfew),
    hlimit] at hleft
  refine yields_unless (by simp) fun _ ↦ ?_
  have hpages : (tally.loadPages + segmentPages).toNat =
      tally.loadPages.toNat + segmentPages.toNat := toNat_add_of_lt (by omega)
  rw [add_eq (by omega), ok_bind]
  refine (yields_countContents hsmall).bind fun segments hroom ↦ ?_
  refine yields_entryIsIn.bind fun hit hentry ↦ yields_some.2 ⟨⟨?_, hroom⟩, fun hexecutable ↦ ?_⟩
  · change (tally.loadPages + segmentPages).toNat ≤ 1024
    omega
  · exact ((Bool.or_eq_true _ _).mp hexecutable).imp_right hentry

theorem yields_validateSegment (htype : imageType = elfEtExec ∨ imageType = elfEtDyn) :
    Yields allowed (validateSegment imageType imageEntry size header tally) fun result ↦
      ∀ counted, result = some counted → Admitted size header ∧ counted.Small turns ∧
        (counted.entryExecutable = true →
          tally.entryExecutable = true ∨ HoldsEntry imageEntry header) := by
  refine (yields_segmentIsPlaced htype).bind fun placed hplaced ↦ ?_
  refine yields_unless (by simp) fun hchecked ↦ ?_
  obtain ⟨hplacedTrue, hflags⟩ := not_or.1 hchecked
  obtain ⟨hcontents, hinside, hfits⟩ := hplaced (Bool.not_eq_false _ ▸ hplacedTrue)
  have hexclusive : ¬(header.isWritable ∧ header.isExecutable) := by
    intro ⟨hwritable, hexecutable⟩
    exact hflags (by simp [flagsAreSupported, hwritable, hexecutable])
  have hadmitted : Admitted size header := ⟨hcontents, hinside, hfits, hexclusive⟩
  refine yields_ite.2 ⟨fun _ ↦ ?_, fun _ ↦ ?_⟩
  · exact yields_some.2 ⟨hadmitted, hsmall.weaken, Or.inl⟩
  · exact (yields_countSegment hsmall hfits).mono fun result hresult counted hcounted ↦
      ⟨hadmitted, hresult counted hcounted⟩

end

end Segments

/-! ### Images -/

theorem yields_validateHeaders (htable : TableInside data size) {imageEntry : UInt32}
    (htype : data.imageType = elfEtExec ∨ data.imageType = elfEtDyn) (indices : List ℕ)
    (hindices : ∀ index ∈ indices, index < data.phnum.toNat) (tally : Tally)
    (hsmall : tally.Small indices.length) :
    Yields allowed
      (validateHeaders data size data.phoff data.imageType imageEntry indices tally) fun result ↦
      ∀ final, result = some final →
        (∀ index ∈ indices, data.typeAt index = elfPtLoad → Admitted size (data.headerAt index)) ∧
        (final.entryExecutable = true → tally.entryExecutable = true ∨
          ∃ index ∈ indices, data.typeAt index = elfPtLoad ∧
            HoldsEntry imageEntry (data.headerAt index)) := by
  induction indices generalizing tally with
  | nil => exact yields_some.2 ⟨fun _ hmem ↦ absurd hmem List.not_mem_nil, Or.inl⟩
  | cons index rest ih =>
    have hinside := htable.header (hindices index List.mem_cons_self)
    have hrest : ∀ other ∈ rest, other < data.phnum.toNat :=
      fun other hother ↦ hindices other (List.mem_cons_of_mem index hother)
    obtain ⟨offset, hoffset, hoffsetNat⟩ := exists_headerOffset hinside
    rw [validateHeaders, hoffset, ok_bind, readField_header hinside hoffsetNat (by decide), ok_bind]
    refine yields_unless (by simp) fun _ ↦ ?_
    refine yields_ite.2 ⟨fun hother ↦ ?_, fun hload ↦ ?_⟩
    · refine (ih hrest tally hsmall.weaken).mono fun result hresult final hfinal ↦ ?_
      obtain ⟨hadmitted, hentry⟩ := hresult final hfinal
      refine ⟨fun other hmem ↦ ?_, fun hexecutable ↦ ?_⟩
      · rcases List.mem_cons.1 hmem with rfl | hmem
        · exact fun hload ↦ absurd hload hother
        · exact hadmitted other hmem
      · refine (hentry hexecutable).imp_right fun ⟨other, hmem, hholds⟩ ↦ ?_
        exact ⟨other, List.mem_cons_of_mem index hmem, hholds⟩
    · have hloadEq : data.typeAt index = elfPtLoad := not_not.1 hload
      rw [readProgramHeader_eq hinside hoffsetNat, ok_bind]
      refine (yields_validateSegment hsmall htype).bind fun counted hcounted ↦ ?_
      cases counted with
      | none => exact yields_none
      | some counted =>
        obtain ⟨hadmitted, hcountedSmall, hcountedEntry⟩ := hcounted counted rfl
        refine (ih hrest counted hcountedSmall).mono fun result hresult final hfinal ↦ ?_
        obtain ⟨hadmittedRest, hentry⟩ := hresult final hfinal
        refine ⟨fun other hmem hotherLoad ↦ ?_, fun hexecutable ↦ ?_⟩
        · rcases List.mem_cons.1 hmem with rfl | hmem
          · exact hadmitted
          · exact hadmittedRest other hmem hotherLoad
        · rcases hentry hexecutable with hcountedExecutable | ⟨other, hmem, hholds⟩
          · exact (hcountedEntry hcountedExecutable).imp_right fun hholds ↦
              ⟨index, List.mem_cons_self, hloadEq, hholds⟩
          · exact .inr ⟨other, List.mem_cons_of_mem index hmem, hholds⟩

/-- What the parser knows of an image that it accepts. -/
structure Accepted (data : Bytes) (size imageEntry : UInt32) : Prop where
  whole : 52 ≤ size.toNat
  type : data.imageType = elfEtExec ∨ data.imageType = elfEtDyn
  few : data.phnum.toNat ≤ 32
  table : TableInside data size
  entry : imageEntry = data.entryPoint
  segments : ∀ index < data.phnum.toNat, data.typeAt index = elfPtLoad →
    Admitted size (data.headerAt index)
  starts : ∃ index < data.phnum.toNat, data.typeAt index = elfPtLoad ∧
    HoldsEntry imageEntry (data.headerAt index)

theorem headerIsSupported_eq (data : Bytes) (hwhole : 52 ≤ size.toNat) :
    ∃ supported, headerIsSupported data size = .ok supported ∧
      (supported = true → data.imageType = elfEtExec ∨ data.imageType = elfEtDyn) := by
  have hident : ∃ ident, [0, 1, 2, 3, 4, 5, 6].mapM (fetch data size) = .ok ident := by
    have hread : ∀ offset : UInt32, offset.toNat < 7 →
        fetch data size offset = .ok (data offset.toNat) :=
      fun offset hoffset ↦ fetch_eq (by omega)
    simp only [List.mapM_cons, List.mapM_nil]
    rw [hread 0 (by decide), hread 1 (by decide), hread 2 (by decide), hread 3 (by decide),
      hread 4 (by decide), hread 5 (by decide), hread 6 (by decide)]
    exact ⟨_, rfl⟩
  obtain ⟨ident, hident⟩ := hident
  have hmachine : elfMachineOffset.toNat = 18 := rfl
  have hversion : elfVersionOffset.toNat = 20 := rfl
  have hehsize : elfEhsizeOffset.toNat = 40 := rfl
  have hphentsize : elfPhentsizeOffset.toNat = 42 := rfl
  rw [headerIsSupported, hident, ok_bind, readU16_type data hwhole, ok_bind, readU16_eq (by omega),
    ok_bind, readU32_eq (by omega), ok_bind, readU16_eq (by omega), ok_bind,
    readU16_eq (by omega), ok_bind]
  refine ⟨_, rfl, fun hsupported ↦ ?_⟩
  simp only [Bool.and_eq_true, imageTypeIsSupported, Bool.or_eq_true, beq_iff_eq] at hsupported
  exact hsupported.1.1.1.1.2

theorem yields_elfValidateImage (image : Option Bytes) (size : UInt32) :
    Yields allowed (elfValidateImage image size) fun result ↦
      ∀ imageEntry, result = some imageEntry →
        ∃ data, image = some data ∧ Accepted data size imageEntry := by
  cases image with
  | none => exact yields_none
  | some data =>
    refine yields_unless (by simp) fun hwhole ↦ ?_
    have hwholeNat : 52 ≤ size.toNat := UInt32.le_iff_toNat_le.1 (UInt32.not_lt.1 hwhole)
    obtain ⟨supported, hsupported, htype⟩ := headerIsSupported_eq data hwholeNat
    rw [hsupported, ok_bind]
    refine yields_unless (by simp) fun hsupportedTrue ↦ ?_
    have hsupportedType := htype (Bool.not_eq_false _ ▸ hsupportedTrue)
    rw [readU16_type data hwholeNat, ok_bind, readU32_phoff data hwholeNat, ok_bind,
      readU16_phnum data hwholeNat, ok_bind]
    refine yields_unless (by simp) fun hcount ↦ ?_
    have hfew : data.phnum.toNat ≤ 32 :=
      UInt32.le_iff_toNat_le.1 (UInt32.not_lt.1 (not_or.1 hcount).2)
    have hheader : elf32ProgramHeaderSize.toNat = 32 := rfl
    have hproduct : (data.phnum * elf32ProgramHeaderSize).toNat = data.phnum.toNat * 32 := by
      rw [UInt32.toNat_mul, hheader]
      omega
    rw [mul_eq (by rw [hheader]; omega), ok_bind, rangeIsInside_eq, ok_bind]
    refine yields_unless (by simp) fun hinside ↦ ?_
    have htable : TableInside data size := by
      rw [Bool.not_eq_false, decide_eq_true_eq, hproduct] at hinside
      unfold TableInside
      omega
    rw [readU32_entry data hwholeNat, ok_bind]
    refine (yields_validateHeaders htable hsupportedType (List.range data.phnum.toNat)
      (fun index hindex ↦ List.mem_range.1 hindex) ⟨0, 0, false⟩
      ⟨Nat.zero_le _, ?_⟩).bind fun tally htally ↦ ?_
    · rw [List.length_range]
      change 0 + _ < 2 ^ 32
      omega
    · cases tally with
      | none => exact yields_none
      | some tally =>
        obtain ⟨hsegments, hexecutable⟩ := htally tally rfl
        refine yields_ite.2 ⟨fun haccepted ↦ yields_some.2 ?_,
          fun _ ↦ yields_none⟩
        obtain ⟨index, hindex, hload, hholds⟩ :=
          (hexecutable haccepted.2).resolve_left Bool.noConfusion
        exact ⟨data, rfl, hwholeNat, hsupportedType, hfew, htable, rfl,
          fun other hother ↦ hsegments other (List.mem_range.2 hother),
          index, List.mem_range.1 hindex, hload, hholds⟩

/-! ### Places -/

theorem yields_boundsOfHeaders (htable : TableInside data size) (imageType : UInt32)
    (indices : List ℕ) (hindices : ∀ index ∈ indices, index < data.phnum.toNat)
    (bounds : UInt32 × UInt32) :
    Yields allowed (boundsOfHeaders data size data.phoff imageType indices bounds)
      fun _ ↦ True := by
  induction indices generalizing bounds with
  | nil => exact yields_pure.2 trivial
  | cons index rest ih =>
    have hinside := htable.header (hindices index List.mem_cons_self)
    have hnext := ih fun other hother ↦ hindices other (List.mem_cons_of_mem index hother)
    obtain ⟨offset, hoffset, hoffsetNat⟩ := exists_headerOffset hinside
    rw [boundsOfHeaders, hoffset, ok_bind, readField_header hinside hoffsetNat (by decide), ok_bind]
    refine yields_ite.2 ⟨fun _ ↦ hnext bounds, fun _ ↦ ?_⟩
    rw [readField_header hinside hoffsetNat (by decide), ok_bind,
      readField_header hinside hoffsetNat (by decide), ok_bind]
    generalize data.word (data.headerPlace index + elfPtVaddrOffset.toNat) = virtualAddress
    generalize data.word (data.headerPlace index + elfPtMemszOffset.toNat) = memorySize
    refine yields_ite.2 ⟨fun _ ↦ hnext bounds, fun _ ↦ ?_⟩
    refine yields_unless trivial fun hbelow ↦ ?_
    have hle : virtualAddress ≤ userMaxAddress := UInt32.le_of_lt (UInt32.not_le.1 hbelow)
    rw [sub_eq hle, ok_bind]
    refine yields_unless trivial fun hfits ↦ ?_
    have hmax : userMaxAddress.toNat = 0x40000000 := rfl
    have hleNat := UInt32.le_iff_toNat_le.1 hle
    rw [UInt32.not_lt, UInt32.le_iff_toNat_le, UInt32.toNat_sub_of_le _ _ hle, hmax] at hfits
    have hsum : (virtualAddress + memorySize).toNat = virtualAddress.toNat + memorySize.toNat :=
      toNat_add_of_lt (by omega)
    rw [add_eq (by omega), ok_bind, pageEnd_eq (by omega), ok_bind]
    exact yields_ite.2 ⟨fun _ ↦ yields_pure.2 trivial, fun _ ↦ hnext _⟩

theorem yields_imageBounds (htable : TableInside data size) (imageType : UInt32) :
    Yields allowed (imageBounds data size data.phoff data.phnum imageType) fun _ ↦ True := by
  refine (yields_boundsOfHeaders htable imageType (List.range data.phnum.toNat)
    (fun index hindex ↦ List.mem_range.1 hindex) _).bind fun bounds _ ↦ ?_
  cases bounds with
  | none => exact yields_pure.2 trivial
  | some bounds => exact yields_ite.2 ⟨fun _ ↦ yields_pure.2 trivial, fun _ ↦ yields_pure.2 trivial⟩

theorem visitPages_eq {first last : UInt32} (hroom : last.toNat ≤ 2 ^ 32 - 4096) :
    visitPages first last = .ok (pagesBetween first last) := if_pos hroom

section Bias

variable {imageMin imageEnd : UInt32} (hordered : imageMin ≤ imageEnd)
  (hlimit : imageEnd ≤ userMaxAddress)

include hordered hlimit

theorem yields_biasFits {candidate : UInt32} (hcandidate : candidate.toNat < 0x30000000)
    (memory : Ram) : Yields allowed (biasFits imageMin imageEnd candidate memory) fun _ ↦ True := by
  have hmax : userMaxAddress.toNat = 0x40000000 := rfl
  have horderedNat := UInt32.le_iff_toNat_le.1 hordered
  have hlimitNat := UInt32.le_iff_toNat_le.1 hlimit
  have hstart : (candidate + imageMin).toNat = candidate.toNat + imageMin.toNat :=
    toNat_add_of_lt (by omega)
  have hstop : (candidate + imageEnd).toNat = candidate.toNat + imageEnd.toNat :=
    toNat_add_of_lt (by omega)
  have hspan : candidate + imageMin ≤ candidate + imageEnd :=
    UInt32.le_iff_toNat_le.2 (by omega)
  refine yields_unless trivial fun _ ↦ ?_
  rw [sub_eq hlimit, ok_bind]
  refine yields_unless trivial fun _ ↦ ?_
  rw [add_eq (by omega), ok_bind, add_eq (by omega), ok_bind, sub_eq hspan, ok_bind,
    overlapsReservedStack_eq, ok_bind]
  refine yields_unless trivial fun _ ↦ ?_
  rw [visitPages_eq (by omega), ok_bind]
  exact yields_pure.2 trivial

/-- A bias that the loader draws. -/
def IsDrawn (bias : UInt32) : Prop :=
  Aligned bias ∧ 0x02000000 ≤ bias.toNat ∧ bias.toNat < 0x30000000

omit hordered hlimit in
theorem exists_biasCandidate (state : UInt32) : ∃ candidate,
    biasCandidate state = .ok candidate ∧ IsDrawn candidate := by
  have hslot : (state % biasSlots).toNat < 0x2E000 := by
    exact Nat.mod_lt _ (by decide)
  have hpage : pageSize.toNat = 4096 := rfl
  have hbase : userDynBaseMin.toNat = 0x02000000 := rfl
  have hproduct : (state % biasSlots * pageSize).toNat = (state % biasSlots).toNat * 4096 := by
    rw [UInt32.toNat_mul, hpage]
    omega
  have hsum : (userDynBaseMin + state % biasSlots * pageSize).toNat =
      0x02000000 + (state % biasSlots).toNat * 4096 := by
    rw [toNat_add_of_lt (by omega), hproduct, hbase]
  refine ⟨userDynBaseMin + state % biasSlots * pageSize, ?_, ?_, by omega, by omega⟩
  · rw [biasCandidate, mul_eq (by rw [hpage]; omega), ok_bind, add_eq (by omega)]
  · rw [aligned_iff, hsum]
    change _ % 4096 = 0
    omega

theorem yields_tryBiases (source : BiasSource) (memory : Ram) (attempts : ℕ) (state : UInt32) :
    Yields allowed (tryBiases source imageMin imageEnd memory attempts state) fun result ↦
      ∀ bias, result.1 = some bias → IsDrawn bias := by
  induction attempts generalizing state with
  | zero => exact yields_pure.2 (by simp)
  | succ attempts ih =>
    obtain ⟨candidate, hcandidate, hdrawn⟩ := exists_biasCandidate (nextLoadBiasRandom source state)
    rw [tryBiases, hcandidate, ok_bind]
    refine (yields_biasFits hordered hlimit hdrawn.2.2 memory).bind fun fits _ ↦ ?_
    refine yields_ite.2 ⟨fun _ ↦ yields_pure.2 fun bias hbias ↦ ?_, fun _ ↦ ih _⟩
    obtain rfl := Option.some.inj hbias
    exact hdrawn

end Bias

theorem yields_dynBiasRange (source : BiasSource) (imageMin imageEnd : UInt32) (memory : Ram)
    (state : UInt32) : Yields allowed (dynBiasRange source imageMin imageEnd memory state)
      fun result ↦ ∀ bias, result.1 = some bias → IsDrawn bias := by
  refine yields_ite.2 ⟨fun _ ↦ yields_pure.2 (by simp), fun hchecked ↦ ?_⟩
  simp only [not_or, UInt32.not_lt] at hchecked
  obtain ⟨hordered, hlimit, -⟩ := hchecked
  rw [sub_eq hordered, ok_bind]
  refine yields_ite.2 ⟨fun _ ↦ yields_pure.2 (by simp), fun _ ↦ ?_⟩
  exact yields_tryBiases hordered hlimit source memory 32 state

/-- The bias of an image of a type. -/
def BiasOf (imageType bias : UInt32) : Prop :=
  imageType = elfEtDyn ∧ IsDrawn bias ∨ imageType ≠ elfEtDyn ∧ bias = 0

theorem BiasOf.lt {imageType bias : UInt32} (hbias : BiasOf imageType bias) :
    bias.toNat < 0x30000000 := by
  rcases hbias with ⟨-, hdrawn⟩ | ⟨-, rfl⟩
  · exact hdrawn.2.2
  · decide

theorem yields_chooseBias (source : BiasSource) (imageType relativeMin relativeEnd : UInt32)
    (memory : Ram) (random : UInt32) :
    Yields allowed (chooseBias source imageType relativeMin relativeEnd memory random)
      fun result ↦ ∀ bias, result.1 = some bias → BiasOf imageType bias := by
  refine yields_ite.2 ⟨fun hdyn ↦ ?_, fun hfixed ↦ ?_⟩
  · exact (yields_dynBiasRange source relativeMin relativeEnd memory random).mono
      fun result hresult bias hbias ↦ .inl ⟨hdyn, hresult bias hbias⟩
  · refine yields_ite.2 ⟨fun _ ↦ yields_pure.2 (by simp), fun _ ↦ ?_⟩
    exact yields_pure.2 fun bias hbias ↦ .inr ⟨hfixed, (Option.some.inj hbias).symm⟩

/-- What the loader checks before it maps the pages of a segment. -/
structure PlacedAt (loadBias : UInt32) (header : ProgramHeader) (place : Placement) : Prop where
  address : place.mappedAddress.toNat = header.virtualAddress.toNat + loadBias.toNat
  first : place.first = pageStart place.mappedAddress
  last : place.last.toNat =
    (place.mappedAddress.toNat + header.memorySize.toNat + 4095) / 4096 * 4096
  aligned : Aligned place.last
  above : 0x00400000 ≤ place.first.toNat
  below : place.last.toNat ≤ 0x40000000
  apart : ¬MeetsStacks place.mappedAddress header.memorySize

theorem yields_placeSegment {loadBias : UInt32} (header : ProgramHeader)
    (hbias : loadBias.toNat < 0x30000000) :
    Yields allowed (placeSegment loadBias header) fun result ↦
      ∀ place, result = some place → PlacedAt loadBias header place := by
  have hmost : (0xFFFFFFFF : UInt32).toNat = 0xFFFFFFFF := rfl
  have hmax : userMaxAddress.toNat = 0x40000000 := rfl
  have hmin : userMinAddress.toNat = 0x00400000 := rfl
  have hle : loadBias ≤ 0xFFFFFFFF := UInt32.le_iff_toNat_le.2 (by omega)
  rw [placeSegment, sub_eq hle, ok_bind]
  refine yields_unless (by simp) fun hhighest ↦ ?_
  rw [UInt32.not_lt, UInt32.le_iff_toNat_le, UInt32.toNat_sub_of_le _ _ hle, hmost] at hhighest
  have haddress : (header.virtualAddress + loadBias).toNat =
      header.virtualAddress.toNat + loadBias.toNat := toNat_add_of_lt (by omega)
  rw [add_eq (by omega), ok_bind]
  refine yields_unless (by simp) fun hbelow ↦ ?_
  have hbelowLe := UInt32.le_of_lt (UInt32.not_le.1 hbelow)
  have hbelowNat := UInt32.le_iff_toNat_le.1 hbelowLe
  rw [sub_eq hbelowLe, ok_bind]
  refine yields_unless (by simp) fun hfits ↦ ?_
  rw [UInt32.not_lt, UInt32.le_iff_toNat_le, UInt32.toNat_sub_of_le _ _ hbelowLe, hmax] at hfits
  have hsum : (header.virtualAddress + loadBias + header.memorySize).toNat =
      (header.virtualAddress + loadBias).toNat + header.memorySize.toNat :=
    toNat_add_of_lt (by omega)
  rw [add_eq (by omega), ok_bind, pageEnd_eq (by omega), ok_bind, overlapsReservedStack_eq, ok_bind]
  refine yields_ite.2 ⟨fun _ ↦ yields_none, fun hchecked ↦ yields_some.2 ?_⟩
  simp only [not_or, UInt32.not_lt, UInt32.le_iff_toNat_le, decide_eq_true_eq] at hchecked
  obtain ⟨-, habove, hlast, hapart⟩ := hchecked
  refine ⟨haddress, rfl, ?_, aligned_roundUp _, hmin ▸ habove, hmax ▸ hlast, hapart⟩
  rw [toNat_roundUp (by omega), hsum]

end EfesOS.Process.Elf
