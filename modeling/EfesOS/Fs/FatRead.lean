import EfesOS.Fs.FatFiles

/-!
# Reading a file of a FAT16 volume

What `fat_read_file` returns and what it leaves in the buffer, for any contents of the device:
chains may be cut, crossed or cyclic, sectors unreadable and the copies of the table different.

A volume that was mounted has a sound geometry (`FatVolume.Sound`), so the addresses of clusters and
of table sectors are inside it and nothing wraps. The clusters of a file are the chain that starts
at the first cluster of its entry; `fat_read_file_exact` says when the file is read and that it is
read as the chain has it.
-/

set_option autoImplicit false

namespace EfesOS.Fs.Fat

open EfesOS.Foundation
open EfesOS.Fs.Journal (Sector)

universe u

/-! ### Geometry -/

/-- The parts of a volume lie inside it, and the table has an entry for each cluster. -/
structure FatVolume.Sound (volume : FatVolume) : Prop where
  sectorsPerCluster_pos : 0 < volume.sectorsPerCluster
  sectorsPerCluster_le : volume.sectorsPerCluster ≤ 128
  fatCount_pos : 0 < volume.fatCount
  clusterCount_lt : volume.clusterCount < 65525
  table : (volume.clusterCount + 2) * 2 ≤ volume.sectorsPerFat * 512
  start_le_fat : volume.startLba ≤ volume.fatStart
  rootStart_eq : volume.rootStart = volume.fatStart + volume.fatCount * volume.sectorsPerFat
  rootEntries_pos : 0 < volume.rootEntries
  root_lt_end : volume.rootStart < volume.startLba + volume.totalSectors
  start_le_data : volume.startLba ≤ volume.dataStart
  data_le_end : volume.dataStart + volume.clusterCount * volume.sectorsPerCluster ≤
    volume.startLba + volume.totalSectors
  address : volume.startLba + volume.totalSectors ≤ 18446744073709551616

theorem bootFields_totalSectors_lt (boot : Sector) :
    (bootFields boot).totalSectors < 4294967296 := by
  have hsmall := boot.readU16_lt 19
  have hlarge := boot.readU32_lt 32
  simp only [bootFields]
  split_ifs <;> omega

theorem BootFields.sound_volume {fields : BootFields} {startLba : ℕ}
    (hcheck : fields.check startLba = none) (htotal : fields.totalSectors < 4294967296) :
    (fields.volume startLba).Sound := by
  unfold BootFields.check at hcheck
  split_ifs at hcheck with hfields hmetadata hclusters haddress
  have hdata : fields.clusterCount * fields.sectorsPerCluster ≤ fields.dataSectors :=
    Nat.div_mul_le_self _ _
  have hcapacity : fields.fatEntryCapacity = fields.sectorsPerFat * 512 / 2 := rfl
  have hsectors : fields.dataSectors = fields.totalSectors - fields.metadataSectors := rfl
  have hparts : fields.metadataSectors =
    fields.reserved + fields.fats * fields.sectorsPerFat + fields.rootSectors := rfl
  constructor <;> simp only [BootFields.volume] <;> omega

theorem sound_of_fatMount {σ : Type u} {read : ℕ → σ → Option Sector × σ} {startLba : ℕ}
    {state after : σ} {volume : FatVolume}
    (hmount : fatMount read startLba state = (.ok volume, after)) : volume.Sound := by
  obtain ⟨boot, hcheck, rfl⟩ := fatMount_boot hmount
  exact BootFields.sound_volume hcheck (bootFields_totalSectors_lt boot)

section Chain

variable (volume : FatVolume) (disk : Disk)

/-- The address of the sector of a table copy that has the entry of a cluster. -/
def fatAddress (copy cluster : ℕ) : ℕ :=
  volume.fatStart + copy * volume.sectorsPerFat + cluster * 2 / fatSectorSize

/-- The value of a cluster in the first copy of the table. -/
def fatValue (cluster : ℕ) : ℕ :=
  ((disk (fatAddress volume 0 cluster)).getD (Buffer.zeroed 512)).readU16
    (cluster * 2 % fatSectorSize)

/-- The entry of a cluster can be read in every copy of the table and is the same in all. -/
def LinkIntact (cluster : ℕ) : Prop :=
  ∀ copy < volume.fatCount, ∃ sector, disk (fatAddress volume copy cluster) = some sector ∧
    sector.readU16 (cluster * 2 % fatSectorSize) = fatValue volume disk cluster

/-- The clusters of a file, by the first copy of the table. -/
def chain (first : ℕ) : ℕ → ℕ
  | 0 => first
  | index + 1 => fatValue volume disk (chain first index)

def clusterBytes : ℕ := volume.sectorsPerCluster * fatSectorSize

/-- The sector of a file at an index: that of the chain's clusters, one after the other. -/
def fileSector (first index : ℕ) : Option Sector :=
  disk (volume.dataStart + (chain volume disk first (index / volume.sectorsPerCluster) - 2) *
    volume.sectorsPerCluster + index % volume.sectorsPerCluster)

/-- A byte of the clusters of a file, put together. -/
def fileByte (first index : ℕ) : UInt8 :=
  ((fileSector volume disk first (index / fatSectorSize)).getD (Buffer.zeroed 512)).byteAt
    (index % fatSectorSize)

/-- The number of clusters that hold a file. -/
def clustersOf (size : ℕ) : ℕ := (size + clusterBytes volume - 1) / clusterBytes volume

def InClusterArea (cluster : ℕ) : Prop := 2 ≤ cluster ∧ cluster < volume.clusterCount + 2

/-- The clusters of a file are there, its sectors can be read, and the links between its clusters
are intact. -/
structure ChainReadable (first size : ℕ) : Prop where
  clusters : ∀ index < clustersOf volume size, InClusterArea volume (chain volume disk first index)
  sectors : ∀ index, index * fatSectorSize < size →
    (fileSector volume disk first index).isSome = true
  links : ∀ index, index + 1 < clustersOf volume size →
    LinkIntact volume disk (chain volume disk first index)

/-- The files that can be read into a buffer. -/
structure FileReadable (entry : DirectoryEntry) (capacity : ℕ) : Prop where
  plain : entry.byteAt 11 &&& 0x1F = 0
  fits : entry.readU32 28 ≤ capacity
  bounded : entry.readU32 28 ≤ volume.clusterCount * clusterBytes volume
  chained : (entry.readU32 28 = 0 ∧ entry.readU16 26 = 0) ∨
    (0 < entry.readU32 28 ∧ ChainReadable volume disk (entry.readU16 26) (entry.readU32 28))

end Chain

variable {volume : FatVolume} {disk : Disk}

theorem readSector_of_inside {lba : ℕ} (hstart : volume.startLba ≤ lba)
    (hend : lba < volume.startLba + volume.totalSectors) :
    readSector volume disk lba = disk lba := by
  unfold readSector
  rw [if_neg (by omega)]

namespace FatVolume.Sound

/-- Only the last of the machine's additions may wrap. -/
theorem clusterSector_mod (h : volume.Sound) {cluster sectorIndex : ℕ} (hlow : 2 ≤ cluster)
    (hsmall : cluster < 65536) :
    clusterSector volume cluster sectorIndex =
      (volume.dataStart + (cluster - 2) * volume.sectorsPerCluster + sectorIndex) %
        18446744073709551616 := by
  have hproduct : (cluster - 2) * volume.sectorsPerCluster ≤ 65533 * 128 :=
    Nat.mul_le_mul (by omega) h.sectorsPerCluster_le
  rw [clusterSector, show (4294967294 + cluster) % 4294967296 = cluster - 2 by omega,
    @Nat.mod_eq_of_lt ((cluster - 2) * volume.sectorsPerCluster) _ (by omega)]

theorem clusterSector_eq (h : volume.Sound) {cluster sectorIndex : ℕ}
    (hcluster : InClusterArea volume cluster) (hindex : sectorIndex < volume.sectorsPerCluster) :
    readSector volume disk (clusterSector volume cluster sectorIndex) =
      disk (volume.dataStart + (cluster - 2) * volume.sectorsPerCluster + sectorIndex) := by
  obtain ⟨hlow, hhigh⟩ := hcluster
  have hcount := h.clusterCount_lt
  have hproduct : (cluster - 2 + 1) * volume.sectorsPerCluster ≤
      volume.clusterCount * volume.sectorsPerCluster := Nat.mul_le_mul_right _ (by omega)
  rw [Nat.succ_mul] at hproduct
  have hend := h.data_le_end
  have haddress := h.address
  rw [h.clusterSector_mod hlow (by omega), Nat.mod_eq_of_lt (by omega)]
  exact readSector_of_inside (by have := h.start_le_data; omega) (by omega)

/-- The table lies in front of the root directory. -/
theorem fatAddress_lt (h : volume.Sound) {cluster copy : ℕ}
    (hcluster : cluster < volume.clusterCount + 2) (hcopy : copy < volume.fatCount) :
    fatAddress volume copy cluster < volume.rootStart := by
  have htable := h.table
  have hcopies : (copy + 1) * volume.sectorsPerFat ≤ volume.fatCount * volume.sectorsPerFat :=
    Nat.mul_le_mul_right _ hcopy
  rw [Nat.succ_mul] at hcopies
  rw [h.rootStart_eq, fatAddress]
  change _ + cluster * 2 / 512 < _
  omega

theorem fatSector_eq (h : volume.Sound) {cluster copy : ℕ} (hcluster : InClusterArea volume cluster)
    (hcopy : copy < volume.fatCount) :
    readSector volume disk
      (volume.fatStart + copy * volume.sectorsPerFat + cluster * 2 / fatSectorSize) =
      disk (fatAddress volume copy cluster) :=
  readSector_of_inside (h.start_le_fat.trans (by rw [Nat.add_assoc]; exact Nat.le_add_right _ _))
    ((h.fatAddress_lt hcluster.2 hcopy).trans h.root_lt_end)

end FatVolume.Sound

/-- Two bytes are the same when their values are. -/
theorem readU16_eq_iff {first second : Sector} {offset : ℕ} :
    first.readU16 offset = second.readU16 offset ↔
      first.byteAt offset = second.byteAt offset ∧
        first.byteAt (offset + 1) = second.byteAt (offset + 1) := by
  rw [Buffer.readU16_eq, Buffer.readU16_eq, ← UInt8.toNat_inj, ← UInt8.toNat_inj]
  have hfirst := (first.byteAt offset).toNat_lt
  have hsecond := (second.byteAt offset).toNat_lt
  omega

theorem FatVolume.Sound.mirrorAgrees_iff (h : volume.Sound) {cluster copy : ℕ}
    (hcluster : InClusterArea volume cluster) (hcopy : copy < volume.fatCount) {primary : Sector} :
    mirrorAgrees volume disk primary (cluster * 2) copy = true ↔
      ∃ sector, disk (fatAddress volume copy cluster) = some sector ∧
        sector.readU16 (cluster * 2 % fatSectorSize) =
          primary.readU16 (cluster * 2 % fatSectorSize) := by
  unfold mirrorAgrees
  rw [h.fatSector_eq hcluster hcopy]
  cases disk (fatAddress volume copy cluster) with
  | none => simp
  | some mirror => simp [readU16_eq_iff]

/-- A link is followed where it is intact and leads on. -/
theorem FatVolume.Sound.readFatEntry_eq_some (h : volume.Sound) {cluster next : ℕ}
    (hcluster : InClusterArea volume cluster) :
    readFatEntry volume disk cluster = some next ↔
      LinkIntact volume disk cluster ∧ fatValue volume disk cluster = next ∧ next < fat16Bad := by
  unfold readFatEntry
  have hprimary : readSector volume disk (volume.fatStart + 0 * volume.sectorsPerFat +
      cluster * 2 / fatSectorSize) = disk (fatAddress volume 0 cluster) :=
    h.fatSector_eq hcluster h.fatCount_pos
  rw [Nat.zero_mul, Nat.add_zero] at hprimary
  rw [if_neg (by have := hcluster; unfold InClusterArea at this; omega), hprimary]
  cases hsector : disk (fatAddress volume 0 cluster) with
  | none =>
    refine ⟨by simp, fun hintact ↦ ?_⟩
    obtain ⟨sector, hread, -⟩ := hintact.1 0 h.fatCount_pos
    rw [hsector] at hread
    cases hread
  | some primary =>
    have hvalue : fatValue volume disk cluster = primary.readU16 (cluster * 2 % fatSectorSize) := by
      rw [fatValue, hsector, Option.getD_some]
    have hintact : LinkIntact volume disk cluster ↔ (List.range' 1 (volume.fatCount - 1)).all
        (mirrorAgrees volume disk primary (cluster * 2)) = true := by
      rw [List.all_eq_true]
      constructor
      · intro hintact copy hcopy
        rw [List.mem_range'_1] at hcopy
        refine (h.mirrorAgrees_iff hcluster (by omega)).2 ?_
        rw [← hvalue]
        exact hintact copy (by omega)
      · intro hagrees copy hcopy
        rw [hvalue]
        rcases Nat.eq_zero_or_pos copy with rfl | hpos
        · exact ⟨primary, hsector, rfl⟩
        · exact (h.mirrorAgrees_iff hcluster hcopy).1
            (hagrees copy (List.mem_range'_1.2 ⟨hpos, by omega⟩))
    rw [hintact, hvalue]
    dsimp only
    split_ifs with hall hleads
    · simp only [Option.some_inj]
      constructor
      · rintro rfl
        refine ⟨hall, rfl, ?_⟩
        change _ ≠ 0xFFF7 ∧ _ < 0xFFF8 at hleads
        change _ < 0xFFF7
        omega
      · exact fun hnext ↦ hnext.2.1
    · refine ⟨by simp, fun hnext ↦ absurd ?_ hleads⟩
      rw [hnext.2.1]
      have hbad : next < 0xFFF7 := hnext.2.2
      change next ≠ 0xFFF7 ∧ next < 0xFFF8
      omega
    · exact ⟨by simp, fun hnext ↦ absurd hnext.1 hall⟩

/-! ### The loops -/

theorem chain_fatValue (first index : ℕ) :
    chain volume disk (fatValue volume disk first) index = chain volume disk first (index + 1) := by
  induction index with
  | zero => rfl
  | succ index ih => rw [chain, ih, ← chain]

theorem FatVolume.Sound.clusterBytes_pos (h : volume.Sound) : 0 < clusterBytes volume :=
  Nat.mul_pos h.sectorsPerCluster_pos (by decide)

/-- What has to hold for the rest of a file to be read from a cluster on. -/
def RestReadable (volume : FatVolume) (disk : Disk) (first remaining : ℕ) : Prop :=
  ∀ steps, (steps * clusterBytes volume < remaining →
      InClusterArea volume (chain volume disk first steps)) ∧
    ((steps + 1) * clusterBytes volume < remaining →
      LinkIntact volume disk (chain volume disk first steps)) ∧
    ∀ index < volume.sectorsPerCluster, steps * clusterBytes volume + index * 512 < remaining →
      (readSector volume disk
        (clusterSector volume (chain volume disk first steps) index)).isSome = true

/-- The sectors of a cluster are read up to the end of the file. -/
theorem readSectors_fst {cluster count sectorIndex : ℕ} {progress : Progress} :
    (readSectors volume disk cluster count sectorIndex progress).1 = true ↔
      ∀ index < count, index * 512 < progress.remaining →
        (readSector volume disk
          (clusterSector volume cluster (index + sectorIndex))).isSome = true := by
  induction count generalizing sectorIndex progress with
  | zero => simp [readSectors]
  | succ count ih =>
    rw [readSectors, Nat.forall_lt_succ_left, Nat.zero_add]
    split_ifs with hdone
    · simp [hdone]
    · cases readSector volume disk (clusterSector volume cluster sectorIndex) with
      | none => simp [Nat.pos_of_ne_zero hdone]
      | some sector =>
        have hleft : ∀ index, index * 512 < progress.remaining - min progress.remaining 512 ↔
            (index + 1) * 512 < progress.remaining := by omega
        rw [ih]
        simp [copySector, hleft, Nat.add_right_comm, Nat.add_assoc]

theorem remaining_readSectors {cluster count sectorIndex : ℕ} {progress after : Progress}
    (hread : readSectors volume disk cluster count sectorIndex progress = (true, after)) :
    after.remaining = progress.remaining - count * 512 := by
  induction count generalizing sectorIndex progress with
  | zero =>
    cases hread
    exact (Nat.sub_zero _).symm
  | succ count ih =>
    rw [readSectors] at hread
    split at hread
    next hdone =>
      cases hread
      rw [hdone, Nat.zero_sub]
    next =>
      split at hread
      · cases hread
      · rw [ih hread]
        simp only [copySector, fatSectorSize]
        omega

theorem restReadable_iff {first remaining : ℕ} (hmore : 0 < remaining) :
    RestReadable volume disk first remaining ↔ InClusterArea volume first ∧
      (clusterBytes volume < remaining → LinkIntact volume disk first) ∧
      (∀ index < volume.sectorsPerCluster, index * 512 < remaining →
        (readSector volume disk (clusterSector volume first index)).isSome = true) ∧
      RestReadable volume disk (fatValue volume disk first) (remaining - clusterBytes volume) := by
  rw [RestReadable, ← Nat.and_forall_add_one]
  simp only [RestReadable, chain_fatValue, Nat.succ_mul, Nat.lt_sub_iff_add_lt, chain, Nat.zero_mul,
    Nat.zero_add, hmore, true_implies, and_assoc, Nat.add_right_comm _ (clusterBytes volume)]

/-- The file is read if all of its chain can be. -/
theorem readClusters_fst (hvolume : volume.Sound) {guard first : ℕ} {progress : Progress}
    (hguard : progress.remaining ≤ guard * clusterBytes volume) :
    (readClusters volume disk guard first progress).1 = true ↔
      RestReadable volume disk first progress.remaining := by
  have hnone : ∀ {first}, RestReadable volume disk first 0 := by simp [RestReadable]
  induction guard generalizing first progress with
  | zero =>
    rw [Nat.zero_mul, Nat.le_zero] at hguard
    simp [readClusters, hguard, hnone]
  | succ guard ih =>
    rw [readClusters]
    split_ifs with hdone hcluster
    · simp [hdone, hnone]
    · rw [restReadable_iff (Nat.pos_of_ne_zero hdone)]
      simp only [false_iff, InClusterArea]
      omega
    have harea : InClusterArea volume first := by
      unfold InClusterArea
      omega
    rw [restReadable_iff (Nat.pos_of_ne_zero hdone), and_iff_right harea]
    have hsectors := @readSectors_fst volume disk first volume.sectorsPerCluster 0 progress
    simp only [Nat.add_zero] at hsectors
    rw [← hsectors]
    rcases hread : readSectors volume disk first volume.sectorsPerCluster 0 progress with
      ⟨_ | _, after⟩
    · simp
    have hleft : after.remaining = progress.remaining - clusterBytes volume :=
      remaining_readSectors hread
    rw [Nat.succ_mul] at hguard
    dsimp only
    rw [← hleft]
    split_ifs with hlast
    · simp only [hlast, hnone, and_true, true_iff]
      omega
    have hlink := fun next ↦
      @FatVolume.Sound.readFatEntry_eq_some volume disk hvolume first next harea
    cases hnext : readFatEntry volume disk first with
    | none =>
      refine iff_of_false (by simp) ?_
      rintro ⟨hintact, -, hrest⟩
      -- a chain that goes on in the cluster area would have been followed
      have hfollowed : fatValue volume disk first < _ := ((hrest 0).1 (by omega)).2
      have hsmall := hvolume.clusterCount_lt
      rw [(hlink _).2 ⟨hintact (by omega), rfl, by change _ < 0xFFF7; omega⟩] at hnext
      cases hnext
    | some next =>
      obtain ⟨hintact, rfl, -⟩ := (hlink next).1 hnext
      refine (@ih (fatValue volume disk first) after (by omega)).trans ?_
      simp [hintact]

/-- Nothing was stored outside a file besides what had been stored before. -/
def StoresBelow (size : ℕ) (before : List ℕ) (progress : Progress) : Prop :=
  ∀ place ∈ progress.buffer.stores, place ∈ before ∨ place < size

/-- The state of the loops with a number of sectors copied. -/
structure Copied (volume : FatVolume) (disk : Disk) (first size : ℕ) (before : List ℕ) (sectors : ℕ)
    (progress : Progress) : Prop where
  output : progress.output = min size (sectors * 512)
  remaining : progress.remaining = size - progress.output
  contents : ∀ index < progress.output,
    progress.buffer.contents index = fileByte volume disk first index
  stores : StoresBelow size before progress

section Loops

variable {first size : ℕ} {before : List ℕ} {sectors : ℕ} {progress : Progress}

section

variable (h : Copied volume disk first size before sectors progress)
include h

theorem Copied.remaining_eq_zero :
    progress.remaining = 0 ↔ size ≤ sectors * 512 := by
  have houtput := h.output
  have hremaining := h.remaining
  omega

/-- With the file complete there is nothing more to copy. -/
theorem Copied.later (hdone : size ≤ sectors * 512) {later : ℕ} (hlater : sectors ≤ later) :
    Copied volume disk first size before later progress := by
  refine ⟨?_, h.remaining, h.contents, h.stores⟩
  rw [h.output, Nat.min_eq_left hdone,
    Nat.min_eq_left (hdone.trans (Nat.mul_le_mul_right 512 hlater))]

/-- One more sector. -/
theorem Copied.next (hmore : sectors * 512 < size) {sector : Sector}
    (hsector : fileSector volume disk first sectors = some sector) :
    Copied volume disk first size before (sectors + 1) (copySector sector progress) := by
  unfold copySector
  obtain ⟨amount, hamount⟩ : ∃ amount, amount = min progress.remaining fatSectorSize := ⟨_, rfl⟩
  rw [← hamount]
  change amount = min progress.remaining 512 at hamount
  have houtput : progress.output = sectors * 512 := by
    have := h.output
    omega
  have hremaining := h.remaining
  refine ⟨by dsimp only; omega, by dsimp only; omega, fun index hindex ↦ ?_, fun place hplace ↦ ?_⟩
  · dsimp only at hindex ⊢
    by_cases hold : index < progress.output
    · rw [Logged.contents_copy_of_ne (fun offset _ ↦ by omega)]
      exact h.contents index hold
    · obtain ⟨offset, rfl⟩ := Nat.exists_eq_add_of_le (Nat.not_lt.1 hold)
      have harrived : (progress.buffer.copy (fun offset ↦ progress.output + offset) sector.byteAt
          amount).contents (progress.output + offset) = sector.byteAt offset :=
        Logged.contents_copy (by omega) fun other _ hsame ↦ Nat.add_left_cancel hsame
      have hquotient : (progress.output + offset) / 512 = sectors := by omega
      have hremainder : (progress.output + offset) % 512 = offset := by omega
      refine harrived.trans ?_
      unfold fileByte
      rw [hquotient, hremainder, hsector, Option.getD_some]
  · rcases Logged.mem_stores_copy.1 hplace with hold | ⟨offset, hoffset, rfl⟩
    · exact h.stores place hold
    · right
      omega

end

variable {number : ℕ}

/-- A sector of a file, by its cluster. -/
theorem fileSector_eq {sectorIndex : ℕ} (hindex : sectorIndex < volume.sectorsPerCluster) :
    fileSector volume disk first (number * volume.sectorsPerCluster + sectorIndex) =
      disk (volume.dataStart + (chain volume disk first number - 2) * volume.sectorsPerCluster +
        sectorIndex) := by
  unfold fileSector
  rw [Nat.mul_comm number, Nat.mul_add_div (Nat.zero_lt_of_lt hindex), Nat.div_eq_of_lt hindex,
    Nat.add_zero, Nat.mul_add_mod, Nat.mod_eq_of_lt hindex]

variable {result : Bool} {after : Progress}

/-- The sectors of a cluster are copied. -/
theorem Copied.readSectors (hvolume : volume.Sound)
    (hcluster : InClusterArea volume (chain volume disk first number)) {count sectorIndex : ℕ}
    (hcount : sectorIndex + count ≤ volume.sectorsPerCluster)
    (h : Copied volume disk first size before (number * volume.sectorsPerCluster + sectorIndex)
      progress)
    (hread : readSectors volume disk (chain volume disk first number) count sectorIndex progress =
      (result, after)) :
    StoresBelow size before after ∧ (result = true → Copied volume disk first size before
      (number * volume.sectorsPerCluster + (sectorIndex + count)) after) := by
  induction count generalizing sectorIndex progress with
  | zero =>
    cases hread
    exact ⟨h.stores, fun _ ↦ h⟩
  | succ count ih =>
    rw [Fat.readSectors] at hread
    split_ifs at hread with hdone
    · cases hread
      exact ⟨h.stores, fun _ ↦ h.later (h.remaining_eq_zero.1 hdone) (by omega)⟩
    have hsame : readSector volume disk (clusterSector volume (chain volume disk first number)
        sectorIndex) = fileSector volume disk first
          (number * volume.sectorsPerCluster + sectorIndex) :=
      (hvolume.clusterSector_eq hcluster (by omega)).trans (fileSector_eq (by omega)).symm
    rw [hsame] at hread
    cases hsector : fileSector volume disk first
      (number * volume.sectorsPerCluster + sectorIndex) with
    | none =>
      rw [hsector] at hread
      cases hread
      exact ⟨h.stores, by simp⟩
    | some sector =>
      rw [hsector] at hread
      have hmore := Nat.not_le.1 (mt h.remaining_eq_zero.2 hdone)
      rw [← Nat.add_assoc sectorIndex, Nat.add_right_comm]
      exact ih (by omega) (h.next hmore hsector) hread

/-- The clusters of a file are copied up to its end. -/
theorem Copied.readClusters (hvolume : volume.Sound) {guard : ℕ}
    (h : Copied volume disk first size before (number * volume.sectorsPerCluster) progress)
    (hread : readClusters volume disk guard (chain volume disk first number) progress =
      (result, after)) :
    StoresBelow size before after ∧ (result = true → after.output = size ∧
      ∀ index < size, after.buffer.contents index = fileByte volume disk first index) := by
  have hend : ∀ {sectors progress}, Copied volume disk first size before sectors progress →
      progress.remaining = 0 → progress.output = size ∧
        ∀ index < size, progress.buffer.contents index = fileByte volume disk first index := by
    intro sectors progress h hdone
    have houtput : progress.output = size := by
      rw [h.output, Nat.min_eq_left (h.remaining_eq_zero.1 hdone)]
    exact ⟨houtput, fun index hindex ↦ h.contents index (houtput ▸ hindex)⟩
  induction guard generalizing number progress with
  | zero =>
    cases hread
    exact ⟨h.stores, fun hdone ↦ hend h (of_decide_eq_true hdone)⟩
  | succ guard ih =>
    rw [Fat.readClusters] at hread
    split_ifs at hread with hdone hcluster
    · cases hread
      exact ⟨h.stores, fun _ ↦ hend h hdone⟩
    · cases hread
      exact ⟨h.stores, by simp⟩
    rcases hsectors : Fat.readSectors volume disk (chain volume disk first number)
      volume.sectorsPerCluster 0 progress with ⟨copied, next⟩
    obtain ⟨hstores, hcopied⟩ := h.readSectors hvolume ⟨by omega, by omega⟩ (Nat.zero_add _).le
      hsectors
    rw [hsectors] at hread
    cases copied
    · cases hread
      exact ⟨hstores, by simp⟩
    · have hnext := hcopied rfl
      rw [Nat.zero_add, ← Nat.succ_mul] at hnext
      dsimp only at hread
      split_ifs at hread with hlast
      · cases hread
        exact ⟨hstores, fun _ ↦ hend hnext hlast⟩
      cases hlink : readFatEntry volume disk (chain volume disk first number) with
      | none =>
        rw [hlink] at hread
        cases hread
        exact ⟨hstores, by simp⟩
      | some cluster =>
        rw [hlink] at hread
        obtain ⟨-, rfl, -⟩ := (hvolume.readFatEntry_eq_some ⟨by omega, by omega⟩).1 hlink
        exact ih hnext hread

end Loops

/-! ### Files -/

variable {size : ℕ}

theorem clusterBytes_mul (index : ℕ) :
    index * volume.sectorsPerCluster * 512 = index * clusterBytes volume :=
  Nat.mul_assoc _ _ _

theorem lt_clustersOf_iff (hpos : 0 < clusterBytes volume) {index : ℕ} :
    index < clustersOf volume size ↔ index * clusterBytes volume < size := by
  unfold clustersOf
  rw [Nat.lt_iff_add_one_le, Nat.le_div_iff_mul_le hpos, Nat.succ_mul]
  omega

theorem chainReadable_iff (hvolume : volume.Sound) {first : ℕ} :
    ChainReadable volume disk first size ↔ RestReadable volume disk first size := by
  have hpos := hvolume.clusterBytes_pos
  have hbytes : ∀ steps index, steps * clusterBytes volume + index * 512 =
      (steps * volume.sectorsPerCluster + index) * 512 :=
    fun steps index ↦ by rw [← clusterBytes_mul, Nat.add_mul]
  constructor
  · intro h steps
    have harea := fun hmore ↦ h.clusters steps ((lt_clustersOf_iff hpos).2 hmore)
    refine ⟨harea, fun hmore ↦ h.links steps ((lt_clustersOf_iff hpos).2 hmore),
      fun index hindex hmore ↦ ?_⟩
    have hsector := h.sectors _ (hbytes steps index ▸ hmore)
    rw [fileSector_eq hindex] at hsector
    rwa [hvolume.clusterSector_eq (harea (by omega)) hindex]
  · intro h
    refine ⟨fun index hindex ↦ (h index).1 ((lt_clustersOf_iff hpos).1 hindex),
      fun index hmore ↦ ?_, fun index hindex ↦ (h index).2.1 ((lt_clustersOf_iff hpos).1 hindex)⟩
    have hindex := Nat.mod_lt index hvolume.sectorsPerCluster_pos
    rw [← Nat.div_add_mod' index volume.sectorsPerCluster, ← hbytes] at hmore
    have hsector := (h _).2.2 _ hindex hmore
    rwa [hvolume.clusterSector_eq ((h _).1 (by omega)) hindex] at hsector

/-- What a call of `fat_read_file` comes to. -/
structure ReadsExactly (volume : FatVolume) (disk : Disk) (name : Pointer) (before : Logged ℕ UInt8)
    (capacity : ℕ) (result : ReadResult) : Prop where
  returned : result.returned = true ↔
    ∃ entry, findPath volume disk name = some entry ∧ FileReadable volume disk entry capacity
  file : ∀ entry, findPath volume disk name = some entry → result.returned = true →
    result.size = entry.readU32 28 ∧ ∀ index < entry.readU32 28,
      result.buffer.contents index = fileByte volume disk (entry.readU16 26) index
  failed : result.returned = false → result.size = 0
  stores : ∀ place ∈ result.buffer.stores, place ∈ before.stores ∨ place < capacity

/-- A call that finds an entry. -/
theorem ReadsExactly.of_entry {name : Pointer} {before : Logged ℕ UInt8} {capacity : ℕ}
    {entry : DirectoryEntry} {result : ReadResult} (hpath : findPath volume disk name = some entry)
    (hreturned : result.returned = true ↔ FileReadable volume disk entry capacity)
    (hfile : result.returned = true → result.size = entry.readU32 28 ∧
      ∀ index < entry.readU32 28,
        result.buffer.contents index = fileByte volume disk (entry.readU16 26) index)
    (hfailed : result.returned = false → result.size = 0)
    (hstores : ∀ place ∈ result.buffer.stores, place ∈ before.stores ∨ place < capacity) :
    ReadsExactly volume disk name before capacity result := by
  refine ⟨?_, fun other hother ↦ ?_, hfailed, hstores⟩
  · rw [hreturned, hpath]
    exact ⟨fun h ↦ ⟨entry, rfl, h⟩, fun ⟨_, hsame, h⟩ ↦ Option.some_inj.1 hsame ▸ h⟩
  · rw [hpath] at hother
    cases hother
    exact hfile

theorem ReadsExactly.refused {name : Pointer} {before : Logged ℕ UInt8} {capacity : ℕ}
    {entry : DirectoryEntry} (hpath : findPath volume disk name = some entry)
    (hrefused : ¬FileReadable volume disk entry capacity) :
    ReadsExactly volume disk name before capacity ⟨false, 0, before⟩ :=
  .of_entry hpath ⟨by simp, fun h ↦ absurd h hrefused⟩ (by simp) (fun _ ↦ rfl) fun _ ↦ .inl

/-- The check of the size against the clusters of the volume. -/
theorem sectors_exceed_iff {maxSectors : ℕ} : (maxSectors < size / fatSectorSize ∨
    (size % fatSectorSize ≠ 0 ∧ maxSectors ≤ size / fatSectorSize)) ↔ maxSectors * 512 < size := by
  change (maxSectors < size / 512 ∨ (size % 512 ≠ 0 ∧ maxSectors ≤ size / 512)) ↔ _
  omega

/-- A sound volume reads exactly its files. -/
theorem FatVolume.Sound.readsExactly (hvolume : volume.Sound) (disk : Disk) (name : Pointer)
    (buffer : Logged ℕ UInt8) (capacity : ℕ) :
    ReadsExactly volume disk name buffer capacity
      (fatReadFile volume disk name buffer capacity) := by
  unfold fatReadFile
  cases hpath : findPath volume disk name with
  | none =>
    refine ⟨⟨by simp, ?_⟩, by simp, fun _ ↦ rfl, fun place hplace ↦ .inl hplace⟩
    rintro ⟨entry, hentry, -⟩
    rw [hpath] at hentry
    cases hentry
  | some entry =>
    dsimp only
    split
    next hattributes =>
      exact .refused hpath fun hreadable ↦ hattributes hreadable.plain
    next hattributes =>
    have hplain : entry.byteAt 11 &&& 0x1F = 0 := not_not.1 hattributes
    split
    next hsize =>
      refine .refused hpath fun hreadable ↦ ?_
      rcases hsize with hcapacity | hsectors
      · exact absurd hreadable.fits (Nat.not_le.2 hcapacity)
      · refine absurd hreadable.bounded (Nat.not_le.2 ?_)
        rw [← clusterBytes_mul]
        exact sectors_exceed_iff.1 hsectors
    next hsize =>
    rw [not_or, sectors_exceed_iff, clusterBytes_mul, Nat.not_lt, Nat.not_lt] at hsize
    obtain ⟨hfits, hbounded⟩ := hsize
    have hreadable : FileReadable volume disk entry capacity ↔
        (entry.readU32 28 = 0 ∧ entry.readU16 26 = 0) ∨ (0 < entry.readU32 28 ∧
          ChainReadable volume disk (entry.readU16 26) (entry.readU32 28)) :=
      ⟨fun h ↦ h.chained, fun h ↦ ⟨hplain, hfits, hbounded, h⟩⟩
    split
    next hempty =>
      refine .of_entry hpath ?_ (fun _ ↦ ?_) (fun _ ↦ rfl) fun _ ↦ .inl
      · rw [hreadable, hempty, decide_eq_true_eq]
        simp
      · rw [hempty]
        exact ⟨rfl, by simp⟩
    next hsome =>
    have hstart : Copied volume disk (entry.readU16 26) (entry.readU32 28) buffer.stores
        (0 * volume.sectorsPerCluster) ⟨entry.readU32 28, 0, buffer⟩ :=
      ⟨by simp, by simp, by simp, fun _ ↦ .inl⟩
    have hchain := @readClusters_fst volume disk hvolume volume.clusterCount (entry.readU16 26)
      ⟨entry.readU32 28, 0, buffer⟩ hbounded
    rw [← chainReadable_iff hvolume] at hchain
    rw [or_iff_right fun hzero ↦ hsome hzero.1, and_iff_right (Nat.pos_of_ne_zero hsome),
      ← hchain] at hreadable
    rcases hread : readClusters volume disk volume.clusterCount (entry.readU16 26)
      ⟨entry.readU32 28, 0, buffer⟩ with ⟨result, final⟩
    rw [hread] at hreadable
    obtain ⟨hstores, hfile⟩ := hstart.readClusters hvolume hread
    have hlow : ∀ place ∈ final.buffer.stores, place ∈ buffer.stores ∨ place < capacity :=
      fun place hplace ↦ (hstores place hplace).imp_right fun hlt ↦ hlt.trans_le hfits
    cases result with
    | false => exact .of_entry hpath hreadable.symm (by simp) (fun _ ↦ rfl) hlow
    | true => exact .of_entry hpath hreadable.symm (fun _ ↦ hfile rfl) (by simp) hlow

/-- A volume that was mounted reads exactly its files. -/
theorem fat_read_file_exact {σ : Type u} {read : ℕ → σ → Option Sector × σ} {startLba : ℕ}
    {state after : σ} {volume : FatVolume}
    (hmount : fatMount read startLba state = (.ok volume, after)) (disk : Disk) (name : Pointer)
    (buffer : Logged ℕ UInt8) (capacity : ℕ) :
    ReadsExactly volume disk name buffer capacity
      (fatReadFile volume disk name buffer capacity) :=
  (sound_of_fatMount hmount).readsExactly disk name buffer capacity

/-- A volume with 4085 clusters of one sector and one file of three bytes. -/
def smallDisk : Disk
  | 0 => some <| ((((Buffer.zeroed 512).setBytes 11
      [0x00, 0x02, 1, 1, 0, 1, 16, 0, 0x07, 0x10, 0xF8, 16, 0]).setByte 510 0x55).setByte 511 0xAA)
  | 1 => some ((Buffer.zeroed 512).setBytes 0 [0xF8, 0xFF, 0xFF, 0xFF, 0xFF, 0xFF])
  | 17 => some ((Buffer.zeroed 512).setBytes 0 [0x41, 0x20, 0x20, 0x20, 0x20, 0x20, 0x20,
      0x20, 0x20,
      0x20, 0x20, 0x20, 0, 0, 0, 0, 0, 0, 0, 0, 0, 0, 0, 0, 0, 0, 2, 0, 3, 0, 0, 0])
  | 18 => some ((Buffer.zeroed 512).setBytes 0 [0x61, 0x62, 0x63])
  | _ => none

def smallVolume : FatVolume := ⟨0, 4103, 1, 17, 18, 16, 1, 16, 1, 4085⟩

theorem fatMount_smallDisk :
    fatMount (fun lba (_ : Unit) ↦ (smallDisk lba, ())) 0 () = (.ok smallVolume, ()) := by
  decide +kernel

/-- The file is read into a buffer that is large enough. -/
theorem fat_read_file_exact_small :
    (fatReadFile smallVolume smallDisk (some [0x41]) ⟨fun _ ↦ 0, []⟩ 4).returned = true ∧
      ReadsExactly smallVolume smallDisk (some [0x41]) ⟨fun _ ↦ 0, []⟩ 4
        (fatReadFile smallVolume smallDisk (some [0x41]) ⟨fun _ ↦ 0, []⟩ 4) :=
  ⟨by decide +kernel, fat_read_file_exact fatMount_smallDisk smallDisk (some [0x41])
    ⟨fun _ ↦ 0, []⟩ 4⟩

end EfesOS.Fs.Fat
