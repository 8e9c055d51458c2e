import EfesOS.Fs.FatListing

/-!
# Following the links of a table

The table is untrusted, so its links can lead anywhere. `fat_read_file` counts the clusters it has
read, but a file has never more clusters than it may count, so a chain that comes back to a cluster
is read like any other (`cycles_refused_iff`). The walk through a directory reads a cluster before
it has checked the number, and where the data area is not a multiple of the cluster size there are
sectors behind the last cluster to be read (`lookup_confined_iff`).
-/

set_option autoImplicit false

namespace EfesOS.Fs.Fat

open EfesOS.Foundation
open EfesOS.Fs.Journal (Sector)

universe u

variable (volume : FatVolume) (disk : Disk)

/-! ### Files -/

/-- The clusters that `readClusters` reads from, in order. -/
def clustersRead : ℕ → ℕ → Progress → List ℕ
  | 0, _, _ => []
  | guard + 1, cluster, progress =>
    if progress.remaining = 0 ∨ cluster < 2 ∨ volume.clusterCount + 2 ≤ cluster then []
    else
      cluster :: match readSectors volume disk cluster volume.sectorsPerCluster 0 progress with
        | (false, _) => []
        | (true, progress) =>
          if progress.remaining = 0 then []
          else
            match readFatEntry volume disk cluster with
            | none => []
            | some nextCluster => clustersRead guard nextCluster progress

/-- A file with contents is read only if all its clusters are different. -/
def RefusesCycles (name : Pointer) (buffer : Logged ℕ UInt8) (capacity : ℕ) : Prop :=
  ∀ entry, findPath volume disk name = some entry → 0 < entry.readU32 28 →
    (fatReadFile volume disk name buffer capacity).returned = true →
    (clustersRead volume disk volume.clusterCount (entry.readU16 26)
      ⟨entry.readU32 28, 0, buffer⟩).Nodup

/-- The file can be read, and its chain comes back to a cluster before the file ends. -/
def ReadableCycle (name : Pointer) (capacity : ℕ) : Prop :=
  ∃ entry, findPath volume disk name = some entry ∧ 0 < entry.readU32 28 ∧
    FileReadable volume disk entry capacity ∧
    ∃ later < clustersOf volume (entry.readU32 28), ∃ earlier < later,
      chain volume disk (entry.readU16 26) earlier = chain volume disk (entry.readU16 26) later

variable {volume disk} {σ : Type u} {read : ℕ → σ → Option Sector × σ} {startLba : ℕ}
  {state after : σ}

/-- A file with contents has one cluster more than what is behind its first cluster. -/
theorem clustersOf_eq_succ (hpos : 0 < clusterBytes volume) {size : ℕ} (hsize : 0 < size) :
    clustersOf volume size = clustersOf volume (size - clusterBytes volume) + 1 := by
  refine eq_of_forall_lt_iff fun index ↦ ?_
  cases index with
  | zero => simp [lt_clustersOf_iff hpos, hsize]
  | succ index =>
    rw [Nat.succ_lt_succ_iff, lt_clustersOf_iff hpos, lt_clustersOf_iff hpos, Nat.succ_mul]
    omega

/-- A read that succeeds has gone through the clusters of the chain that hold the file. -/
theorem clustersRead_eq (hvolume : volume.Sound) {guard cluster : ℕ} {progress after : Progress}
    (hread : readClusters volume disk guard cluster progress = (true, after)) :
    clustersRead volume disk guard cluster progress =
      (List.range (clustersOf volume progress.remaining)).map (chain volume disk cluster) := by
  have hnone : clustersOf volume 0 = 0 := by
    rw [clustersOf, Nat.zero_add]
    exact Nat.div_eq_of_lt (Nat.sub_one_lt hvolume.clusterBytes_pos.ne')
  induction guard generalizing cluster progress with
  | zero =>
    rw [readClusters, Prod.mk.injEq, decide_eq_true_eq] at hread
    rw [clustersRead, hread.1, hnone]
    rfl
  | succ guard ih =>
    rw [readClusters] at hread
    rw [clustersRead]
    split_ifs at hread with hdone hcluster
    · rw [if_pos (.inl hdone), hdone, hnone]
      rfl
    · cases hread
    rw [if_neg (by omega), clustersOf_eq_succ hvolume.clusterBytes_pos (Nat.pos_of_ne_zero hdone),
      List.range_succ_eq_map, List.map_cons, List.map_map]
    congr 1
    rcases hsectors : readSectors volume disk cluster volume.sectorsPerCluster 0 progress with
      ⟨_ | _, reached⟩ <;> rw [hsectors] at hread
    · cases hread
    have hleft : reached.remaining = progress.remaining - clusterBytes volume :=
      remaining_readSectors hsectors
    dsimp only at hread ⊢
    rw [← hleft]
    split_ifs at hread ⊢ with hlast
    · rw [hlast, hnone]
      rfl
    cases hlink : readFatEntry volume disk cluster with
    | none =>
      rw [hlink] at hread
      cases hread
    | some next =>
      rw [hlink] at hread
      obtain ⟨-, rfl, -⟩ :=
        (hvolume.readFatEntry_eq_some ⟨by omega, by omega⟩).1 hlink
      refine (ih hread).trans (List.map_congr_left fun index _ ↦ ?_)
      exact chain_fatValue cluster index

/-- The clusters of a file that can be read. -/
theorem FileReadable.clustersRead_eq (hvolume : volume.Sound) {entry : DirectoryEntry}
    {capacity : ℕ} (h : FileReadable volume disk entry capacity) (hsize : 0 < entry.readU32 28)
    (buffer : Logged ℕ UInt8) :
    clustersRead volume disk volume.clusterCount (entry.readU16 26) ⟨entry.readU32 28, 0, buffer⟩ =
      (List.range (clustersOf volume (entry.readU32 28))).map
        (chain volume disk (entry.readU16 26)) := by
  have hchain := (h.chained.resolve_left fun hzero ↦ hsize.ne' hzero.1).2
  have hread := @readClusters_fst volume disk hvolume volume.clusterCount (entry.readU16 26)
    ⟨entry.readU32 28, 0, buffer⟩ h.bounded
  exact Fat.clustersRead_eq hvolume
    (Prod.ext (hread.2 ((chainReadable_iff hvolume).1 hchain)) rfl)

/-- Chains that come back to a cluster are refused, except where the file can be read. -/
theorem cycles_refused_iff
    (hmount : fatMount read startLba state = (.ok volume, after)) (disk : Disk) (name : Pointer)
    (buffer : Logged ℕ UInt8) (capacity : ℕ) :
    RefusesCycles volume disk name buffer capacity ↔ ¬ReadableCycle volume disk name capacity := by
  have hvolume := sound_of_fatMount hmount
  have hreturned := (hvolume.readsExactly disk name buffer capacity).returned
  constructor
  · rintro hrefuses ⟨entry, hpath, hsize, hreadable, later, hlater, earlier, hearlier, hsame⟩
    have hdistinct := hrefuses entry hpath hsize (hreturned.2 ⟨entry, hpath, hreadable⟩)
    rw [hreadable.clustersRead_eq hvolume hsize] at hdistinct
    have hindex := List.inj_on_of_nodup_map hdistinct
      (List.mem_range.2 (hearlier.trans hlater)) (List.mem_range.2 hlater) hsame
    omega
  · intro hcycle entry hpath hsize hread
    obtain ⟨other, hother, hreadable⟩ := hreturned.1 hread
    obtain rfl := Option.some_inj.1 (hpath.symm.trans hother)
    rw [hreadable.clustersRead_eq hvolume hsize]
    refine List.Nodup.map_on (fun first hfirst second hsecond hsame ↦ ?_) List.nodup_range
    rw [List.mem_range] at hfirst hsecond
    rcases Nat.lt_trichotomy first second with hlt | heq | hlt
    · exact absurd ⟨entry, hpath, hsize, hreadable, second, hsecond, first, hlt, hsame⟩ hcycle
    · exact heq
    · exact absurd ⟨entry, hpath, hsize, hreadable, first, hfirst, second, hlt, hsame.symm⟩ hcycle

/-- The file of the small volume has 600 bytes, and its only cluster is linked to itself. -/
def cyclicDisk : Disk
  | 1 => some ((Buffer.zeroed 512).setBytes 0 [0xF8, 0xFF, 0xFF, 0xFF, 0x02, 0x00])
  | 17 => (smallDisk 17).map fun root ↦ root.setBytes 28 [0x58, 0x02]
  | lba => smallDisk lba

/-- The file has two clusters. -/
def chainedDisk : Disk
  | 1 => some ((Buffer.zeroed 512).setBytes 0 [0xF8, 0xFF, 0xFF, 0xFF, 0x03, 0x00, 0xFF, 0xFF])
  | 18 | 19 => some (Vector.replicate 512 0xE5)
  | lba => cyclicDisk lba

/-- Two clusters in a row are read, and they are different. -/
theorem cycles_refused_chained :
    (fatReadFile smallVolume chainedDisk (some [0x41]) ⟨fun _ ↦ 0, []⟩ 600).returned = true ∧
      RefusesCycles smallVolume chainedDisk (some [0x41]) ⟨fun _ ↦ 0, []⟩ 600 := by
  refine ⟨by decide +kernel, (cycles_refused_iff fatMount_smallDisk chainedDisk (some [0x41])
    ⟨fun _ ↦ 0, []⟩ 600).2 ?_⟩
  rintro ⟨entry, hpath, -, -, later, hlater, earlier, hearlier, hsame⟩
  have hentry : findPath smallVolume chainedDisk (some [0x41]) =
      some (candidateAt ((cyclicDisk 17).getD (Buffer.zeroed 512)) 0) := by decide +kernel
  obtain rfl := Option.some_inj.1 (hentry.symm.trans hpath)
  have htwo : later < 2 := hlater.trans_eq (by decide +kernel)
  obtain rfl : later = 1 := by omega
  obtain rfl : earlier = 0 := by omega
  exact absurd hsame (by decide +kernel)

/-- The cluster is returned twice. -/
theorem cyclic_file_returned :
    fatMount (fun lba (_ : Unit) ↦ (cyclicDisk lba, ())) 0 () = (.ok smallVolume, ()) ∧
      ¬RefusesCycles smallVolume cyclicDisk (some [0x41]) ⟨fun _ ↦ 0, []⟩ 600 := by
  refine ⟨by decide +kernel, fun hrefuses ↦ ?_⟩
  have hdistinct := hrefuses (candidateAt ((cyclicDisk 17).getD (Buffer.zeroed 512)) 0)
    (by decide +kernel) (by decide +kernel) (by decide +kernel)
  exact absurd hdistinct (by decide +kernel)

/-! ### Directories -/

section Directories

variable (volume : FatVolume) (disk : Disk) (shortName : ShortName)

/-- `scanCluster` goes on to a sector of a cluster. -/
def ScansTo (cluster sectorIndex : ℕ) : Prop :=
  sectorIndex < volume.sectorsPerCluster ∧ scanSectors volume disk shortName
    (clusterSector volume cluster) (fun _ ↦ List.range 16) (List.range sectorIndex) = .onward

/-- The clusters that `walkDirectory` comes to. -/
def clustersScanned : ℕ → ℕ → List ℕ
  | 0, _ => []
  | guard + 1, cluster =>
    cluster :: match scanCluster volume disk shortName cluster with
      | .onward =>
        match readFatEntry volume disk cluster with
        | none => []
        | some nextCluster => clustersScanned guard nextCluster
      | _ => []

/-- The clusters that the lookup of a name in a sub-directory comes to. -/
def lookupClusters (first : ℕ) : List ℕ :=
  if first < 2 ∨ volume.clusterCount + 2 ≤ first then []
  else clustersScanned volume disk shortName volume.clusterCount first

/-- The sectors of the clusters with a number. -/
def InClusters (lba : ℕ) : Prop :=
  ∃ cluster, InClusterArea volume cluster ∧ ∃ sectorIndex < volume.sectorsPerCluster,
    lba = volume.dataStart + (cluster - 2) * volume.sectorsPerCluster + sectorIndex

/-- The lookup of a name in a sub-directory keeps to the clusters and comes to an end. -/
structure LookupConfined (first : ℕ) : Prop where
  sectors : ∀ cluster ∈ lookupClusters volume disk shortName first,
    ∀ sectorIndex, ScansTo volume disk shortName cluster sectorIndex →
      (readSector volume disk (clusterSector volume cluster sectorIndex)).isSome = true →
        InClusters volume (clusterSector volume cluster sectorIndex)
  found : ∀ entry, findEntryInDirectory volume disk shortName (.at first) = some entry →
    ∃ lba, InClusters volume lba ∧ ∃ sector, disk lba = some sector ∧
      ∃ item < 16, entry = candidateAt sector item
  ends : (lookupClusters volume disk shortName first).length ≤ volume.clusterCount

/-- The sectors that a lookup goes on after: their entries were all used and have other names. -/
def Misses (sector : Sector) : Prop :=
  ∀ item < 16, inUse (candidateAt sector item) = true ∧
    answers shortName (candidateAt sector item) = false

/-- The first sectors of a cluster can be read and are as wanted. -/
def SectorsPass (wanted : Sector → Prop) (cluster count : ℕ) : Prop :=
  ∀ sectorIndex < count, ∃ sector,
    readSector volume disk (clusterSector volume cluster sectorIndex) = some sector ∧ wanted sector

/-- The clusters of a chain that are passed. -/
structure Passed (wanted : Sector → Prop) (cluster : ℕ) : Prop where
  area : InClusterArea volume cluster
  link : LinkIntact volume disk cluster
  sectors : SectorsPass volume disk wanted cluster volume.sectorsPerCluster

/-- The chain leads through clusters without the name to the number behind the last one, and a
sector is there. -/
def ScansBehind (first : ℕ) : Prop :=
  (∃ steps < volume.clusterCount, 0 < steps ∧
    chain volume disk first steps = volume.clusterCount + 2 ∧
    ∀ index < steps, Passed volume disk (Misses shortName) (chain volume disk first index)) ∧
    (readSector volume disk
      (volume.dataStart + volume.clusterCount * volume.sectorsPerCluster)).isSome = true

end Directories

/-- The clusters fill a volume up to a rest, and the parts before them are small. -/
structure FatVolume.Filled (volume : FatVolume) : Prop where
  rest : volume.startLba + volume.totalSectors <
    volume.dataStart + (volume.clusterCount + 1) * volume.sectorsPerCluster
  metadata : volume.dataStart < volume.startLba + 33554432

theorem filled_of_fatMount
    (hmount : fatMount read startLba state = (.ok volume, after)) : volume.Filled := by
  have hpos := (sound_of_fatMount hmount).sectorsPerCluster_pos
  obtain ⟨boot, hcheck, rfl⟩ := fatMount_boot hmount
  have hreserved := boot.readU16_lt 14
  have hroot := boot.readU16_lt 17
  have htables : (boot.byteAt 16).toNat * boot.readU16 22 ≤ 255 * 65535 :=
    Nat.mul_le_mul (Nat.le_of_lt_succ (boot.byteAt 16).toNat_lt)
      (Nat.le_of_lt_succ (boot.readU16_lt 22))
  have hdata : (bootFields boot).dataSectors <
      (bootFields boot).sectorsPerCluster * ((bootFields boot).clusterCount + 1) :=
    Nat.lt_mul_div_succ _ hpos
  rw [Nat.mul_comm] at hdata
  have hsectors : (bootFields boot).dataSectors =
    (bootFields boot).totalSectors - (bootFields boot).metadataSectors := rfl
  constructor <;> simp only [BootFields.volume, BootFields.metadataSectors,
    BootFields.rootSectors, bootFields, fatSectorSize] at * <;> omega

theorem disk_of_readSector {lba : ℕ} {sector : Sector}
    (hread : readSector volume disk lba = some sector) : disk lba = some sector := by
  rw [readSector] at hread
  split_ifs at hread
  exact hread

theorem inside_of_readSector {lba : ℕ} (hread : (readSector volume disk lba).isSome = true) :
    volume.startLba ≤ lba ∧ lba < volume.startLba + volume.totalSectors := by
  rw [readSector] at hread
  split_ifs at hread with houtside
  · cases hread
  · omega

/-- Where a sector of a linked cluster can be read, the number is at most one too high. -/
theorem clusterSector_of_read (hvolume : volume.Sound) (hfilled : volume.Filled)
    {cluster sectorIndex : ℕ} (hcluster : cluster < 65536)
    (hindex : sectorIndex < volume.sectorsPerCluster)
    (hread : (readSector volume disk (clusterSector volume cluster sectorIndex)).isSome = true) :
    2 ≤ cluster ∧ cluster ≤ volume.clusterCount + 2 ∧
      clusterSector volume cluster sectorIndex =
        volume.dataStart + (cluster - 2) * volume.sectorsPerCluster + sectorIndex := by
  have hspc := hvolume.sectorsPerCluster_le
  obtain ⟨hrest, hmetadata⟩ := hfilled
  have hinside := inside_of_readSector hread
  have htotal : (volume.clusterCount + 1) * volume.sectorsPerCluster ≤ 65525 * 128 :=
    Nat.mul_le_mul hvolume.clusterCount_lt hspc
  -- the numbers below the first cluster wrap to addresses far behind the volume
  have hlow : 2 ≤ cluster := by
    by_contra hlow
    unfold clusterSector at hinside
    have hwraps : (4294967294 + cluster) % 4294967296 * volume.sectorsPerCluster =
        4294967296 - (2 - cluster) * volume.sectorsPerCluster +
          4294967296 * (volume.sectorsPerCluster - 1) := by
      interval_cases cluster <;> omega
    have hnear : (2 - cluster) * volume.sectorsPerCluster ≤ 2 * 128 :=
      Nat.mul_le_mul (Nat.sub_le 2 cluster) hspc
    have hpos : 0 < (2 - cluster) * volume.sectorsPerCluster :=
      Nat.mul_pos (by omega) hvolume.sectorsPerCluster_pos
    omega
  have hproduct : (cluster - 2) * volume.sectorsPerCluster ≤ 65533 * 128 :=
    Nat.mul_le_mul (by omega) hspc
  rw [hvolume.clusterSector_mod hlow hcluster] at hinside ⊢
  refine ⟨hlow, ?_, by omega⟩
  by_contra hhigh
  have hbehind : (volume.clusterCount + 1) * volume.sectorsPerCluster ≤
      (cluster - 2) * volume.sectorsPerCluster := Nat.mul_le_mul_right _ (by omega)
  omega

section Lookup

variable {shortName : ShortName}

theorem scanItems_eq_onward {sector : Sector} {items : List ℕ} :
    scanItems shortName sector items = .onward ↔ ∀ item ∈ items,
      inUse (candidateAt sector item) = true ∧
        answers shortName (candidateAt sector item) = false := by
  induction items with
  | nil => simp [scanItems]
  | cons item rest ih =>
    rw [scanItems, List.forall_mem_cons, ← ih]
    grind [inUse, answers]

theorem scanSectors_eq_onward {lba : ℕ → ℕ} {items : ℕ → List ℕ} {sectors : List ℕ} :
    scanSectors volume disk shortName lba items sectors = .onward ↔ ∀ sectorIndex ∈ sectors,
      ∃ sector, readSector volume disk (lba sectorIndex) = some sector ∧
        scanItems shortName sector (items sectorIndex) = .onward := by
  induction sectors with
  | nil => simp [scanSectors]
  | cons sectorIndex rest ih =>
    rw [scanSectors, List.forall_mem_cons, ← ih]
    grind

theorem scanSectors_cluster {cluster count : ℕ} :
    scanSectors volume disk shortName (clusterSector volume cluster) (fun _ ↦ List.range 16)
      (List.range count) = .onward ↔ SectorsPass volume disk (Misses shortName) cluster count := by
  simp only [scanSectors_eq_onward, scanItems_eq_onward, List.mem_range, SectorsPass, Misses]

section

variable (hvolume : volume.Sound)
include hvolume

/-- A chain goes on after the clusters that are passed. -/
theorem passed_iff {wanted : Sector → Prop} {cluster next : ℕ} :
    SectorsPass volume disk wanted cluster volume.sectorsPerCluster ∧
        readFatEntry volume disk cluster = some next ↔
      Passed volume disk wanted cluster ∧ fatValue volume disk cluster = next ∧
        next < fat16Bad := by
  by_cases harea : InClusterArea volume cluster
  · rw [hvolume.readFatEntry_eq_some harea]
    exact ⟨fun h ↦ ⟨⟨harea, h.2.1, h.1⟩, h.2.2⟩, fun h ↦ ⟨h.1.sectors, h.1.link, h.2⟩⟩
  · refine ⟨fun h ↦ absurd h.2 ?_, fun h ↦ absurd h.1.area harea⟩
    rw [readFatEntry]
    unfold InClusterArea at harea
    rw [if_pos (by omega)]
    exact Option.some_ne_none next ∘ Eq.symm

/-- A lookup comes to the clusters of the chain, as long as it passes them. -/
theorem mem_clustersScanned_iff {guard first cluster : ℕ} :
    cluster ∈ clustersScanned volume disk shortName guard first ↔
      ∃ steps < guard, chain volume disk first steps = cluster ∧ ∀ index < steps,
        Passed volume disk (Misses shortName) (chain volume disk first index) ∧
          chain volume disk first (index + 1) < fat16Bad := by
  induction guard generalizing first with
  | zero => simp [clustersScanned]
  | succ guard ih =>
    have hstep : ∀ next, scanCluster volume disk shortName first = .onward ∧
        readFatEntry volume disk first = some next ↔ _ :=
      fun next ↦ (and_congr_left' scanSectors_cluster).trans (passed_iff hvolume)
    have hlater : cluster ∈ clustersScanned volume disk shortName (guard + 1) first ↔
        cluster = first ∨ (Passed volume disk (Misses shortName) first ∧
          fatValue volume disk first < fat16Bad) ∧ cluster ∈
            clustersScanned volume disk shortName guard (fatValue volume disk first) := by
      rw [clustersScanned, List.mem_cons]
      cases hscan : scanCluster volume disk shortName first <;>
        cases hlink : readFatEntry volume disk first <;>
          simp only [hscan, hlink] at hstep ⊢ <;> grind
    rw [hlater, ih, Nat.exists_lt_succ_left]
    simp only [chain_fatValue, Nat.forall_lt_succ_left]
    grind [chain]

theorem mem_lookupClusters {first cluster : ℕ} :
    cluster ∈ lookupClusters volume disk shortName first ↔ InClusterArea volume first ∧
      ∃ steps < volume.clusterCount, chain volume disk first steps = cluster ∧ ∀ index < steps,
        Passed volume disk (Misses shortName) (chain volume disk first index) ∧
          chain volume disk first (index + 1) < fat16Bad := by
  rw [lookupClusters, InClusterArea]
  split_ifs with harea
  · exact iff_of_false List.not_mem_nil (by omega)
  · rw [mem_clustersScanned_iff hvolume, and_iff_right (by omega)]

theorem mem_lookupClusters_behind {first : ℕ} :
    volume.clusterCount + 2 ∈ lookupClusters volume disk shortName first ↔
      ∃ steps < volume.clusterCount, 0 < steps ∧
        chain volume disk first steps = volume.clusterCount + 2 ∧
        ∀ index < steps, Passed volume disk (Misses shortName) (chain volume disk first index) := by
  have hcount := hvolume.clusterCount_lt
  rw [mem_lookupClusters hvolume]
  constructor
  · rintro ⟨harea, steps, hsteps, heq, hpassed⟩
    refine ⟨steps, hsteps, Nat.pos_of_ne_zero ?_, heq,
      fun index hindex ↦ (hpassed index hindex).1⟩
    rintro rfl
    exact harea.2.ne heq
  · rintro ⟨steps, hsteps, hpos, heq, hpassed⟩
    refine ⟨(hpassed 0 hpos).area, steps, hsteps, heq,
      fun index hindex ↦ ⟨hpassed index hindex, ?_⟩⟩
    change _ < 65527
    by_cases hlater : index + 1 < steps
    · have harea := (hpassed (index + 1) hlater).area.2
      omega
    · rw [show index + 1 = steps by omega]
      omega

end

theorem length_clustersScanned (guard first : ℕ) :
    (clustersScanned volume disk shortName guard first).length ≤ guard := by
  induction guard generalizing first with
  | zero => exact le_rfl
  | succ guard ih =>
    refine Nat.succ_le_succ ?_
    cases scanCluster volume disk shortName first
    case onward =>
      cases readFatEntry volume disk first with
      | none => exact Nat.zero_le guard
      | some next => exact ih next
    all_goals exact Nat.zero_le guard

theorem scanItems_found {sector : Sector} {items : List ℕ} {entry : DirectoryEntry}
    (hscan : scanItems shortName sector items = .found entry) :
    ∃ item ∈ items, entry = candidateAt sector item := by
  induction items with
  | nil => cases hscan
  | cons item rest ih =>
    rw [scanItems] at hscan
    grind

theorem scanSectors_found {lba : ℕ → ℕ} {items : ℕ → List ℕ} {sectors : List ℕ}
    {entry : DirectoryEntry}
    (hscan : scanSectors volume disk shortName lba items sectors = .found entry) :
    ∃ steps, ∃ h : steps < sectors.length,
      scanSectors volume disk shortName lba items (sectors.take steps) = .onward ∧
      ∃ sector, readSector volume disk (lba sectors[steps]) = some sector ∧
        ∃ item ∈ items sectors[steps], entry = candidateAt sector item := by
  induction sectors with
  | nil => cases hscan
  | cons index rest ih =>
    rw [scanSectors] at hscan
    cases hsector : readSector volume disk (lba index) with
    | none => simp [hsector] at hscan
    | some sector =>
      cases hitems : scanItems shortName sector (items index) <;>
        simp only [hsector, hitems, reduceCtorEq, Scan.found.injEq] at hscan
      case found =>
        cases hscan
        exact ⟨0, Nat.succ_pos _, rfl, sector, hsector, scanItems_found hitems⟩
      case onward =>
        obtain ⟨steps, hsteps, honward, hrest⟩ := ih hscan
        refine ⟨steps + 1, Nat.succ_lt_succ hsteps, ?_, hrest⟩
        simp only [List.take_succ_cons, scanSectors, hsector, hitems, honward]

theorem walkDirectory_found {guard first : ℕ} {entry : DirectoryEntry}
    (hwalk : walkDirectory volume disk shortName guard first = some entry) :
    ∃ cluster ∈ clustersScanned volume disk shortName guard first,
      scanCluster volume disk shortName cluster = .found entry := by
  induction guard generalizing first with
  | zero => cases hwalk
  | succ guard ih =>
    rw [walkDirectory] at hwalk
    rw [clustersScanned]
    cases hscan : scanCluster volume disk shortName first <;> simp only [hscan] at hwalk ⊢
    case found =>
      cases hwalk
      exact ⟨first, List.mem_cons_self, hscan⟩
    case stop => cases hwalk
    case onward =>
      cases hlink : readFatEntry volume disk first with
      | none =>
        rw [hlink] at hwalk
        cases hwalk
      | some next =>
        rw [hlink] at hwalk
        obtain ⟨cluster, hcluster, hfound⟩ := ih hwalk
        exact ⟨cluster, List.mem_cons_of_mem _ hcluster, hfound⟩

/-- What is scanned is in the clusters, unless the lookup comes behind the last. -/
theorem inClusters_of_scansTo (hvolume : volume.Sound) (hfilled : volume.Filled) {first : ℕ}
    (hbehind : ¬ScansBehind volume disk shortName first) {cluster sectorIndex : ℕ}
    (hcluster : cluster ∈ lookupClusters volume disk shortName first)
    (hscan : ScansTo volume disk shortName cluster sectorIndex)
    (hread : (readSector volume disk (clusterSector volume cluster sectorIndex)).isSome = true) :
    InClusters volume (clusterSector volume cluster sectorIndex) := by
  have hsmall : cluster < 65536 := by
    have hcount := hvolume.clusterCount_lt
    obtain ⟨harea, steps, -, rfl, hpassed⟩ := (mem_lookupClusters hvolume).1 hcluster
    cases steps with
    | zero => exact harea.2.trans (by omega)
    | succ steps => exact (hpassed steps (Nat.lt_succ_self steps)).2.trans (by decide)
  obtain ⟨hindex, hscan⟩ := hscan
  obtain ⟨hlow, hhigh, heq⟩ := clusterSector_of_read hvolume hfilled hsmall hindex hread
  rcases Nat.lt_or_eq_of_le hhigh with harea | rfl
  · exact ⟨cluster, ⟨hlow, harea⟩, sectorIndex, hindex, heq⟩
  · have hfirst : (readSector volume disk
        (clusterSector volume (volume.clusterCount + 2) 0)).isSome = true := by
      cases sectorIndex with
      | zero => exact hread
      | succ sectorIndex =>
        obtain ⟨sector, hsector, -⟩ := scanSectors_cluster.1 hscan 0 (Nat.succ_pos sectorIndex)
        rw [hsector]
        rfl
    have hzero := (clusterSector_of_read hvolume hfilled hsmall hvolume.sectorsPerCluster_pos
      hfirst).2.2
    rw [hzero] at hfirst
    exact absurd ⟨(mem_lookupClusters_behind hvolume).1 hcluster, hfirst⟩ hbehind

end Lookup

/-- The lookup of a name in a sub-directory is confined, except where it comes behind the last
cluster. -/
theorem lookup_confined_iff
    (hmount : fatMount read startLba state = (.ok volume, after)) (disk : Disk)
    (shortName : ShortName) (first : ℕ) :
    LookupConfined volume disk shortName first ↔ ¬ScansBehind volume disk shortName first := by
  have hvolume := sound_of_fatMount hmount
  constructor
  · rintro hconfined ⟨hcluster, hread⟩
    have hcount := hvolume.clusterCount_lt
    have haddress := hvolume.address
    have hlast := inside_of_readSector hread
    have hbehind : clusterSector volume (volume.clusterCount + 2) 0 =
        volume.dataStart + volume.clusterCount * volume.sectorsPerCluster := by
      rw [hvolume.clusterSector_mod (Nat.le_add_left _ _) (by omega), Nat.add_sub_cancel]
      omega
    obtain ⟨cluster, harea, sectorIndex, hindex, heq⟩ :=
      hconfined.sectors _ ((mem_lookupClusters_behind hvolume).2 hcluster) 0
        ⟨hvolume.sectorsPerCluster_pos, rfl⟩ (hbehind ▸ hread)
    have hinside : (cluster - 2 + 1) * volume.sectorsPerCluster ≤
        volume.clusterCount * volume.sectorsPerCluster :=
      Nat.mul_le_mul_right _ (by have := harea.1; have := harea.2; omega)
    rw [Nat.succ_mul] at hinside
    omega
  · intro hbehind
    have hsectors := fun cluster hcluster sectorIndex ↦ @inClusters_of_scansTo volume disk shortName
      hvolume (filled_of_fatMount hmount) first hbehind cluster sectorIndex hcluster
    refine ⟨hsectors, fun entry hentry ↦ ?_, ?_⟩
    · rw [findEntryInDirectory] at hentry
      split_ifs at hentry with hfirst
      obtain ⟨cluster, hcluster, hscan⟩ := walkDirectory_found hentry
      obtain ⟨index, hindex, honward, sector, hread, hitem⟩ := scanSectors_found hscan
      simp only [List.length_range, List.take_range, List.getElem_range, List.mem_range]
        at hindex honward hread hitem
      rw [min_eq_left hindex.le] at honward
      refine ⟨_, hsectors cluster ?_ index ⟨hindex, honward⟩ (by rw [hread]; rfl), sector,
        disk_of_readSector hread, hitem⟩
      rwa [lookupClusters, if_neg hfirst]
    · rw [lookupClusters]
      split_ifs
      · exact Nat.zero_le _
      · exact length_clustersScanned _ _

/-- A lookup through two clusters of deleted entries. -/
theorem lookup_confined_chained :
    lookupClusters smallVolume chainedDisk (Vector.replicate 11 0x41) 2 = [2, 3] ∧
      LookupConfined smallVolume chainedDisk (Vector.replicate 11 0x41) 2 := by
  refine ⟨by decide +kernel, (lookup_confined_iff fatMount_smallDisk chainedDisk
    (Vector.replicate 11 0x41) 2).2 ?_⟩
  rintro ⟨⟨steps, -, hpos, heq, hpassed⟩, -⟩
  have hend : chain smallVolume chainedDisk 2 2 = 65535 := by decide +kernel
  have hsteps : steps ≤ 2 := by
    by_contra hmore
    have harea := (hpassed 2 (by omega)).area.2
    rw [hend] at harea
    exact absurd harea (by decide)
  interval_cases steps
  all_goals exact absurd heq (by decide +kernel)

/-- A volume with 4085 clusters of two sectors and one sector more. The directory `D` has one
cluster of deleted entries, linked to the number behind the last cluster. -/
def spareDisk : Disk
  | 0 => some <| ((((Buffer.zeroed 512).setBytes 11
      [0x00, 0x02, 2, 1, 0, 1, 16, 0, 0xFD, 0x1F, 0xF8, 16, 0]).setByte 510 0x55).setByte 511 0xAA)
  | 1 => some ((Buffer.zeroed 512).setBytes 0 [0xF8, 0xFF, 0xFF, 0xFF, 0xF7, 0x0F])
  | 17 => some (((Buffer.zeroed 512).setBytes 0 [0x44, 0x20, 0x20, 0x20, 0x20, 0x20, 0x20, 0x20,
      0x20, 0x20, 0x20, 0x10]).setByte 26 2)
  | 8188 => some ((Buffer.zeroed 512).setBytes 0 [0x46, 0x20, 0x20, 0x20, 0x20, 0x20, 0x20, 0x20,
      0x20, 0x20, 0x20])
  | _ => some (Vector.replicate 512 0xE5)

def spareVolume : FatVolume := ⟨0, 8189, 1, 17, 18, 16, 1, 16, 2, 4085⟩

/-- The file `D/F` is found behind the last cluster. -/
theorem spare_sector_found :
    fatMount (fun lba (_ : Unit) ↦ (spareDisk lba, ())) 0 () = (.ok spareVolume, ()) ∧
      (findPath spareVolume spareDisk (some [0x44, 0x2F, 0x46])).isSome = true ∧
      ¬LookupConfined spareVolume spareDisk (Buffer.setByte (Vector.replicate 11 0x20) 0 0x46)
        2 := by
  refine ⟨by decide +kernel, by decide +kernel, fun hconfined ↦ ?_⟩
  obtain ⟨cluster, harea, sectorIndex, hindex, heq⟩ :=
    hconfined.sectors 4087 (by decide +kernel) 0 ⟨by decide, rfl⟩ (by decide +kernel)
  change 2 ≤ cluster ∧ cluster < 4087 at harea
  change sectorIndex < 2 at hindex
  change 8188 = 18 + (cluster - 2) * 2 + sectorIndex at heq
  omega

end EfesOS.Fs.Fat
