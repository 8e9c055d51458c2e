import EfesOS.Fs.FatChains
import EfesOS.Fs.Vfs

/-!
# Volumes in a partition

`vfs_init` compares the length of a partition with the device, and the size that the boot sector
claims with the device too, but not the two with each other. The reads of a mounted volume are
checked against the size it claims, so whether they leave the partition depends on where the
directories and files of the volume lie: `partition_mount_confined_iff`.

A loop asks for a sector when it has gone on after those before it, and `read_sector` reads it if it
lies in the volume.
-/

set_option autoImplicit false

namespace EfesOS.Fs.Fat

open EfesOS.Foundation
open EfesOS.Fs.Journal (Sector)

/-! ### What the calls ask for -/

section Asks

variable (volume : FatVolume) (disk : Disk)

/-- The sectors of the root directory, as long as a loop goes on. -/
def RootAsks (goesOn : List ℕ → Prop) (lba : ℕ) : Prop :=
  ∃ index < (volume.rootEntries + 15) / 16, goesOn (List.range index) ∧
    volume.rootStart + index = lba

def ListAsks (wanted : Option ℕ) : ℕ → Prop :=
  RootAsks volume fun sectors ↦ ∃ count, listSectors volume disk wanted sectors 0 = .onward count

/-- The copies of the table are read up to the first that differs. -/
def LinkAsks (cluster lba : ℕ) : Prop :=
  InClusterArea volume cluster ∧ ∃ copy < volume.fatCount,
    LinkIntact { volume with fatCount := copy } disk cluster ∧ fatAddress volume copy cluster = lba

/-- The lookup of a name in a directory. -/
def LookupAsks (shortName : ShortName) (lba : ℕ) : Directory → Prop
  | .root => RootAsks volume (fun sectors ↦
      scanSectors volume disk shortName (fun sectorIndex ↦ volume.rootStart + sectorIndex)
        (fun sectorIndex ↦ (List.range 16).takeWhile fun item ↦
          sectorIndex * 16 + item < volume.rootEntries) sectors = .onward) lba
  | .at first => ∃ cluster ∈ lookupClusters volume disk shortName first,
    (∃ sectorIndex, ScansTo volume disk shortName cluster sectorIndex ∧
      clusterSector volume cluster sectorIndex = lba) ∨
    scanCluster volume disk shortName cluster = .onward ∧ LinkAsks volume disk cluster lba

/-- A path names a directory. -/
def Names (path : Pointer) (first : ℕ) : Prop :=
  InClusterArea volume first ∧ ∃ entry, findPath volume disk path = some entry ∧
    entry.byteAt 11 &&& fatAttrDirectory ≠ 0 ∧ entry.readU16 26 = first

/-- The part of a path before a component leads to the directory that it is looked up in. -/
def Leads (before : List UInt8) : Directory → Prop
  | .root => before = []
  | .at first => ∃ path, before = path ++ [0x2F] ∧ Names volume disk (some path) first

def PathAsks (path : List UInt8) (lba : ℕ) : Prop :=
  path.head? ≠ some 0x2F ∧ ∃ before component after, path = before ++ component ++ after ∧
    (after = [] ∨ after.head? = some 0x2F) ∧ 0x2F ∉ component ∧ component.length < 13 ∧
      ∃ directory shortName, Leads volume disk before directory ∧
        shortNameFromText component = some shortName ∧
          LookupAsks volume disk shortName lba directory

/-- What is before a place in a file can be read, and the link to the cluster of the place is
followed. -/
def RunsTo (first steps size : ℕ) (buffer : Logged ℕ UInt8) : Prop :=
  (readClusters volume disk volume.clusterCount first ⟨size, 0, buffer⟩).1 = true ∧
    (∀ number, number + 1 = steps →
      (readFatEntry volume disk (chain volume disk first number)).isSome = true) ∧
    InClusterArea volume (chain volume disk first steps)

def FileAsks (first size : ℕ) (buffer : Logged ℕ UInt8) (lba : ℕ) : Prop :=
  (∃ steps, ∃ index < volume.sectorsPerCluster, steps * clusterBytes volume + index * 512 < size ∧
    RunsTo volume disk first steps (steps * clusterBytes volume + index * 512) buffer ∧
      clusterSector volume (chain volume disk first steps) index = lba) ∨
  ∃ steps, (steps + 1) * clusterBytes volume < size ∧ (readClusters volume disk
    volume.clusterCount first ⟨(steps + 1) * clusterBytes volume, 0, buffer⟩).1 = true ∧
      LinkAsks volume disk (chain volume disk first steps) lba

/-- The calls of `vfs.c` on a mounted volume. -/
inductive CallAsks (lba : ℕ) : Prop where
  | fileCount (hlist : ListAsks volume disk none lba)
  | fileName (index : ℕ) (hlist : ListAsks volume disk (some index) lba)
  | findPath (name : List UInt8) (hpath : PathAsks volume disk (CString.text name) lba)
  | readFile (name : Pointer) (entry : DirectoryEntry) (buffer : Logged ℕ UInt8)
      (hentry : findPath volume disk name = some entry) (hplain : entry.byteAt 11 &&& 0x1F = 0)
      (hbounded : entry.readU32 28 ≤ volume.clusterCount * clusterBytes volume)
      (hfile : FileAsks volume disk (entry.readU16 26) (entry.readU32 28) buffer lba)

/-! ### What lies inside -/

/-- A sector of the root directory can be read and has no end marker. -/
def RootPasses (sectorIndex : ℕ) : Prop :=
  ∃ sector, readSector volume disk (volume.rootStart + sectorIndex) = some sector ∧
    (rootItems volume sectorIndex sector).all inUse = true

/-- The chain of a file is intact up to a place. -/
def IntactTo (first steps size : ℕ) : Prop :=
  ChainReadable volume disk first size ∧
    (∀ number, number + 1 = steps → LinkIntact volume disk (chain volume disk first number)) ∧
    InClusterArea volume (chain volume disk first steps)

/-- A sector that is read lies below a limit. -/
def Below (limit lba : ℕ) : Prop :=
  volume.startLba ≤ lba → lba < volume.startLba + volume.totalSectors → lba < limit

/-- The root directory up to its end marker, the other directories as far as the lookup of a name
goes and the files as far as they can be read lie below a limit. -/
structure Inside (limit : ℕ) : Prop where
  root : ∀ index < (volume.rootEntries + 15) / 16, (∀ earlier < index,
    RootPasses volume disk earlier) → Below volume limit (volume.rootStart + index)
  directories : ∀ path first, Names volume disk path first → ∀ component shortName,
    shortNameFromText component = some shortName → ∀ steps < volume.clusterCount,
      (∀ number < steps, Passed volume disk (Misses shortName) (chain volume disk first number) ∧
        chain volume disk first (number + 1) < fat16Bad) → ∀ index < volume.sectorsPerCluster,
        SectorsPass volume disk (Misses shortName) (chain volume disk first steps) index →
          Below volume limit (clusterSector volume (chain volume disk first steps) index)
  files : ∀ path entry, findPath volume disk path = some entry → entry.byteAt 11 &&& 0x1F = 0 →
    entry.readU32 28 ≤ volume.clusterCount * clusterBytes volume →
      ∀ steps, ∀ index < volume.sectorsPerCluster,
        steps * clusterBytes volume + index * 512 < entry.readU32 28 →
        IntactTo volume disk (entry.readU16 26) steps
          (steps * clusterBytes volume + index * 512) →
          Below volume limit
            (clusterSector volume (chain volume disk (entry.readU16 26) steps) index)

end Asks

variable {volume : FatVolume} {disk : Disk} {lba limit : ℕ}

theorem listItems_none {sector : Sector} {items : List ℕ}
    (hused : (items.map (candidateAt sector)).all inUse = true) (count : ℕ) :
    ∃ total, listItems none sector items count = .onward total := by
  induction items generalizing count with
  | nil => exact ⟨count, rfl⟩
  | cons item rest ih =>
    simp only [List.map_cons, List.all_cons, Bool.and_eq_true, inUse, decide_eq_true_eq] at hused
    simp only [listItems, if_neg hused.1, reduceCtorEq, if_false]
    split_ifs <;> exact ih hused.2 _

theorem listSectors_none {sectors : List ℕ}
    (hused : ∀ sectorIndex ∈ sectors, RootPasses volume disk sectorIndex) (count : ℕ) :
    ∃ total, listSectors volume disk none sectors count = .onward total := by
  induction sectors generalizing count with
  | nil => exact ⟨count, rfl⟩
  | cons sectorIndex rest ih =>
    obtain ⟨⟨sector, hsector, hitems⟩, hrest⟩ := List.forall_mem_cons.1 hused
    obtain ⟨total, htotal⟩ := listItems_none hitems count
    rw [listSectors, hsector]
    dsimp only
    rw [htotal]
    exact ih hrest total

theorem listSectors_onward {wanted : Option ℕ} {sectors : List ℕ} {count total : ℕ}
    (hlist : listSectors volume disk wanted sectors count = .onward total) :
    ∀ sectorIndex ∈ sectors, RootPasses volume disk sectorIndex := by
  induction sectors generalizing count with
  | nil => simp
  | cons sectorIndex rest ih =>
    grind [listSectors, listItems_onward, RootPasses, rootItems]

section Sound

variable (hvolume : volume.Sound)
include hvolume

/-- The sectors of the table that are read are inside if the root directory is. -/
theorem Inside.link (h : Inside volume disk limit) {cluster : ℕ}
    (hlink : LinkAsks volume disk cluster lba) : lba < limit := by
  obtain ⟨harea, copy, hcopy, -, rfl⟩ := hlink
  have hentries := hvolume.rootEntries_pos
  have hstart := hvolume.start_le_fat
  exact (hvolume.fatAddress_lt harea.2 hcopy).trans (h.root 0 (by omega) (by simp)
    (by rw [hvolume.rootStart_eq]; omega) hvolume.root_lt_end)

theorem Inside.lookup (h : Inside volume disk limit) {directory : Directory}
    {before component : List UInt8} {shortName : ShortName}
    (hleads : Leads volume disk before directory)
    (hname : shortNameFromText component = some shortName)
    (hasks : LookupAsks volume disk shortName lba directory) : Below volume limit lba := by
  cases directory with
  | root =>
    obtain ⟨index, hindex, hscan, rfl⟩ := hasks
    refine h.root index hindex fun earlier hearlier ↦ ?_
    obtain ⟨sector, hsector, hitems⟩ :=
      scanSectors_eq_onward.1 hscan earlier (List.mem_range.2 hearlier)
    rw [scanItems_eq_onward] at hitems
    exact ⟨sector, hsector, List.all_eq_true.2 (List.forall_mem_map.2 fun item hitem ↦
      (hitems item hitem).1)⟩
  | «at» first =>
    obtain ⟨cluster, hcluster, ⟨index, ⟨hindex, hscan⟩, rfl⟩ | ⟨-, hlink⟩⟩ := hasks
    · obtain ⟨path, -, hnames⟩ := hleads
      obtain ⟨-, steps, hsteps, rfl, hpassed⟩ := (mem_lookupClusters hvolume).1 hcluster
      exact h.directories _ first hnames component shortName hname steps hsteps hpassed index
        hindex (scanSectors_cluster.1 hscan)
    · exact fun _ _ ↦ h.link hvolume hlink

theorem runsTo_iff {first steps size : ℕ} {buffer : Logged ℕ UInt8}
    (hsteps : steps * clusterBytes volume ≤ size)
    (hsize : size ≤ volume.clusterCount * clusterBytes volume) :
    RunsTo volume disk first steps size buffer ↔ IntactTo volume disk first steps size := by
  have hpos := hvolume.clusterBytes_pos
  rw [RunsTo, readClusters_fst hvolume hsize, ← chainReadable_iff hvolume]
  refine and_congr_right fun hread ↦ and_congr_left fun harea ↦
    forall₂_congr fun number hnumber ↦ ?_
  subst hnumber
  rw [Nat.succ_mul] at hsteps
  have hhere := hread.clusters number ((lt_clustersOf_iff hpos).2 (by dsimp only; omega))
  simp only [Option.isSome_iff_exists, hvolume.readFatEntry_eq_some hhere, exists_and_left,
    exists_eq_left']
  exact and_iff_left (harea.2.trans (Nat.add_lt_add_right hvolume.clusterCount_lt 2))

/-- The calls stay below a limit if and only if what they come to lies there. -/
theorem callAsks_below_iff :
    (∀ lba, CallAsks volume disk lba → Below volume limit lba) ↔ Inside volume disk limit := by
  constructor
  · intro h
    refine ⟨fun index hindex hearlier ↦ h _ (.fileCount ⟨index, hindex, listSectors_none
      (fun _ hmem ↦ hearlier _ (List.mem_range.1 hmem)) 0, rfl⟩), ?_, ?_⟩
    · rintro (_ | bytes) first ⟨harea, entry, hentry, hdirectory⟩ component shortName hname steps
        hsteps hpassed index hindex hsectors
      · cases hentry
      obtain ⟨hcharacters, hlength, hname⟩ := shortNameFromText_text hname
      have hzeros : ∀ byte ∈ CString.text bytes ++ [0x2F] ++ CString.text component ++ [],
          byte ≠ 0 := by
        grind [CString.ne_zero_of_mem_text]
      refine h _ (.findPath (CString.text bytes ++ [0x2F] ++ CString.text component ++ []) ?_)
      rw [CString.text_eq_self hzeros]
      refine ⟨?_, _, _, [], rfl, .inl rfl,
        fun hmem ↦ (hcharacters _ hmem).2 rfl, hlength, .at first, shortName,
        ⟨_, rfl, harea, entry, ?_, hdirectory⟩, hname, _,
        (mem_lookupClusters hvolume).2 ⟨harea, steps, hsteps, rfl, hpassed⟩,
        .inl ⟨index, ⟨hindex, scanSectors_cluster.2 hsectors⟩, rfl⟩⟩
      · cases hbytes : CString.text bytes with
        | nil => simp [findPath, hbytes, findPathFrom, findComponent] at hentry
        | cons character rest =>
          intro hslash
          simp [findPath, hbytes, Option.some.inj hslash] at hentry
      · rwa [findPath, CString.text_text]
    · intro path entry hentry hplain hbounded steps index hindex hsize hintact
      exact h _ (.readFile path entry ⟨fun _ ↦ 0, []⟩ hentry hplain hbounded
        (.inl ⟨steps, index, hindex, hsize, (runsTo_iff hvolume (Nat.le_add_right _ _)
          (hsize.le.trans hbounded)).2 hintact, rfl⟩))
  · intro h lba hasks
    cases hasks with
    | fileCount hlist | fileName index hlist =>
      obtain ⟨index, hindex, ⟨total, hlist⟩, rfl⟩ := hlist
      exact h.root index hindex fun earlier hearlier ↦
        listSectors_onward hlist earlier (List.mem_range.2 hearlier)
    | findPath name hpath =>
      obtain ⟨-, before, component, rest, -, -, -, -, directory, shortName, hleads, hname,
        hlookup⟩ := hpath
      exact h.lookup hvolume hleads hname hlookup
    | readFile name entry buffer hentry hplain hbounded hfile =>
      rcases hfile with ⟨steps, index, hindex, hsize, hruns, rfl⟩ | ⟨steps, -, -, hlink⟩
      · exact h.files name entry hentry hplain hbounded steps index hindex hsize
          ((runsTo_iff hvolume (Nat.le_add_right _ _) (hsize.le.trans hbounded)).1 hruns)
      · exact fun _ _ ↦ h.link hvolume hlink

end Sound

end EfesOS.Fs.Fat

namespace EfesOS.Fs.Vfs

open EfesOS.Foundation EfesOS.Drivers EfesOS.Fs.Fat
open EfesOS.Fs.Journal (Sector)

/-! ### Partitions -/

/-- The read callback of a driver for a device with this content. -/
def storedRead (disk : Disk) (lba count : ℕ) (state : Unit) : Option (List Sector) × Unit :=
  ((List.range' lba count).mapM disk, state)

/-- What a volume on the device can read. -/
def deviceSectors (device : Option BlockDevice) (disk : Disk) : Disk :=
  fun lba ↦ (volumeRead (storedRead disk) device lba ()).1

/-- The first sector and the number of sectors of an entry of the partition table. -/
def partitionStart (mbr : Sector) (index : ℕ) : ℕ := mbr.readU32 (446 + index * 16 + 8)

def partitionLength (mbr : Sector) (index : ℕ) : ℕ := mbr.readU32 (446 + index * 16 + 12)

/-- The state after `vfs_init`. -/
def initialVfs (device : Option BlockDevice) (disk : Disk) : VfsState :=
  (vfsInit (storedRead disk) device ()).1

/-- `vfs_init` finds no volume at the start of the device, and finds one through this entry of its
partition table. -/
structure FoundThrough (device : Option BlockDevice) (disk : Disk) (mbr : Sector) (index : ℕ)
    (volume : FatVolume) : Prop where
  mounted : (initialVfs device disk).volume = some volume
  whole : (mountAt (storedRead disk) device 0 ()).1 = none
  table : deviceSectors device disk 0 = some mbr
  index_lt : index < 4
  earlier : ∀ entry < index, (mountPartitions (storedRead disk) device mbr 1 entry ()).1 = none
  here : (mountPartitions (storedRead disk) device mbr 1 index ()).1 = some volume

/-- The sectors that the calls read when the device has this content lie in a partition. -/
def Confined (vfs : VfsState) (disk : Disk) (start length : ℕ) : Prop :=
  ∀ volume, vfs.volume = some volume → ∀ lba,
    CallAsks volume (deviceSectors vfs.storageDevice disk) lba → volume.startLba ≤ lba →
      lba < volume.startLba + volume.totalSectors → start ≤ lba ∧ lba < start + length

variable {device : Option BlockDevice} {disk : Disk} {mbr : Sector} {index : ℕ}
  {volume : FatVolume}

theorem FoundThrough.mount (hfound : FoundThrough device disk mbr index volume) :
    ∃ after, fatMount (volumeRead (storedRead disk) device) (partitionStart mbr index) () =
      (.ok volume, after) := by
  have hhere := hfound.here
  simp only [mountPartitions, mountAt] at hhere
  grind [partitionStart]

/-- A mounted partition is not left if and only if what the calls come to lies inside. -/
theorem partition_mount_confined_iff (hfound : FoundThrough device disk mbr index volume)
    (later : Disk) :
    Confined (initialVfs device disk) later (partitionStart mbr index)
        (partitionLength mbr index) ↔
      Inside volume (deviceSectors (initialVfs device disk).storageDevice later)
        (partitionStart mbr index + partitionLength mbr index) := by
  obtain ⟨after, hmount⟩ := hfound.mount
  have hstart : volume.startLba = partitionStart mbr index := by
    obtain ⟨boot, -, rfl⟩ := fatMount_boot hmount
    rfl
  rw [← callAsks_below_iff (sound_of_fatMount hmount), Confined, hfound.mounted]
  simp only [Option.some.injEq, forall_eq', Below, hstart]
  exact forall₄_congr fun _ _ hle _ ↦ and_iff_right hle

/-- A partition table whose first entry has this length. -/
def partedTable (length : ℕ) : Sector :=
  ((((Buffer.zeroed 512).setBytes 450 [6, 0, 0, 0, 1]).writeU32 458 length).setByte 510
    0x55).setByte 511 0xAA

/-- The small volume in that partition, of which it needs 4103 sectors. -/
def partedDisk (length : ℕ) : Disk
  | 0 => some (partedTable length)
  | lba + 1 => smallDisk lba

def partedDevice : Option BlockDevice := some ⟨blockDeviceMagic, 6000, 512, 128, true, false⟩

def partedVolume : FatVolume := ⟨1, 4103, 2, 18, 19, 16, 1, 16, 1, 4085⟩

theorem foundThrough_parted {length : ℕ} (hlength : length = 16 ∨ length = 4102) :
    FoundThrough partedDevice (partedDisk length) (partedTable length) 0 partedVolume ∧
      partitionStart (partedTable length) 0 = 1 ∧
      partitionLength (partedTable length) 0 = length := by
  rcases hlength with rfl | rfl <;> refine ⟨⟨?_, ?_, rfl, ?_, by simp, ?_⟩, ?_, ?_⟩ <;>
    decide +kernel

/-- Without entries in the root directory there is nothing to be found. -/
theorem findPath_empty {disk : Disk}
    (hroot : readSector partedVolume disk 18 = some (Buffer.zeroed 512)) (path : Pointer) :
    findPath partedVolume disk path = none := by
  have hcomponent : ∀ component, findComponent partedVolume disk .root component = none := by
    intro component
    unfold findComponent
    split_ifs
    · rfl
    · cases shortNameFromText component with
      | none => rfl
      | some shortName =>
        have hscan : scanRoot partedVolume disk shortName = .stop := by
          rw [scanRoot, show List.range ((partedVolume.rootEntries + 15) / 16) = [0] from rfl,
            scanSectors, show partedVolume.rootStart + 0 = 18 from rfl, hroot]
          rfl
        simp only [findEntryInDirectory, hscan]
  have hfrom : ∀ characters component,
      findPathFrom partedVolume disk characters component .root = none := by
    intro characters
    induction characters with
    | nil => exact hcomponent
    | cons character rest ih => grind [findPathFrom]
  cases path with
  | none => rfl
  | some bytes => simp [findPath, hfrom]

/-- The partition is one sector shorter than the volume, whose file has been removed. -/
theorem partition_mount_confined_iff_short :
    Confined (initialVfs partedDevice (partedDisk 4102))
      (Function.update (partedDisk 4102) 18 (some (Buffer.zeroed 512)))
      (partitionStart (partedTable 4102) 0) (partitionLength (partedTable 4102) 0) := by
  obtain ⟨hfound, hstart, hlength⟩ := foundThrough_parted (.inr rfl)
  refine (partition_mount_confined_iff hfound _).2 ?_
  have hdevice : (initialVfs partedDevice (partedDisk 4102)).storageDevice = partedDevice := by
    decide +kernel
  have hpath := @findPath_empty (deviceSectors partedDevice
    (Function.update (partedDisk 4102) 18 (some (Buffer.zeroed 512)))) rfl
  rw [hstart, hlength, hdevice]
  refine ⟨fun index hindex _ _ _ ↦ ?_, ?_, ?_⟩
  · change index < 1 at hindex
    change 18 + index < 4103
    omega
  · rintro path first ⟨-, entry, hentry, -⟩
    simp [hpath] at hentry
  · intro path entry hentry
    simp [hpath] at hentry

/-- In a partition of 16 sectors the files are counted in a sector behind it. -/
theorem short_partition_left :
    FoundThrough partedDevice (partedDisk 16) (partedTable 16) 0 partedVolume ∧
      partitionStart (partedTable 16) 0 = 1 ∧ partitionLength (partedTable 16) 0 = 16 ∧
      fatFileCount partedVolume (deviceSectors partedDevice (partedDisk 16)) = 1 ∧
      fatFileCount partedVolume
        (deviceSectors partedDevice (Function.update (partedDisk 16) 18 none)) = 0 ∧
      ¬Confined (initialVfs partedDevice (partedDisk 16)) (partedDisk 16) 1 16 := by
  obtain ⟨hfound, hpartition⟩ := foundThrough_parted (.inl rfl)
  refine ⟨hfound, hpartition.1, hpartition.2, by decide +kernel, by decide +kernel,
    fun hconfined ↦ ?_⟩
  have hread := hconfined partedVolume hfound.mounted 18 (.fileCount ⟨0, by decide, ⟨0, rfl⟩, rfl⟩)
    (by decide) (by decide)
  omega

end EfesOS.Fs.Vfs
