import EfesOS.Fs.Fat
import EfesOS.Foundation.CString
import EfesOS.Foundation.Copying

/-!
# Files of a FAT16 volume

The functions of `fs/fat.c` that find an entry by its path, read a file and list the files. The
device is stable: a sector has its bytes or cannot be read, so a read has no effect and `Disk` is a
function. The volume is mounted, and the pointers to it, to the short name and to the buffer are not
null.

The position of a cluster is computed in 32 bits: the clusters of a directory come from the table
without a check, so the difference to the first cluster can wrap.
-/

set_option autoImplicit false

namespace EfesOS.Fs.Fat

open EfesOS.Foundation
open EfesOS.Fs.Journal (Sector)

abbrev fat16Eoc : ℕ := 0xFFF8

abbrev fat16Bad : ℕ := 0xFFF7

abbrev fatAttrDirectory : UInt8 := 0x10

abbrev fatAttrVolumeId : UInt8 := 0x08

abbrev fatAttrLfn : UInt8 := 0x0F

/-- What can be read from the device. -/
abbrev Disk := ℕ → Option Sector

abbrev ShortName := Buffer 11

/-- An entry of a directory. -/
abbrev DirectoryEntry := Buffer 32

variable (volume : FatVolume) (disk : Disk)

def readSector (lba : ℕ) : Option Sector :=
  if lba < volume.startLba ∨ volume.totalSectors ≤ lba - volume.startLba then none else disk lba

/-! ### Names -/

/-- The loop that looks for the dot, from a position on. -/
def findDot (length : ℕ) : List UInt8 → ℕ → ℕ → Option ℕ
  | [], _, dot => some dot
  | character :: rest, index, dot =>
    if character = 0x2E then
      if dot ≠ length ∨ index = 0 ∨ index + 1 = length then none
      else findDot length rest (index + 1) index
    else findDot length rest (index + 1) dot

def characterRefused (character : UInt8) : Bool :=
  character < 0x21 || character == 0x2F || character == 0x5C || character == 0x3A ||
    character == 0x22 || character == 0x2A || character == 0x3F || character == 0x3C ||
    character == 0x3E || character == 0x7C

def upperCase (character : UInt8) : UInt8 :=
  if 0x61 ≤ character ∧ character ≤ 0x7A then character - 0x20 else character

/-- The loop that fills the short name. -/
def fillShortName : List UInt8 → ℕ → ShortName → Option (ℕ × ShortName)
  | [], output, shortName => some (output, shortName)
  | character :: rest, output, shortName =>
    if character = 0x2E then fillShortName rest 8 shortName
    else if characterRefused character then none
    else if 11 ≤ output then none
    else fillShortName rest (output + 1) (shortName.setByte output (upperCase character))

def shortNameFromText (text : List UInt8) : Option ShortName :=
  let length := CString.boundedLength text 13
  if length = 0 ∨ 13 ≤ length then none
  else
    match findDot length (text.take length) 0 length with
    | none => none
    | some dot =>
      if 8 < dot ∨ (dot ≠ length ∧ 3 < length - dot - 1) then none
      else
        match fillShortName (text.take length) 0 (Vector.replicate 11 0x20) with
        | none => none
        | some (output, shortName) => if output = 0 then none else some shortName

def nameMatches (entry : DirectoryEntry) (shortName : ShortName) : Bool :=
  (List.range 11).all fun index ↦ entry.byteAt index == shortName.byteAt index

/-! ### The table -/

/-- Whether a copy of the table has the same two bytes as the first. -/
def mirrorAgrees (primary : Sector) (offset fatIndex : ℕ) : Bool :=
  match readSector volume disk
    (volume.fatStart + fatIndex * volume.sectorsPerFat + offset / fatSectorSize) with
  | none => false
  | some mirror =>
    mirror.byteAt (offset % fatSectorSize) == primary.byteAt (offset % fatSectorSize) &&
      mirror.byteAt (offset % fatSectorSize + 1) == primary.byteAt (offset % fatSectorSize + 1)

def readFatEntry (cluster : ℕ) : Option ℕ :=
  let offset := cluster * 2
  if cluster < 2 ∨ volume.clusterCount + 2 ≤ cluster then none
  else
    match readSector volume disk (volume.fatStart + offset / fatSectorSize) with
    | none => none
    | some primary =>
      if (List.range' 1 (volume.fatCount - 1)).all (mirrorAgrees volume disk primary offset) then
        let nextCluster := primary.readU16 (offset % fatSectorSize)
        if nextCluster ≠ fat16Bad ∧ nextCluster < fat16Eoc then some nextCluster else none
      else none

/-- The address of a sector of a cluster. -/
def clusterSector (cluster sectorIndex : ℕ) : ℕ :=
  (volume.dataStart + (4294967294 + cluster) % 4294967296 * volume.sectorsPerCluster % 4294967296 +
    sectorIndex) % 18446744073709551616

/-! ### Directories -/

/-- What the scan of a part of a directory came to. -/
inductive Scan where
  | found (entry : DirectoryEntry)
  | stop
  | onward

/-- The entry at a place of a sector. -/
def candidateAt (sector : Sector) (item : ℕ) : DirectoryEntry :=
  Vector.ofFn fun index ↦ sector.byteAt (item * 32 + index)

/-- The loop over the entries of a sector. -/
def scanItems (shortName : ShortName) (sector : Sector) : List ℕ → Scan
  | [] => .onward
  | item :: rest =>
    let candidate := candidateAt sector item
    if candidate.byteAt 0 = 0 then .stop
    else if candidate.byteAt 0 = 0xE5 ∨ candidate.byteAt 11 = fatAttrLfn ∨
        candidate.byteAt 11 &&& fatAttrVolumeId ≠ 0 then scanItems shortName sector rest
    else if nameMatches candidate shortName then .found candidate
    else scanItems shortName sector rest

/-- The loop over the sectors of a directory or of one of its clusters. -/
def scanSectors (shortName : ShortName) (lba : ℕ → ℕ) (items : ℕ → List ℕ) : List ℕ → Scan
  | [] => .onward
  | sectorIndex :: rest =>
    match readSector volume disk (lba sectorIndex) with
    | none => .stop
    | some sector =>
      match scanItems shortName sector (items sectorIndex) with
      | .onward => scanSectors shortName lba items rest
      | result => result

def scanRoot (shortName : ShortName) : Scan :=
  scanSectors volume disk shortName (fun sectorIndex ↦ volume.rootStart + sectorIndex)
    (fun sectorIndex ↦ (List.range 16).takeWhile fun item ↦
      sectorIndex * 16 + item < volume.rootEntries)
    (List.range ((volume.rootEntries + 15) / 16))

def scanCluster (shortName : ShortName) (cluster : ℕ) : Scan :=
  scanSectors volume disk shortName (clusterSector volume cluster) (fun _ ↦ List.range 16)
    (List.range volume.sectorsPerCluster)

/-- The loop over the clusters of a directory; the guard counts down. -/
def walkDirectory (shortName : ShortName) : ℕ → ℕ → Option DirectoryEntry
  | 0, _ => none
  | guard + 1, cluster =>
    match scanCluster volume disk shortName cluster with
    | .found entry => some entry
    | .stop => none
    | .onward =>
      match readFatEntry volume disk cluster with
      | none => none
      | some nextCluster => walkDirectory shortName guard nextCluster

/-- `struct fat_directory`. -/
inductive Directory where
  | root
  | at (cluster : ℕ)

def findEntryInDirectory (shortName : ShortName) : Directory → Option DirectoryEntry
  | .root =>
    match scanRoot volume disk shortName with
    | .found entry => some entry
    | _ => none
  | .at cluster =>
    if cluster < 2 ∨ volume.clusterCount + 2 ≤ cluster then none
    else walkDirectory volume disk shortName volume.clusterCount cluster

/-- Look up one component of a path. -/
def findComponent (directory : Directory) (component : List UInt8) : Option DirectoryEntry :=
  if component = [] then none
  else
    match shortNameFromText component with
    | none => none
    | some shortName => findEntryInDirectory volume disk shortName directory

/-- The loop over the characters of a path, with the component read so far. -/
def findPathFrom : List UInt8 → List UInt8 → Directory → Option DirectoryEntry
  | [], component, directory => findComponent volume disk directory component
  | character :: rest, component, directory =>
    if character = 0x2F then
      match findComponent volume disk directory component with
      | none => none
      | some entry =>
        let cluster := entry.readU16 26
        if entry.byteAt 11 &&& fatAttrDirectory = 0 ∨ cluster < 2 ∨
            volume.clusterCount + 2 ≤ cluster ∨ rest = [] then none
        else findPathFrom rest [] (.at cluster)
    else if 13 ≤ component.length + 1 then none
    else findPathFrom rest (component ++ [character]) directory

def findPath (path : Pointer) : Option DirectoryEntry :=
  match path with
  | none => none
  | some bytes =>
    if (CString.text bytes).head? = some 0x2F then none
    else findPathFrom volume disk (CString.text bytes) [] .root

/-! ### Reading -/

/-- The variables of the read loop and the buffer. -/
structure Progress where
  remaining : ℕ
  output : ℕ
  buffer : Logged ℕ UInt8

/-- Copy the bytes of a sector that belong to the file. -/
def copySector (sector : Sector) (progress : Progress) : Progress :=
  let amount := min progress.remaining fatSectorSize
  { remaining := progress.remaining - amount
    output := progress.output + amount
    buffer := progress.buffer.copy (fun offset ↦ progress.output + offset) sector.byteAt amount }

/-- The loop over the sectors of a cluster. -/
def readSectors (cluster : ℕ) : ℕ → ℕ → Progress → Bool × Progress
  | 0, _, progress => (true, progress)
  | count + 1, sectorIndex, progress =>
    if progress.remaining = 0 then (true, progress)
    else
      match readSector volume disk (clusterSector volume cluster sectorIndex) with
      | none => (false, progress)
      | some sector => readSectors cluster count (sectorIndex + 1) (copySector sector progress)

/-- The loop over the clusters of a file; the guard counts down. -/
def readClusters : ℕ → ℕ → Progress → Bool × Progress
  | 0, _, progress => (decide (progress.remaining = 0), progress)
  | guard + 1, cluster, progress =>
    if progress.remaining = 0 then (true, progress)
    else if cluster < 2 ∨ volume.clusterCount + 2 ≤ cluster then (false, progress)
    else
      match readSectors volume disk cluster volume.sectorsPerCluster 0 progress with
      | (false, progress) => (false, progress)
      | (true, progress) =>
        if progress.remaining = 0 then (true, progress)
        else
          match readFatEntry volume disk cluster with
          | none => (false, progress)
          | some nextCluster => readClusters guard nextCluster progress

/-- The result of `fat_read_file`, `*size` and the buffer. -/
structure ReadResult where
  returned : Bool
  size : ℕ
  buffer : Logged ℕ UInt8

def fatReadFile (name : Pointer) (buffer : Logged ℕ UInt8) (capacity : ℕ) : ReadResult :=
  match findPath volume disk name with
  | none => ⟨false, 0, buffer⟩
  | some entry =>
    if entry.byteAt 11 &&& (fatAttrDirectory ||| fatAttrVolumeId ||| fatAttrLfn) ≠ 0 then
      ⟨false, 0, buffer⟩
    else
      let remaining := entry.readU32 28
      let maxSectors := volume.clusterCount * volume.sectorsPerCluster
      let cluster := entry.readU16 26
      if capacity < remaining ∨ maxSectors < remaining / fatSectorSize ∨
          (remaining % fatSectorSize ≠ 0 ∧ maxSectors ≤ remaining / fatSectorSize) then
        ⟨false, 0, buffer⟩
      else if remaining = 0 then ⟨decide (cluster = 0), 0, buffer⟩
      else
        match readClusters volume disk volume.clusterCount cluster ⟨remaining, 0, buffer⟩ with
        | (false, progress) => ⟨false, 0, progress.buffer⟩
        | (true, progress) => ⟨true, progress.output, progress.buffer⟩

/-! ### Listing -/

/-- The entries that are listed: not deleted, not part of a long name, no directory and no label. -/
def isFile (entry : DirectoryEntry) : Bool :=
  entry.byteAt 0 ≠ 0xE5 ∧ entry.byteAt 11 ≠ fatAttrLfn ∧
    entry.byteAt 11 &&& (fatAttrDirectory ||| fatAttrVolumeId) = 0

/-- What the loops of `fat_file_count` and `fat_file_name` came to, with the files counted so
far. -/
inductive Listing where
  | found (entry : DirectoryEntry)
  | stop (count : ℕ)
  | onward (count : ℕ)

/-- The loop over the entries of a sector; `fat_file_name` wants one of the files. -/
def listItems (wanted : Option ℕ) (sector : Sector) : List ℕ → ℕ → Listing
  | [], count => .onward count
  | item :: rest, count =>
    let entry := candidateAt sector item
    if entry.byteAt 0 = 0 then .stop count
    else if ¬isFile entry then listItems wanted sector rest count
    else if wanted = some count then .found entry
    else listItems wanted sector rest (count + 1)

/-- The loop over the sectors of the root directory. -/
def listSectors (wanted : Option ℕ) : List ℕ → ℕ → Listing
  | [], count => .onward count
  | sectorIndex :: rest, count =>
    match readSector volume disk (volume.rootStart + sectorIndex) with
    | none => .stop count
    | some sector =>
      match listItems wanted sector ((List.range 16).takeWhile fun item ↦
        sectorIndex * 16 + item < volume.rootEntries) count with
      | .onward count => listSectors wanted rest count
      | result => result

def fatFileCount : ℕ :=
  match listSectors volume disk none (List.range ((volume.rootEntries + 15) / 16)) 0 with
  | .found _ => 0
  | .stop count | .onward count => count

/-- The loops that append the characters in front of the first space, while there is room. -/
def appendCharacters (capacity : ℕ) : List UInt8 → List UInt8 → List UInt8
  | [], text => text
  | character :: rest, text =>
    if character = 0x20 then text
    else if text.length + 1 < capacity then appendCharacters capacity rest (text ++ [character])
    else appendCharacters capacity rest text

def entryToText (entry : DirectoryEntry) (capacity : ℕ) : List UInt8 :=
  let text := appendCharacters capacity (entry.slice 0 8) []
  if entry.byteAt 8 ≠ 0x20 ∧ text.length + 1 < capacity then
    appendCharacters capacity (entry.slice 8 3) (text ++ [0x2E])
  else text

/-- The bytes written to the name, if a file has the index; the name may be a null pointer. -/
def fatFileName (hasName : Bool) (index capacity : ℕ) : Option (List UInt8) :=
  if ¬hasName ∨ capacity = 0 then none
  else
    match listSectors volume disk (some index) (List.range ((volume.rootEntries + 15) / 16)) 0 with
    | .found entry => some (entryToText entry capacity ++ [0])
    | _ => none

end EfesOS.Fs.Fat
