import EfesOS.Drivers.BlockDevice
import EfesOS.Foundation.SectorIO

/-!
# The ATA driver

The parts of `drivers/ata.c` the filesystems rest on: capacity detection, the request checks, reads
with their retries, and writes through the transactional window. The drive behind the driver is a
record of its sectors and of the faults it will show. Every attempt of every read request may fail,
and every write request may stop before its first command, at any sector with the old or the new
bytes in place, or at the final cache flush.

Requests run one at a time, so the `request_active` guard never refuses one; the DMA and interrupt
paths differ from the polled ones only in when they fail, which the fault record leaves open.

`ataModel` is the driver as a device whose reads are understood, `ataCallbacks_write` says what
a one-sector write leaves, and `ataInit_cases` that a detected drive is within reach of
its addressing mode.
-/

set_option autoImplicit false

namespace EfesOS.Drivers

open EfesOS.Foundation
open EfesOS.Fs.Journal (Sector)

abbrev ataLba28Limit : ℕ := 0x10000000
abbrev ataLba48SectorCountMax : ℕ := 0x0001000000000000
abbrev ataReadAttempts : ℕ := 3

/-- How a write request goes wrong. -/
inductive WriteFault
  /-- The request succeeds. -/
  | clear
  /-- The drive stays busy and no command is issued. -/
  | busy
  /-- The command for this sector fails, with the old or the new bytes in place. -/
  | sector (index : ℕ) (stored : Bool)
  /-- All sectors are stored and the flush fails. -/
  | flush
deriving DecidableEq

/-- The drive: its sectors, the faults of its read requests by request and attempt and of its write
requests, the number of requests so far, and the addresses write commands were issued for. -/
structure Drive where
  disk : ℕ → Sector
  readFault : ℕ → ℕ → Bool
  writeFault : ℕ → WriteFault
  reads : ℕ
  writes : ℕ
  commands : List ℕ

/-- The state of the driver and the drive behind it. -/
structure Ata where
  devicePresent : Bool
  sectors : ℕ
  lba48Supported : Bool
  writesProtected : Bool
  writeWindowStart : ℕ
  writeWindowSectors : ℕ
  primaryBlockDevice : BlockDevice
  drive : Drive

/-! ### The source functions -/

def requestNeedsLba48 (lba count : ℕ) : Bool :=
  lba ≥ ataLba28Limit ∨ count > ataLba28Limit - lba

def selectRequest (ata : Ata) (lba count : ℕ) : Bool :=
  if requestNeedsLba48 lba count then ata.lba48Supported else true

def validRequest (ata : Ata) (lba count : ℕ) : Bool :=
  ata.devicePresent ∧ count ≠ 0 ∧ count ≤ 128 ∧ lba < ata.sectors ∧ count ≤ ata.sectors - lba

/-- The capacity that the identify data announce, and whether it is addressed by LBA48. -/
def identifiedCapacity (identify : ℕ → UInt16) : Option (ℕ × Bool) :=
  if (identify 49 &&& 0x0200) = 0 then none
  else if (identify 83 &&& 0x0400) ≠ 0 then
    let sectors := (identify 100).toNat ||| ((identify 101).toNat <<< 16) |||
      ((identify 102).toNat <<< 32) ||| ((identify 103).toNat <<< 48)
    if sectors = 0 ∨ sectors > ataLba48SectorCountMax then none else some (sectors, true)
  else
    let sectors := ((identify 61).toNat <<< 16) ||| (identify 60).toNat
    if sectors = 0 ∨ sectors > ataLba28Limit then none else some (sectors, false)

/-- The driver after `ata_init`. The identify data are `none` when the drive does not answer. -/
def ataInit (identify : Option (ℕ → UInt16)) (ata : Ata) : Ata :=
  let reset : Ata :=
    { devicePresent := false
      sectors := 0
      lba48Supported := false
      writesProtected := true
      writeWindowStart := 0
      writeWindowSectors := 0
      primaryBlockDevice := blockDeviceReset
      drive := ata.drive }
  match identify.bind identifiedCapacity with
  | none => reset
  | some (sectors, lba48) =>
    match blockDeviceConfigure sectors blockDeviceSectorSize 128 true false with
    | (false, device) => { reset with lba48Supported := lba48, primaryBlockDevice := device }
    | (true, device) =>
      { reset with
        devicePresent := true
        sectors := sectors
        lba48Supported := lba48
        primaryBlockDevice := device }

/-- Up to three attempts; the request is answered by the first that succeeds. -/
def ataReadSectors (lba count : ℕ) (ata : Ata) : Option (List Sector) × Ata :=
  if ¬validRequest ata lba count then (none, ata)
  else
    let answered := (List.range ataReadAttempts).any fun attempt ↦
      selectRequest ata lba count && !ata.drive.readFault ata.drive.reads attempt
    (if answered then some ((List.range' lba count).map ata.drive.disk) else none,
      { ata with drive := { ata.drive with reads := ata.drive.reads + 1 } })

def ataBlockRead (lba count : ℕ) (ata : Ata) : Option (List Sector) × Ata :=
  if count > 128 then (none, ata) else ataReadSectors lba count ata

def ataBlockDevice (ata : Ata) : Option BlockDevice :=
  if blockDeviceIsReady (some ata.primaryBlockDevice) then some ata.primaryBlockDevice else none

/-- The driver with its write window set. -/
def openWindow (startLba sectorCount : ℕ) (ata : Ata) : Ata :=
  { ata with
    writeWindowStart := startLba
    writeWindowSectors := sectorCount
    writesProtected := false }

def ataEnableTransactionalWrites (startLba sectorCount : ℕ) (ata : Ata) : Bool × Ata :=
  if ¬ata.devicePresent ∨ sectorCount = 0 ∨ startLba ≥ ata.sectors ∨
      sectorCount > ata.sectors - startLba then (false, ata)
  else (true, openWindow startLba sectorCount ata)

def ataDisableTransactionalWrites (ata : Ata) : Ata :=
  { ata with writeWindowStart := 0, writeWindowSectors := 0, writesProtected := true }

/-- The write window admits the request. -/
def windowAdmits (ata : Ata) (lba count : ℕ) : Bool :=
  ¬ata.writesProtected ∧ validRequest ata lba count ∧ ata.writeWindowStart ≤ lba ∧
    lba - ata.writeWindowStart < ata.writeWindowSectors ∧
    count ≤ ata.writeWindowSectors - (lba - ata.writeWindowStart)

def storeSector (lba : ℕ) (sector : Sector) (ata : Ata) : Ata :=
  { ata with drive := { ata.drive with disk := Function.update ata.drive.disk lba sector } }

def issueWrite (lba : ℕ) (ata : Ata) : Ata :=
  { ata with drive := { ata.drive with commands := ata.drive.commands ++ [lba] } }

/-- The sector loop of a write request, from sector `index` on. -/
def writeLoop (fault : WriteFault) (lba : ℕ) : List Sector → ℕ → Ata → Bool × Ata
  | [], _, ata => (fault ≠ .flush, ata)
  | sector :: rest, index, ata =>
    if ¬selectRequest ata (lba + index) 1 then (false, ata)
    else
      let issued := issueWrite (lba + index) ata
      if fault = .sector index false then (false, issued)
      else
        let written := storeSector (lba + index) sector issued
        if fault = .sector index true then (false, written)
        else writeLoop fault lba rest (index + 1) written

def ataWriteSectors (lba : ℕ) (buffer : List Sector) (ata : Ata) : Bool × Ata :=
  if ¬windowAdmits ata lba buffer.length then (false, ata)
  else
    let fault := ata.drive.writeFault ata.drive.writes
    let counted : Ata := { ata with drive := { ata.drive with writes := ata.drive.writes + 1 } }
    if fault = .busy then (false, counted) else writeLoop fault lba buffer 0 counted

/-- The one-sector callbacks the journal is given. -/
def ataCallbacks : SectorIO Ata Sector where
  read lba ata :=
    match ataReadSectors lba 1 ata with
    | (some (sector :: _), ata) => (some sector, ata)
    | (_, ata) => (none, ata)
  write lba sector ata := ataWriteSectors lba [sector] ata

/-! ### Detected drives -/

/-- The whole drive is within reach of its addressing mode. -/
structure Ata.WellFormed (ata : Ata) : Prop where
  lba48 : ata.devicePresent = true → ata.sectors ≤ ataLba48SectorCountMax
  lba28 : ata.devicePresent = true → ata.lba48Supported = false → ata.sectors ≤ ataLba28Limit

theorem identifiedCapacity_bounds {identify : ℕ → UInt16} {sectors : ℕ} {lba48 : Bool}
    (h : identifiedCapacity identify = some (sectors, lba48)) :
    0 < sectors ∧ sectors ≤ ataLba48SectorCountMax ∧
      (lba48 = false → sectors ≤ ataLba28Limit) := by
  simp only [identifiedCapacity] at h
  have hlimits : ataLba28Limit ≤ ataLba48SectorCountMax := by decide
  split_ifs at h with _ _ hwide hnarrow
  · obtain ⟨rfl, rfl⟩ := Prod.mk.inj (Option.some.inj h)
    rw [not_or, not_lt] at hwide
    exact ⟨Nat.pos_of_ne_zero hwide.1, hwide.2, fun hfalse ↦ absurd hfalse (by decide)⟩
  · obtain ⟨rfl, rfl⟩ := Prod.mk.inj (Option.some.inj h)
    rw [not_or, not_lt] at hnarrow
    exact ⟨Nat.pos_of_ne_zero hnarrow.1, hnarrow.2.trans hlimits, fun _ ↦ hnarrow.2⟩

/-- What `ata_init` leaves: no drive, or a drive within reach and its block device; in both cases
writes are protected. -/
theorem ataInit_cases (identify : Option (ℕ → UInt16)) (ata : Ata) :
    (ataInit identify ata).WellFormed ∧ (ataInit identify ata).writesProtected = true ∧
      (ataInit identify ata).drive = ata.drive ∧
      blockDeviceSectorCount (ataBlockDevice (ataInit identify ata)) =
        (ataInit identify ata).sectors := by
  cases hcapacity : identify.bind identifiedCapacity with
  | none =>
    simp only [ataInit, hcapacity]
    refine ⟨⟨?_, ?_⟩, trivial, trivial, rfl⟩
    · simp
    · simp
  | some capacity =>
    obtain ⟨sectors, lba48⟩ := capacity
    obtain ⟨words, -, hwords⟩ := Option.bind_eq_some_iff.mp hcapacity
    obtain ⟨hpositive, hwide, hnarrow⟩ := identifiedCapacity_bounds hwords
    have hconfigure : blockDeviceConfigure sectors blockDeviceSectorSize 128 true false =
        (true, ⟨blockDeviceMagic, sectors, blockDeviceSectorSize, 128, true, false⟩) := by
      rw [blockDeviceConfigure, if_neg]
      simp [hpositive.ne']
    simp only [ataInit, hcapacity, hconfigure]
    refine ⟨⟨fun _ ↦ hwide, fun _ h ↦ hnarrow h⟩, trivial, trivial, ?_⟩
    simp [ataBlockDevice, blockDeviceSectorCount, blockDeviceIsReady, hpositive.ne']

variable {ata : Ata} {lba : ℕ}

/-- Every valid request to a well-formed drive can be selected. -/
theorem selectRequest_of_valid (hwell : ata.WellFormed) {count : ℕ}
    (hvalid : validRequest ata lba count = true) : selectRequest ata lba count = true := by
  simp only [validRequest, decide_eq_true_eq] at hvalid
  obtain ⟨hpresent, -, -, hlba, hcount⟩ := hvalid
  unfold selectRequest
  split_ifs with hneeds
  · by_contra hlba48
    have hlimit := hwell.lba28 hpresent (by simpa using hlba48)
    simp only [requestNeedsLba48, decide_eq_true_eq] at hneeds
    omega
  · rfl

/-! ### Reads -/

/-- The driver as a device whose reads are understood: a read fails when all attempts do. -/
def ataModel : ReadModel ataCallbacks where
  stored ata := ata.drive.disk
  readable ata lba := ata.WellFormed ∧ ata.devicePresent = true ∧ lba < ata.sectors
  fails ata := (List.range ataReadAttempts).all fun attempt ↦
    ata.drive.readFault ata.drive.reads attempt
  next ata := { ata with drive := { ata.drive with reads := ata.drive.reads + 1 } }
  read_eq ata lba hreadable := by
    obtain ⟨hwell, hpresent, hlba⟩ := hreadable
    have hvalid : validRequest ata lba 1 = true := by
      simp only [validRequest, decide_eq_true_eq]
      exact ⟨hpresent, by decide, by decide, hlba, by omega⟩
    have hanswered : ((List.range ataReadAttempts).any fun attempt ↦
        selectRequest ata lba 1 && !ata.drive.readFault ata.drive.reads attempt) =
        !(List.range ataReadAttempts).all fun attempt ↦
          ata.drive.readFault ata.drive.reads attempt := by
      simp only [selectRequest_of_valid hwell hvalid, Bool.true_and, List.not_all_eq_any_not]
    simp only [ataCallbacks, ataReadSectors, hvalid, not_true_eq_false, if_false, hanswered]
    cases (List.range ataReadAttempts).all fun attempt ↦
      ata.drive.readFault ata.drive.reads attempt with
    | true => rfl
    | false => rfl
  stored_next _ := rfl
  readable_next _ := by
    funext lba
    exact propext ⟨fun ⟨⟨h48, h28⟩, hpresent, hlba⟩ ↦ ⟨⟨h48, h28⟩, hpresent, hlba⟩,
      fun ⟨⟨h48, h28⟩, hpresent, hlba⟩ ↦ ⟨⟨h48, h28⟩, hpresent, hlba⟩⟩

theorem ataModel_advance (reads : ℕ) (ata : Ata) :
    ataModel.advance reads ata =
      { ata with drive := { ata.drive with reads := ata.drive.reads + reads } } := by
  induction reads generalizing ata with
  | zero => rfl
  | succ reads ih =>
    rw [ReadModel.advance_succ, ih]
    simp only [ataModel, Nat.add_right_comm, Nat.add_assoc]

/-- Reading changes nothing but the number of requests. -/
theorem ataModel_advance_fields (reads : ℕ) (ata : Ata) :
    (ataModel.advance reads ata).devicePresent = ata.devicePresent ∧
      (ataModel.advance reads ata).sectors = ata.sectors ∧
      (ataModel.advance reads ata).drive.disk = ata.drive.disk := by
  rw [ataModel_advance]
  exact ⟨rfl, rfl, rfl⟩

/-- A valid read request is answered when its first attempt succeeds. -/
theorem ataReadSectors_of_valid (hwell : ata.WellFormed) {count : ℕ}
    (hvalid : validRequest ata lba count = true)
    (hfirst : ata.drive.readFault ata.drive.reads 0 = false) :
    ataReadSectors lba count ata =
      (some ((List.range' lba count).map ata.drive.disk), ataModel.advance 1 ata) := by
  have hanswered : ((List.range ataReadAttempts).any fun attempt ↦
      selectRequest ata lba count && !ata.drive.readFault ata.drive.reads attempt) = true := by
    rw [List.any_eq_true]
    refine ⟨0, by decide, ?_⟩
    rw [selectRequest_of_valid hwell hvalid, hfirst]
    rfl
  rw [ataReadSectors, if_neg (not_not.mpr hvalid)]
  simp only [hanswered, if_true]
  rfl

/-- A read request of any length only counts requests, and what it returns is what the drive
stores. -/
theorem ataReadSectors_cases (lba count : ℕ) (ata : Ata) :
    ∃ reads, (ataReadSectors lba count ata).2 = ataModel.advance reads ata ∧
      ∀ buffer, (ataReadSectors lba count ata).1 = some buffer →
        buffer = (List.range' lba count).map ata.drive.disk := by
  rw [ataReadSectors]
  by_cases hvalid : ¬validRequest ata lba count
  · rw [if_pos hvalid]
    exact ⟨0, rfl, by simp⟩
  · rw [if_neg hvalid]
    refine ⟨1, rfl, fun buffer hbuffer ↦ ?_⟩
    obtain ⟨-, heq⟩ := Option.ite_none_right_eq_some.mp hbuffer
    exact (Option.some.inj heq).symm

theorem ataCallbacks_read_state (lba : ℕ) (ata : Ata) :
    ∃ reads, (ataCallbacks.read lba ata).2 = ataModel.advance reads ata := by
  obtain ⟨reads, hreads, -⟩ := ataReadSectors_cases lba 1 ata
  refine ⟨reads, ?_⟩
  simp only [ataCallbacks]
  rcases hresult : ataReadSectors lba 1 ata with ⟨_ | _ | ⟨sector, rest⟩, after⟩
  · rw [hresult] at hreads
    exact hreads
  · rw [hresult] at hreads
    exact hreads
  · rw [hresult] at hreads
    exact hreads

/-! ### Writes -/

/-- A one-sector request with this fault leaves the new bytes in place. -/
def WriteFault.stores : WriteFault → Bool
  | clear => true
  | busy => false
  | sector 0 stored => stored
  | sector (_ + 1) _ => true
  | flush => true

/-- A one-sector request with this fault reports success. -/
def WriteFault.succeeds : WriteFault → Bool
  | clear => true
  | busy => false
  | sector 0 _ => false
  | sector (_ + 1) _ => true
  | flush => false

/-- The driver after a one-sector request that the window admits. -/
def afterWrite (lba : ℕ) (sector : Sector) (ata : Ata) : Ata :=
  let fault := ata.drive.writeFault ata.drive.writes
  { ata with
    drive :=
      { ata.drive with
        writes := ata.drive.writes + 1
        commands := if fault = .busy then ata.drive.commands else ata.drive.commands ++ [lba]
        disk := if fault.stores then Function.update ata.drive.disk lba sector
          else ata.drive.disk } }

theorem disk_afterWrite (lba : ℕ) (sector : Sector) (ata : Ata) :
    (afterWrite lba sector ata).drive.disk =
      if (ata.drive.writeFault ata.drive.writes).stores then
        Function.update ata.drive.disk lba sector
      else ata.drive.disk := rfl

theorem WriteFault.stores_of_succeeds {fault : WriteFault} (h : fault.succeeds = true) :
    fault.stores = true := by
  rcases fault with _ | _ | ⟨_ | index, stored⟩ | _
  · rfl
  · exact h
  · cases h
  · rfl
  · rfl

theorem ataCallbacks_write (hwell : ata.WellFormed) (hadmits : windowAdmits ata lba 1 = true)
    (sector : Sector) :
    ataCallbacks.write lba sector ata =
      ((ata.drive.writeFault ata.drive.writes).succeeds, afterWrite lba sector ata) := by
  have hvalid : validRequest ata lba 1 = true := by
    simp only [windowAdmits, decide_eq_true_eq] at hadmits
    exact hadmits.2.1
  have hselect : ∀ counted : Ata, counted.lba48Supported = ata.lba48Supported →
      selectRequest counted lba 1 = true := by
    intro counted hcounted
    rw [selectRequest, hcounted]
    exact selectRequest_of_valid hwell hvalid
  simp only [ataCallbacks, ataWriteSectors, List.length_singleton, hadmits, not_true_eq_false,
    if_false, afterWrite]
  rcases hfault : ata.drive.writeFault ata.drive.writes with _ | _ | ⟨_ | index, _ | _⟩ | _
  case busy => simp [WriteFault.stores, WriteFault.succeeds]
  all_goals
    simp [writeLoop, hselect, issueWrite, storeSector, WriteFault.stores, WriteFault.succeeds]

theorem ataCallbacks_write_refused (hadmits : windowAdmits ata lba 1 = false) (sector : Sector) :
    ataCallbacks.write lba sector ata = (false, ata) := by
  simp [ataCallbacks, ataWriteSectors, hadmits]

end EfesOS.Drivers
