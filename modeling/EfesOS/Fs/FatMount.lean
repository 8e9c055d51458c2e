import EfesOS.Fs.FatRead

/-!
# What a mount has checked

`fat_mount` computes the address of a copy of the table in 32 bits. Where the address needs more, it
reads a sector in front of the volume and takes that for the copy. `mount_checks_volume_iff` says
that this is the only way in which a mount leaves its volume or accepts one that it has not checked.
-/

set_option autoImplicit false

namespace EfesOS.Fs.Fat

open EfesOS.Foundation
open EfesOS.Fs.Journal (Sector)

/-- A read that notes the address it was asked for. -/
def notedRead (disk : Disk) (lba : ℕ) (asked : List ℕ) : Option Sector × List ℕ :=
  (disk lba, lba :: asked)

/-- The address of a copy of the table. -/
def copyAddress (startLba : ℕ) (fields : BootFields) (copy : ℕ) : ℕ :=
  startLba + fields.reserved + copy * fields.sectorsPerFat

/-- A sector begins with the media descriptor and two bytes `FF`. -/
def carriesHeader (fields : BootFields) (sector : Option Sector) : Bool :=
  sector.any fun header ↦ header.byteAt 0 == fields.mediaDescriptor && header.byteAt 1 == 0xFF &&
    header.byteAt 2 == 0xFF

/-- A copy of the table has its header. -/
def HeaderMatches (disk : Disk) (startLba : ℕ) (fields : BootFields) (copy : ℕ) : Prop :=
  carriesHeader fields (disk (copyAddress startLba fields copy)) = true

/-- A mount reads its volume only, and accepts it only if the copies of its table are there and its
parts lie one behind the other. -/
structure MountChecks (disk : Disk) (startLba : ℕ) : Prop where
  reads : ∀ lba ∈ (fatMount (notedRead disk) startLba []).2, lba = startLba ∨
    ∃ boot, disk startLba = some boot ∧ startLba ≤ lba ∧
      lba < startLba + (bootFields boot).totalSectors
  copies : ∀ volume, (fatMount (notedRead disk) startLba []).1 = .ok volume →
    ∃ boot, disk startLba = some boot ∧ volume = (bootFields boot).volume startLba ∧
      ∀ copy < volume.fatCount, HeaderMatches disk startLba (bootFields boot) copy
  layout : ∀ volume, (fatMount (notedRead disk) startLba []).1 = .ok volume →
    startLba < volume.fatStart ∧
      volume.fatStart + volume.fatCount * volume.sectorsPerFat = volume.rootStart ∧
      volume.rootStart + (volume.rootEntries + 15) / 16 = volume.dataStart ∧
      volume.dataStart + volume.clusterCount * volume.sectorsPerCluster ≤
        startLba + volume.totalSectors ∧
      startLba + volume.totalSectors ≤ 18446744073709551616
  entries : ∀ volume, (fatMount (notedRead disk) startLba []).1 = .ok volume →
    ∀ cluster, InClusterArea volume cluster → cluster * 2 + 2 ≤ volume.sectorsPerFat * 512

/-- A boot sector that passes all checks. -/
def BootAccepted (disk : Disk) (startLba : ℕ) (boot : Sector) : Prop :=
  disk startLba = some boot ∧ boot.byteAt 510 = 0x55 ∧ boot.byteAt 511 = 0xAA ∧
    (bootFields boot).check startLba = none

/-- The mount comes to a copy of the table whose address has more than 32 bits. -/
def ComesToHighCopy (disk : Disk) (startLba : ℕ) : Prop :=
  ∃ boot, BootAccepted disk startLba boot ∧ ∃ copy < (bootFields boot).fats,
    4294967296 ≤ copyAddress startLba (bootFields boot) copy ∧
    ∀ earlier < copy, HeaderMatches disk startLba (bootFields boot) earlier

section Loop

variable {disk : Disk} {startLba : ℕ} {fields : BootFields}

/-- The sector that the loop takes for a copy has the header of one. -/
def ReadsHeader (disk : Disk) (startLba : ℕ) (fields : BootFields) (copy : ℕ) : Prop :=
  carriesHeader fields (disk (copyAddress startLba fields copy % 4294967296)) = true

theorem readsHeader_iff {copy : ℕ} (hlow : copyAddress startLba fields copy < 4294967296) :
    ReadsHeader disk startLba fields copy ↔ HeaderMatches disk startLba fields copy := by
  rw [ReadsHeader, HeaderMatches, Nat.mod_eq_of_lt hlow]

theorem checkFatCopies_succ (remaining index : ℕ) (asked : List ℕ) :
    checkFatCopies (notedRead disk) startLba fields (remaining + 1) index asked =
      if carriesHeader fields (disk (copyAddress startLba fields index % 4294967296)) then
        checkFatCopies (notedRead disk) startLba fields remaining (index + 1)
          (copyAddress startLba fields index % 4294967296 :: asked)
      else (false, copyAddress startLba fields index % 4294967296 :: asked) := by
  unfold copyAddress
  simp only [checkFatCopies, notedRead]
  cases disk ((startLba + fields.reserved + index * fields.sectorsPerFat) % 4294967296) with
  | none => rfl
  | some header =>
    simp only [carriesHeader, Option.any_some, Bool.and_eq_true, beq_iff_eq]
    split_ifs <;> first | rfl | grind

/-- The loop reads the sectors that it takes for the copies, up to the first without a header. -/
theorem checkFatCopies_spec (remaining index : ℕ) (asked : List ℕ) :
    ((checkFatCopies (notedRead disk) startLba fields remaining index asked).1 = true →
      ∀ copy, index ≤ copy → copy < index + remaining → ReadsHeader disk startLba fields copy) ∧
    ∀ lba, lba ∈ (checkFatCopies (notedRead disk) startLba fields remaining index asked).2 ↔
      lba ∈ asked ∨ ∃ copy, index ≤ copy ∧ copy < index + remaining ∧
        lba = copyAddress startLba fields copy % 4294967296 ∧
        ∀ earlier, index ≤ earlier → earlier < copy → ReadsHeader disk startLba fields earlier := by
  induction remaining generalizing index asked with
  | zero => grind [checkFatCopies]
  | succ remaining ih =>
    rw [checkFatCopies_succ]
    split_ifs with hheader
    · change ReadsHeader disk startLba fields index at hheader
      obtain ⟨hcopies, hreads⟩ :=
        ih (index + 1) (copyAddress startLba fields index % 4294967296 :: asked)
      refine ⟨fun hall copy hle hlt ↦ ?_, fun lba ↦ ?_⟩
      · rcases Nat.eq_or_lt_of_le hle with rfl | hlater
        · exact hheader
        · exact hcopies hall copy hlater (by omega)
      · grind
    · change ¬ReadsHeader disk startLba fields index at hheader
      refine ⟨by simp, fun lba ↦ ?_⟩
      grind

end Loop

section Mount

variable {disk : Disk} {startLba : ℕ}

/-- A boot sector that is refused is all a mount reads. -/
theorem fatMount_refused (hrefused : ∀ boot, ¬BootAccepted disk startLba boot) :
    (∀ volume, (fatMount (notedRead disk) startLba []).1 ≠ .ok volume) ∧
      (fatMount (notedRead disk) startLba []).2 = [startLba] := by
  simp only [fatMount, notedRead]
  cases hboot : disk startLba with
  | none => exact ⟨by simp, rfl⟩
  | some boot =>
    dsimp only
    split_ifs with hsignature
    · exact ⟨by simp, rfl⟩
    · simp only [not_or, not_not] at hsignature
      cases hcheck : (bootFields boot).check startLba with
      | some code => exact ⟨by simp, rfl⟩
      | none => exact absurd ⟨hboot, hsignature.1, hsignature.2, hcheck⟩ (hrefused boot)

/-- With the boot sector accepted the copies decide. -/
theorem fatMount_accepted {boot : Sector} (haccepted : BootAccepted disk startLba boot) :
    (fatMount (notedRead disk) startLba []).2 = (checkFatCopies (notedRead disk) startLba
        (bootFields boot) (bootFields boot).fats 0 [startLba]).2 ∧
      ∀ volume, (fatMount (notedRead disk) startLba []).1 = .ok volume →
        volume = (bootFields boot).volume startLba ∧ (checkFatCopies (notedRead disk) startLba
          (bootFields boot) (bootFields boot).fats 0 [startLba]).1 = true := by
  obtain ⟨hboot, hlast, hmark, hcheck⟩ := haccepted
  simp only [fatMount, notedRead, hboot, hlast, hmark, hcheck, ne_eq, not_true_eq_false, or_self,
    if_false]
  rcases checkFatCopies _ startLba (bootFields boot) (bootFields boot).fats 0 [startLba] with
    ⟨_ | _, asked⟩
  · exact ⟨rfl, by simp⟩
  · refine ⟨rfl, fun volume hok ↦ ?_⟩
    injection hok with hok
    exact ⟨hok.symm, rfl⟩

/-- The copies of the table lie inside the volume, behind its first sector. -/
theorem copyAddress_inside {boot : Sector} (hcheck : (bootFields boot).check startLba = none)
    {copy : ℕ} (hcopy : copy < (bootFields boot).fats) :
    startLba < copyAddress startLba (bootFields boot) copy ∧
      copyAddress startLba (bootFields boot) copy <
        startLba + (bootFields boot).totalSectors := by
  have hsound := BootFields.sound_volume hcheck (bootFields_totalSectors_lt boot)
  have hlt : copyAddress startLba (bootFields boot) copy < _ :=
    @FatVolume.Sound.fatAddress_lt _ hsound 0 _ (Nat.succ_pos _) hcopy
  have hreserved : (bootFields boot).reserved ≠ 0 := by
    unfold BootFields.check at hcheck
    split_ifs at hcheck with hfields
    simp only [not_or] at hfields
    exact hfields.2.2.2.2.2.1
  refine ⟨?_, hlt.trans hsound.root_lt_end⟩
  unfold copyAddress
  omega

end Mount

/-- Mounting checks the volume it mounts exactly when it does not come to a copy of the table
whose address has more than 32 bits. -/
theorem mount_checks_volume_iff (disk : Disk) (startLba : ℕ) :
    MountChecks disk startLba ↔ ¬ComesToHighCopy disk startLba := by
  obtain hrefused | haccepted := Classical.em (∀ boot, ¬BootAccepted disk startLba boot)
  · obtain ⟨hfails, hreads⟩ := fatMount_refused hrefused
    refine ⟨fun _ ⟨boot, hboot, _⟩ ↦ hrefused boot hboot, fun _ ↦ ⟨fun lba hlba ↦ ?_,
      fun volume hok ↦ absurd hok (hfails volume), fun volume hok ↦ absurd hok (hfails volume),
      fun volume hok ↦ absurd hok (hfails volume)⟩⟩
    rw [hreads, List.mem_singleton] at hlba
    exact .inl hlba
  obtain ⟨boot, hboot⟩ := not_forall_not.1 haccepted
  obtain ⟨hnoted, hvolume⟩ := fatMount_accepted hboot
  obtain ⟨hcopies, hreads⟩ := @checkFatCopies_spec disk startLba (bootFields boot)
    (bootFields boot).fats 0 [startLba]
  rw [Nat.zero_add] at hcopies hreads
  have hcheck := hboot.2.2.2
  constructor
  · -- the sector read for the first high copy lies in front of the volume
    rintro hchecks ⟨other, hother, copy, hcopy, hhigh, hearlier⟩
    obtain rfl : other = boot := Option.some_inj.1 (hother.1.symm.trans hboot.1)
    have hexists : ∃ copy, 4294967296 ≤ copyAddress startLba (bootFields other) copy :=
      ⟨copy, hhigh⟩
    have hfound : Nat.find hexists < (bootFields other).fats :=
      (Nat.find_min' hexists hhigh).trans_lt hcopy
    have hasked := (hreads _).2 (.inr ⟨_, Nat.zero_le _, hfound, rfl, fun earlier _ hlt ↦
      (readsHeader_iff (Nat.not_le.1 (Nat.find_min hexists hlt))).2
        (hearlier earlier (hlt.trans_le (Nat.find_min' hexists hhigh)))⟩)
    obtain ⟨-, hend⟩ := copyAddress_inside hcheck hfound
    have hfoundHigh := Nat.find_spec hexists
    have htotal := bootFields_totalSectors_lt other
    rcases hchecks.reads _ (hnoted ▸ hasked) with hsame | ⟨_, -, hstart, -⟩ <;> omega
  · intro hlow
    have haddress : ∀ copy < (bootFields boot).fats,
        (∀ earlier < copy, ReadsHeader disk startLba (bootFields boot) earlier) →
        copyAddress startLba (bootFields boot) copy < 4294967296 := by
      intro copy
      induction copy using Nat.strong_induction_on with
      | _ copy ih =>
        intro hcopy hheaders
        by_contra hhigh
        refine hlow ⟨boot, hboot, copy, hcopy, Nat.not_lt.1 hhigh, fun earlier hlt ↦ ?_⟩
        exact (readsHeader_iff (ih earlier hlt (hlt.trans hcopy)
          fun other hother ↦ hheaders other (hother.trans hlt))).1 (hheaders earlier hlt)
    have hsound := BootFields.sound_volume hcheck (bootFields_totalSectors_lt boot)
    obtain ⟨hstart, -⟩ := copyAddress_inside hcheck hsound.fatCount_pos
    refine ⟨fun lba hlba ↦ ?_, fun volume hok ↦ ?_, fun volume hok ↦ ?_,
      fun volume hok cluster hcluster ↦ ?_⟩
    · rcases (hreads lba).1 (hnoted ▸ hlba) with hfirst | ⟨copy, -, hcopy, rfl, hheaders⟩
      · exact .inl (List.mem_singleton.1 hfirst)
      · obtain ⟨hlower, hupper⟩ := copyAddress_inside hcheck hcopy
        rw [Nat.mod_eq_of_lt
          (haddress copy hcopy fun earlier ↦ hheaders earlier (Nat.zero_le earlier))]
        exact .inr ⟨boot, hboot.1, hlower.le, hupper⟩
    all_goals obtain ⟨rfl, hall⟩ := hvolume volume hok
    · refine ⟨boot, hboot.1, rfl, fun copy hcopy ↦ ?_⟩
      have hheaders := fun other ↦ hcopies hall other (Nat.zero_le other)
      exact (readsHeader_iff (haddress copy hcopy fun earlier hlt ↦
        hheaders earlier (hlt.trans hcopy))).1 (hheaders copy hcopy)
    · refine ⟨?_, rfl, ?_, hsound.data_le_end, hsound.address⟩
      · rw [copyAddress, Nat.zero_mul, Nat.add_zero] at hstart
        exact hstart
      · simp only [BootFields.volume, BootFields.rootSectors, fatSectorSize]
        omega
    · have htable := hsound.table
      have hbound := hcluster.2
      omega

/-- A volume whose boot sector has the first address that needs more than 32 bits. What stands
behind it cannot be read; a sector at the start of the device looks like a table. -/
def highDisk (lba : ℕ) : Option Sector :=
  if lba = 4294967296 then smallDisk 0 else if lba = 1 then smallDisk 1 else none

/-- It is mounted with a table that was never looked at. -/
theorem mount_accepts_missing_table :
    (fatMount (notedRead highDisk) 4294967296 []).1.isOk = true ∧
      (fatMount (notedRead highDisk) 4294967296 []).2 = [1, 4294967296] ∧
      highDisk 4294967297 = none ∧ ¬MountChecks highDisk 4294967296 := by
  have hreads : (fatMount (notedRead highDisk) 4294967296 []).2 = [1, 4294967296] := by
    decide +kernel
  refine ⟨by decide +kernel, hreads, rfl, fun hchecks ↦ ?_⟩
  rcases hchecks.reads 1 (by rw [hreads]; exact List.mem_cons_self) with hsame | ⟨_, -, hstart, -⟩
  · exact absurd hsame (by decide)
  · exact absurd hstart (by decide)

end EfesOS.Fs.Fat
