import EfesOS.Foundation.Registers

/-!
# Message signalled interrupts

`src/drivers/pci_msi.c` turns message signalled interrupts on in the configuration space of a PCI
function and back off again. Every write is read back. `pci_msi_program` stops at the first one that
was lost and gives way to `pci_msi_restore`, which writes back everything that was there and keeps
the saved state if one of its own writes was lost.

Whatever writes are lost, what is there afterwards is known: `pci_msi_transaction`.

The callbacks of `struct pci_msi_register_io` read and write the bytes of the configuration space; a
write may have no effect. The checks for null pointers are left out.
-/

set_option autoImplicit false

namespace EfesOS.Drivers

open EfesOS.Foundation.Registers

abbrev pciConfigurationBytes : ℕ := 256

abbrev pciCapabilityMinimumOffset : ℕ := 0x40

abbrev pciCapabilityMaximumOffset : ℕ := 0xFC

abbrev pciMsiControl64Bit : UInt16 := 0x0080

abbrev pciMsiControlPerVectorMasking : UInt16 := 0x0100

abbrev pciMsiControlCountMask : UInt8 := 0x07

abbrev pciMsiControlEnable : UInt16 := 0x0001

abbrev pciMsiControlMmeMask : UInt16 := 0x0070

abbrev pciXapicMessageBase : UInt32 := 0xFEE00000

abbrev pciX86FirstDeviceVector : UInt16 := 0x20

abbrev pciX86LastDeviceVector : UInt16 := 0xFE

/-- `struct pci_msi_layout`. -/
structure PciMsiLayout where
  capabilityOffset : UInt8
  messageAddressOffset : UInt8
  messageUpperAddressOffset : UInt8
  messageDataOffset : UInt8
  maskBitsOffset : UInt8
  pendingBitsOffset : UInt8
  multipleMessageCapable : UInt8
  is64Bit : UInt8
  perVectorMasking : UInt8
  deriving DecidableEq

/-- `struct pci_msi_saved_state`. -/
structure PciMsiSavedState where
  layout : PciMsiLayout
  control : UInt16
  messageAddress : UInt32
  messageUpperAddress : UInt32
  messageData : UInt16
  maskBits : UInt32
  valid : UInt8
  deriving DecidableEq

def validCapabilityPointer (offset : ℕ) : Bool :=
  decide (pciCapabilityMinimumOffset ≤ offset ∧ offset ≤ pciCapabilityMaximumOffset ∧
    offset &&& 3 = 0)

def validLayout (layout : PciMsiLayout) : Bool :=
  let expectedData := layout.capabilityOffset.toNat + if layout.is64Bit ≠ 0 then 12 else 8
  let expectedMask := expectedData + 4
  if validCapabilityPointer layout.capabilityOffset.toNat = false ∨
      pciMsiControlCountMask < layout.multipleMessageCapable ∨ 1 < layout.is64Bit ∨
      1 < layout.perVectorMasking ∨
      layout.messageAddressOffset ≠ layout.capabilityOffset + 4 then false
  else if pciConfigurationBytes ≤ expectedData + 1 ∨
      layout.messageDataOffset.toNat ≠ expectedData ∨
      layout.messageUpperAddressOffset ≠
        (if layout.is64Bit ≠ 0 then layout.capabilityOffset + 8 else 0) then false
  else if layout.perVectorMasking = 0 then
    decide (layout.maskBitsOffset = 0 ∧ layout.pendingBitsOffset = 0)
  else decide (expectedMask + 7 < pciConfigurationBytes ∧
    layout.maskBitsOffset.toNat = expectedMask ∧
    layout.pendingBitsOffset.toNat = expectedMask + 4)

/-- What `clear_saved_state` leaves. -/
def clearedSavedState : PciMsiSavedState :=
  ⟨⟨0, 0, 0, 0, 0, 0, 0, 0, 0⟩, 0, 0, 0, 0, 0, 0⟩

/-! ### The registers of a layout -/

namespace PciMsiLayout

def control (layout : PciMsiLayout) : Register Bytes UInt16 :=
  word (layout.capabilityOffset + 2).toNat

def messageAddress (layout : PciMsiLayout) : Register Bytes UInt32 :=
  dword layout.messageAddressOffset.toNat

def messageUpperAddress (layout : PciMsiLayout) : Register Bytes UInt32 :=
  dword layout.messageUpperAddressOffset.toNat

def messageData (layout : PciMsiLayout) : Register Bytes UInt16 :=
  word layout.messageDataOffset.toNat

def maskBits (layout : PciMsiLayout) : Register Bytes UInt32 :=
  dword layout.maskBitsOffset.toNat

def wide (layout : PciMsiLayout) : Bool := decide (layout.is64Bit ≠ 0)

def maskable (layout : PciMsiLayout) : Bool := decide (layout.perVectorMasking ≠ 0)

end PciMsiLayout

/-- A control word with interrupts off. -/
def disabledControl (control : UInt16) : UInt16 :=
  control &&& ~~~(pciMsiControlEnable ||| pciMsiControlMmeMask)

/-! ### Restoring and programming -/

/-- The writes of `pci_msi_restore` before the last: all are made, and one that was lost is
remembered. -/
def restoreRegisters (lost : ℕ → Bool) (state : PciMsiSavedState) : Attempt Bytes :=
  let layout := state.layout
  every
    [layout.control.put lost fun bytes ↦ disabledControl (layout.control.get bytes),
      onlyIf layout.maskable (layout.maskBits.put lost fun bytes ↦ layout.maskBits.get bytes ||| 1),
      layout.messageAddress.put lost fun _ ↦ state.messageAddress,
      onlyIf layout.wide (layout.messageUpperAddress.put lost fun _ ↦ state.messageUpperAddress),
      layout.messageData.put lost fun _ ↦ state.messageData,
      onlyIf layout.maskable (layout.maskBits.put lost fun _ ↦ state.maskBits)]

def pciMsiRestore (lost : ℕ → Bool) (state : PciMsiSavedState) (device : Device Bytes) :
    Bool × PciMsiSavedState × Device Bytes :=
  if state.valid = 0 ∨ validLayout state.layout = false then (false, state, device)
  else
    let (restored, device) := restoreRegisters lost state device
    if restored then
      let (enabled, device) := state.layout.control.put lost (fun _ ↦ state.control) device
      if enabled then (true, clearedSavedState, device) else (false, state, device)
    else (false, state, device)

/-- What `pci_msi_program` saves. -/
def savedState (layout : PciMsiLayout) (bytes : Bytes) : PciMsiSavedState where
  layout := layout
  control := layout.control.get bytes
  messageAddress := layout.messageAddress.get bytes
  messageUpperAddress := if layout.wide then layout.messageUpperAddress.get bytes else 0
  messageData := layout.messageData.get bytes
  maskBits := if layout.maskable then layout.maskBits.get bytes else 0
  valid := 1

/-- The writes of `pci_msi_program`, up to the first that was lost. -/
def programRegisters (lost : ℕ → Bool) (state : PciMsiSavedState) (messageAddress : UInt32)
    (messageData : UInt16) : Attempt Bytes :=
  let layout := state.layout
  let programmedMask := state.maskBits ||| 1
  inOrder
    [layout.control.put lost fun _ ↦ disabledControl state.control,
      onlyIf layout.maskable (layout.maskBits.put lost fun _ ↦ programmedMask),
      layout.messageAddress.put lost fun _ ↦ messageAddress,
      onlyIf layout.wide (layout.messageUpperAddress.put lost fun _ ↦ 0),
      layout.messageData.put lost fun _ ↦ messageData,
      layout.control.put lost fun _ ↦ disabledControl state.control ||| pciMsiControlEnable,
      onlyIf layout.maskable (layout.maskBits.put lost fun _ ↦ programmedMask &&& ~~~1)]

def pciMsiProgram (lost : ℕ → Bool) (layout : PciMsiLayout) (messageAddress : UInt32)
    (messageData : UInt16) (state : PciMsiSavedState) (device : Device Bytes) :
    Bool × PciMsiSavedState × Device Bytes :=
  if validLayout layout = false ∨ state.valid ≠ 0 ∨
      messageAddress &&& 0xFFF00FFF ≠ pciXapicMessageBase ∨
      messageData < pciX86FirstDeviceVector ∨ pciX86LastDeviceVector < messageData then
    (false, state, device)
  else
    let saved := savedState layout device.memory
    if decide (saved.control &&& pciMsiControl64Bit ≠ 0) ≠ layout.wide ∨
        decide (saved.control &&& pciMsiControlPerVectorMasking ≠ 0) ≠ layout.maskable then
      (false, clearedSavedState, device)
    else
      let (programmed, device) := programRegisters lost saved messageAddress messageData device
      if programmed then (true, saved, device)
      else
        let (_, saved, device) := pciMsiRestore lost saved device
        (false, saved, device)

/-! ### The registers of a valid layout -/

/-- The registers of a layout lie one behind the other. -/
structure PciMsiLayout.Placed (layout : PciMsiLayout) : Prop where
  control : (layout.capabilityOffset + 2).toNat = layout.capabilityOffset.toNat + 2
  address : layout.messageAddressOffset.toNat = layout.capabilityOffset.toNat + 4
  upper : layout.wide = true →
    layout.messageUpperAddressOffset.toNat = layout.capabilityOffset.toNat + 8
  data : layout.messageDataOffset.toNat =
    layout.capabilityOffset.toNat + if layout.wide then 12 else 8
  mask : layout.maskable = true →
    layout.maskBitsOffset.toNat = layout.messageDataOffset.toNat + 4

theorem placed_of_validLayout {layout : PciMsiLayout} (hvalid : validLayout layout = true) :
    layout.Placed := by
  unfold validLayout at hvalid
  dsimp only at hvalid
  generalize hexpected : layout.capabilityOffset.toNat + (if layout.is64Bit ≠ 0 then 12 else 8) =
    expectedData at hvalid
  split at hvalid
  · cases hvalid
  next hpointer =>
  simp only [not_or, not_not] at hpointer
  obtain ⟨-, -, -, -, haddress⟩ := hpointer
  generalize hexpectedUpper : (if layout.is64Bit ≠ 0 then layout.capabilityOffset + 8 else 0) =
    expectedUpper at hvalid
  split at hvalid
  · cases hvalid
  next hplaces =>
  simp only [not_or, not_not, not_le] at hplaces
  obtain ⟨hfits, hdata, hupper⟩ := hplaces
  have hroom : layout.capabilityOffset.toNat + 9 < 256 := by
    change expectedData + 1 < 256 at hfits
    split_ifs at hexpected <;> omega
  have hadd : ∀ step : UInt8, step.toNat ≤ 8 →
      (layout.capabilityOffset + step).toNat = layout.capabilityOffset.toNat + step.toNat := by
    intro step hstep
    rw [UInt8.toNat_add, Nat.mod_eq_of_lt (by omega)]
  refine ⟨hadd 2 (by decide), ?_, fun hwide ↦ ?_, ?_, fun hmaskable ↦ ?_⟩
  · rw [haddress]
    exact hadd 4 (by decide)
  · rw [hupper, ← hexpectedUpper, if_pos (of_decide_eq_true hwide)]
    exact hadd 8 le_rfl
  · rw [hdata, ← hexpected]
    simp only [PciMsiLayout.wide, decide_eq_true_eq]
  · rw [if_neg (of_decide_eq_true hmaskable), decide_eq_true_eq] at hvalid
    rw [hvalid.2.1, hdata]

namespace PciMsiLayout.Placed

variable {layout : PciMsiLayout}

section

variable (h : layout.Placed)
include h

theorem control_disjoint_address :
    layout.control.Disjoint layout.messageAddress :=
  word_disjoint_dword (by rw [h.control, h.address]; omega)

theorem control_disjoint_upper (hwide : layout.wide = true) :
    layout.control.Disjoint layout.messageUpperAddress :=
  word_disjoint_dword (by rw [h.control, h.upper hwide]; omega)

theorem control_disjoint_data : layout.control.Disjoint layout.messageData :=
  word_disjoint_word (by rw [h.control, h.data]; split_ifs <;> omega)

theorem control_disjoint_mask (hmaskable : layout.maskable = true) :
    layout.control.Disjoint layout.maskBits :=
  word_disjoint_dword (by rw [h.control, h.mask hmaskable, h.data]; omega)

theorem address_disjoint_upper (hwide : layout.wide = true) :
    layout.messageAddress.Disjoint layout.messageUpperAddress :=
  dword_disjoint_dword (by rw [h.address, h.upper hwide]; omega)

theorem data_disjoint_address :
    layout.messageData.Disjoint layout.messageAddress :=
  word_disjoint_dword (by rw [h.data, h.address]; split_ifs <;> omega)

theorem data_disjoint_upper (hwide : layout.wide = true) :
    layout.messageData.Disjoint layout.messageUpperAddress :=
  word_disjoint_dword (by rw [h.data, h.upper hwide, if_pos hwide]; omega)

theorem data_disjoint_mask (hmaskable : layout.maskable = true) :
    layout.messageData.Disjoint layout.maskBits :=
  word_disjoint_dword (by rw [h.mask hmaskable]; omega)

theorem address_disjoint_mask (hmaskable : layout.maskable = true) :
    layout.messageAddress.Disjoint layout.maskBits :=
  dword_disjoint_dword (by rw [h.address, h.mask hmaskable, h.data]; split_ifs <;> omega)

theorem upper_disjoint_mask (hwide : layout.wide = true) (hmaskable : layout.maskable = true) :
    layout.messageUpperAddress.Disjoint layout.maskBits :=
  dword_disjoint_dword (by rw [h.upper hwide, h.mask hmaskable, h.data, if_pos hwide]; omega)

end

end PciMsiLayout.Placed

/-! ### Writing back -/

/-- The saved values in their registers. -/
def PciMsiSavedState.writeBack (state : PciMsiSavedState) : Bytes → Bytes :=
  sequence
    [state.layout.messageAddress.set state.messageAddress,
      if state.layout.wide then
        state.layout.messageUpperAddress.set state.messageUpperAddress else id,
      state.layout.messageData.set state.messageData,
      if state.layout.maskable then state.layout.maskBits.set state.maskBits else id,
      state.layout.control.set state.control]

section WriteBack

variable {state : PciMsiSavedState}

theorem address_overwritten : state.layout.messageAddress.OverwrittenBy state.writeBack :=
  (Register.overwrittenBy_set _ _).sequence _

section

variable (h : state.layout.Placed)
include h

theorem upper_overwritten (hwide : state.layout.wide = true) :
    state.layout.messageUpperAddress.OverwrittenBy state.writeBack := by
  refine ((h.address_disjoint_upper hwide).symm.keptBy_set _).sequence
    (Register.OverwrittenBy.sequence ?_ _)
  rw [if_pos hwide]
  exact Register.overwrittenBy_set _ _

theorem data_overwritten :
    state.layout.messageData.OverwrittenBy state.writeBack :=
  (h.data_disjoint_address.keptBy_set _).sequence <|
    (Register.keptBy_ite fun hwide ↦ (h.data_disjoint_upper hwide).keptBy_set _).sequence <|
    (Register.overwrittenBy_set _ _).sequence _

theorem mask_overwritten (hmaskable : state.layout.maskable = true) :
    state.layout.maskBits.OverwrittenBy state.writeBack := by
  refine ((h.address_disjoint_mask hmaskable).symm.keptBy_set _).sequence <|
    (Register.keptBy_ite fun hwide ↦
      (h.upper_disjoint_mask hwide hmaskable).symm.keptBy_set _).sequence <|
    ((h.data_disjoint_mask hmaskable).symm.keptBy_set _).sequence <|
    Register.OverwrittenBy.sequence ?_ _
  rw [if_pos hmaskable]
  exact Register.overwrittenBy_set _ _

theorem control_overwritten :
    state.layout.control.OverwrittenBy state.writeBack :=
  (h.control_disjoint_address.keptBy_set _).sequence <|
    (Register.keptBy_ite fun hwide ↦ (h.control_disjoint_upper hwide).keptBy_set _).sequence <|
    (h.control_disjoint_data.keptBy_set _).sequence <|
    (Register.keptBy_ite fun hmaskable ↦
      (h.control_disjoint_mask hmaskable).keptBy_set _).sequence <|
    (Register.overwrittenBy_set _ _).sequence _

end

end WriteBack

/-- What was saved is what is there. -/
theorem writeBack_savedState (layout : PciMsiLayout) (bytes : Bytes) :
    (savedState layout bytes).writeBack bytes = bytes := by
  have haddress := layout.messageAddress.set_get bytes
  have hupper := layout.messageUpperAddress.set_get bytes
  have hdata := layout.messageData.set_get bytes
  have hmask := layout.maskBits.set_get bytes
  have hcontrol := layout.control.set_get bytes
  unfold PciMsiSavedState.writeBack savedState
  simp only [sequence_cons, sequence_nil, haddress]
  cases layout.wide <;> cases layout.maskable <;>
    simp only [if_true, Bool.false_eq_true, if_false, id_eq, hupper, hdata, hmask, hcontrol]

/-! ### What the writes do -/

/-- All writes of `pci_msi_restore`. -/
def restoreAttempt (lost : ℕ → Bool) (state : PciMsiSavedState) : Attempt Bytes :=
  inOrder [restoreRegisters lost state, state.layout.control.put lost fun _ ↦ state.control]

variable {state : PciMsiSavedState}

theorem pciMsiRestore_eq {lost : ℕ → Bool} (hvalid : state.valid ≠ 0)
    (hlayout : validLayout state.layout = true) (device : Device Bytes) :
    pciMsiRestore lost state device = ((restoreAttempt lost state device).1,
      if (restoreAttempt lost state device).1 then clearedSavedState else state,
      (restoreAttempt lost state device).2) := by
  unfold pciMsiRestore restoreAttempt
  rw [if_neg (by simp [hvalid, hlayout])]
  simp only [inOrder]
  by_cases hregisters : (restoreRegisters lost state device).1 = true
  · by_cases hcontrol : (state.layout.control.put lost (fun _ ↦ state.control)
      (restoreRegisters lost state device).2).1 = true
    · simp only [hregisters, hcontrol, if_true]
    · simp only [hregisters, hcontrol, if_true, if_false, Bool.false_eq_true]
  · simp only [hregisters, if_false, Bool.false_eq_true]

section Writes

variable {lost : ℕ → Bool} {state : PciMsiSavedState} {initial : Bytes}

theorem restoreAttempt_verified (h : state.layout.Placed) :
    Verified lost (restoreAttempt lost state) state.writeBack := by
  have hregisters : Verified lost (restoreRegisters lost state) _ :=
    .every (.cons (.put _ _) (.cons (.onlyIf (.put _ _) _) (.cons (.put _ _)
      (.cons (.onlyIf (.put _ _) _) (.cons (.put _ _) (.cons (.onlyIf (.put _ _) _) .nil))))))
  have hall : Verified lost (restoreAttempt lost state) _ :=
    .inOrder (.cons hregisters (.cons (.put _ _) .nil))
  refine hall.congr fun bytes ↦ ?_
  -- the first two writes are undone by the last two
  have hmask : ∀ memory, state.writeBack ((if state.layout.maskable then fun memory ↦
      state.layout.maskBits.set (state.layout.maskBits.get memory ||| 1) memory else id) memory) =
      state.writeBack memory := by
    intro memory
    split_ifs with hmaskable
    · exact mask_overwritten h hmaskable _ _
    · rfl
  exact (hmask _).trans (control_overwritten h _ _)

/-- Whatever is written to the registers, the saved values bring back what was there. -/
theorem keeps_put {V : Type} [DecidableEq V] {register : Register Bytes V}
    (h : register.OverwrittenBy state.writeBack) (value : Bytes → V) :
    Keeps (fun bytes ↦ state.writeBack bytes = initial) (register.put lost value) :=
  .put (fun new bytes hbytes ↦ (h new bytes).trans hbytes) value

theorem restoreAttempt_keeps (h : state.layout.Placed) :
    Keeps (fun bytes ↦ state.writeBack bytes = initial) (restoreAttempt lost state) := by
  refine .inOrder (List.forall_mem_cons.2 ⟨.every ?_, List.forall_mem_singleton.2
    (keeps_put (control_overwritten h) _)⟩)
  simp only [List.forall_mem_cons, List.not_mem_nil, false_imp_iff, implies_true, and_true]
  exact ⟨keeps_put (control_overwritten h) _,
    .onlyIf fun hmaskable ↦ keeps_put (mask_overwritten h hmaskable) _,
    keeps_put address_overwritten _, .onlyIf fun hwide ↦ keeps_put (upper_overwritten h hwide) _,
    keeps_put (data_overwritten h) _,
    .onlyIf fun hmaskable ↦ keeps_put (mask_overwritten h hmaskable) _⟩

theorem programRegisters_keeps (h : state.layout.Placed) (messageAddress : UInt32)
    (messageData : UInt16) :
    Keeps (fun bytes ↦ state.writeBack bytes = initial)
      (programRegisters lost state messageAddress messageData) := by
  refine .inOrder ?_
  simp only [List.forall_mem_cons, List.not_mem_nil, false_imp_iff, implies_true, and_true]
  exact ⟨keeps_put (control_overwritten h) _,
    .onlyIf fun hmaskable ↦ keeps_put (mask_overwritten h hmaskable) _,
    keeps_put address_overwritten _, .onlyIf fun hwide ↦ keeps_put (upper_overwritten h hwide) _,
    keeps_put (data_overwritten h) _, keeps_put (control_overwritten h) _,
    .onlyIf fun hmaskable ↦ keeps_put (mask_overwritten h hmaskable) _⟩

/-- The changes of `pci_msi_program` to the configuration space. -/
def programChanges (state : PciMsiSavedState) (messageAddress : UInt32) (messageData : UInt16) :
    List (Bytes → Bytes) :=
  let layout := state.layout
  [layout.control.set (disabledControl state.control),
    if layout.maskable then layout.maskBits.set (state.maskBits ||| 1) else id,
    layout.messageAddress.set messageAddress,
    if layout.wide then layout.messageUpperAddress.set 0 else id,
    layout.messageData.set messageData,
    layout.control.set (disabledControl state.control ||| pciMsiControlEnable),
    if layout.maskable then layout.maskBits.set ((state.maskBits ||| 1) &&& ~~~1) else id]

theorem programRegisters_verified (messageAddress : UInt32) (messageData : UInt16) :
    Verified lost (programRegisters lost state messageAddress messageData)
      (sequence (programChanges state messageAddress messageData)) :=
  .inOrder (.cons (.put _ _) (.cons (.onlyIf (.put _ _) _) (.cons (.put _ _)
    (.cons (.onlyIf (.put _ _) _) (.cons (.put _ _) (.cons (.put _ _)
      (.cons (.onlyIf (.put _ _) _) .nil)))))))

end Writes

/-! ### The transaction -/

/-- The registers hold the message, its upper half is zero, the vector is not masked and interrupts
are on with one vector. -/
structure Programmed (layout : PciMsiLayout) (messageAddress : UInt32) (messageData : UInt16)
    (before after : Bytes) : Prop where
  address : layout.messageAddress.get after = messageAddress
  upper : layout.wide = true → layout.messageUpperAddress.get after = 0
  data : layout.messageData.get after = messageData
  control : layout.control.get after =
    disabledControl (layout.control.get before) ||| pciMsiControlEnable
  unmasked : layout.maskable = true →
    layout.maskBits.get after = layout.maskBits.get before &&& ~~~1

theorem or_one_and_not_one (value : UInt32) : (value ||| 1) &&& ~~~1 = value &&& ~~~1 := by
  rw [← UInt32.toBitVec_inj]
  change (value.toBitVec ||| 1#32) &&& ~~~1#32 = value.toBitVec &&& ~~~1#32
  rw [BitVec.and_or_distrib_right, show 1#32 &&& ~~~1#32 = 0#32 from rfl, BitVec.or_zero]

theorem programmed_sequence {before : Bytes} (h : state.layout.Placed)
    (hcontrol : state.control = state.layout.control.get before)
    (hmask : state.layout.maskable = true → state.maskBits = state.layout.maskBits.get before)
    (messageAddress : UInt32) (messageData : UInt16) :
    Programmed state.layout messageAddress messageData before
      (sequence (programChanges state messageAddress messageData) before) := by
  simp only [programChanges, sequence_cons, sequence_nil]
  exact
    { address := by
        rw [(Register.keptBy_ite fun hmaskable ↦
            (h.address_disjoint_mask hmaskable).keptBy_set _).get,
          (h.control_disjoint_address.symm.keptBy_set _).get,
          (h.data_disjoint_address.symm.keptBy_set _).get,
          (Register.keptBy_ite fun hwide ↦ (h.address_disjoint_upper hwide).keptBy_set _).get,
          Register.get_set]
      upper hwide := by
        rw [(Register.keptBy_ite fun hmaskable ↦
            (h.upper_disjoint_mask hwide hmaskable).keptBy_set _).get,
          ((h.control_disjoint_upper hwide).symm.keptBy_set _).get,
          ((h.data_disjoint_upper hwide).symm.keptBy_set _).get, if_pos hwide, Register.get_set]
      data := by
        rw [(Register.keptBy_ite fun hmaskable ↦ (h.data_disjoint_mask hmaskable).keptBy_set _).get,
          (h.control_disjoint_data.symm.keptBy_set _).get, Register.get_set]
      control := by
        rw [(Register.keptBy_ite fun hmaskable ↦
            (h.control_disjoint_mask hmaskable).keptBy_set _).get,
          Register.get_set, hcontrol]
      unmasked hmaskable := by
        rw [if_pos hmaskable, Register.get_set, or_one_and_not_one, hmask hmaskable] }

/-- A restore without lost writes brings back what was there. -/
def RestoresTo (initial : Bytes) (state : PciMsiSavedState) (device : Device Bytes) : Prop :=
  ∀ lost : ℕ → Bool, (∀ write, device.writes ≤ write → lost write = false) →
    (pciMsiRestore lost state device).1 = true ∧
      (pciMsiRestore lost state device).2.2.memory = initial

/-- What a call of `pci_msi_program` leaves behind. -/
structure Transaction (lost : ℕ → Bool) (layout : PciMsiLayout) (messageAddress : UInt32)
    (messageData : UInt16) (before : Device Bytes)
    (result : Bool × PciMsiSavedState × Device Bytes) : Prop where
  programmed : result.1 = true →
    Programmed layout messageAddress messageData before.memory result.2.2.memory ∧
      RestoresTo before.memory result.2.1 result.2.2
  rolledBack : result.1 = false → result.2.1.valid = 0 → result.2.2.memory = before.memory
  pending : result.1 = false → result.2.1.valid ≠ 0 →
    RestoresTo before.memory result.2.1 result.2.2
  single : (∀ first second, lost first = true → lost second = true → first = second) →
    result.1 = false → result.2.1.valid = 0

theorem restoresTo_of_writeBack {initial : Bytes} {device : Device Bytes} (hvalid : state.valid ≠ 0)
    (hlayout : validLayout state.layout = true) (hback : state.writeBack device.memory = initial) :
    RestoresTo initial state device := by
  intro lost hkept
  obtain ⟨hsuccess, hmemory⟩ :=
    (restoreAttempt_verified (placed_of_validLayout hlayout)).of_kept hkept
  rw [pciMsiRestore_eq hvalid hlayout]
  exact ⟨hsuccess, hmemory.trans hback⟩

/-- The part of `pci_msi_program` behind its checks. -/
theorem transaction_of_saved {lost : ℕ → Bool} {saved : PciMsiSavedState} {device : Device Bytes}
    (hvalid : saved.valid ≠ 0) (hlayout : validLayout saved.layout = true)
    (hsaved : saved.writeBack device.memory = device.memory)
    (hcontrol : saved.control = saved.layout.control.get device.memory)
    (hmask : saved.layout.maskable = true →
      saved.maskBits = saved.layout.maskBits.get device.memory)
    (messageAddress : UInt32) (messageData : UInt16) :
    Transaction lost saved.layout messageAddress messageData device
      (let (programmed, device) := programRegisters lost saved messageAddress messageData device
      if programmed then (true, saved, device)
      else
        let (_, saved, device) := pciMsiRestore lost saved device
        (false, saved, device)) := by
  have hplaced := placed_of_validLayout hlayout
  have hprogram : Verified lost (programRegisters lost saved messageAddress messageData) _ :=
    programRegisters_verified messageAddress messageData
  have hback : saved.writeBack
      (programRegisters lost saved messageAddress messageData device).2.memory = device.memory :=
    programRegisters_keeps hplaced messageAddress messageData device hsaved
  dsimp only
  split
  next hprogrammed =>
    refine ⟨fun _ ↦ ⟨?_, restoresTo_of_writeBack hvalid hlayout hback⟩, by simp, by simp, by simp⟩
    rw [hprogram.success device hprogrammed]
    exact programmed_sequence hplaced hcontrol hmask messageAddress messageData
  next hstopped =>
    have hrestore : Verified lost (restoreAttempt lost saved) saved.writeBack :=
      restoreAttempt_verified hplaced
    have hkept : Keeps (fun bytes ↦ saved.writeBack bytes = device.memory)
      (restoreAttempt lost saved) := restoreAttempt_keeps hplaced
    rw [pciMsiRestore_eq hvalid hlayout]
    obtain ⟨first, -, hfirst, hlostFirst⟩ :=
      hprogram.failure device (Bool.eq_false_iff.2 hstopped)
    generalize (programRegisters lost saved messageAddress messageData device).2 = middle at *
    split
    next hrestored =>
      refine ⟨by simp, fun _ _ ↦ ?_, fun _ hpending ↦ absurd rfl hpending, fun _ _ ↦ rfl⟩
      exact (hrestore.success middle hrestored).trans hback
    next hfailed =>
      refine ⟨by simp, fun _ hgone ↦ absurd hgone hvalid, fun _ _ ↦
        restoresTo_of_writeBack hvalid hlayout (hkept middle hback), fun hsingle _ ↦ ?_⟩
      -- the rollback lost a write of its own
      obtain ⟨second, hsecond, -, hlostSecond⟩ :=
        hrestore.failure middle (Bool.eq_false_iff.2 hfailed)
      have hsame := hsingle first second hlostFirst hlostSecond
      omega

/-- Programming is a transaction, whichever writes are lost. -/
theorem pci_msi_transaction (lost : ℕ → Bool) (layout : PciMsiLayout) (messageAddress : UInt32)
    (messageData : UInt16) {state : PciMsiSavedState} (hstate : state.valid = 0)
    (device : Device Bytes) :
    Transaction lost layout messageAddress messageData device
      (pciMsiProgram lost layout messageAddress messageData state device) := by
  unfold pciMsiProgram
  split
  · exact ⟨by simp, fun _ _ ↦ rfl, fun _ hvalid ↦ absurd hstate hvalid, fun _ _ ↦ hstate⟩
  next haccepted =>
  have hlayout : validLayout layout = true := by
    by_contra hinvalid
    exact haccepted (.inl (Bool.eq_false_iff.2 hinvalid))
  dsimp only
  split
  · exact ⟨by simp, fun _ _ ↦ rfl, fun _ hvalid ↦ absurd rfl hvalid, fun _ _ ↦ rfl⟩
  have hvalid : (savedState layout device.memory).valid ≠ 0 := (by decide : (1 : UInt8) ≠ 0)
  exact transaction_of_saved hvalid hlayout (writeBack_savedState layout device.memory) rfl
    (fun hmaskable ↦ if_pos hmaskable) messageAddress messageData

/-- A function with 64-bit addresses and a mask, as the host test prepares it. -/
def maskedWideLayout : PciMsiLayout := ⟨0x50, 0x54, 0x58, 0x5C, 0x60, 0x64, 2, 1, 1⟩

def maskedWideBytes : Bytes :=
  sequence
    [maskedWideLayout.control.set 0x0185, maskedWideLayout.messageAddress.set 0xABC00000,
      maskedWideLayout.messageUpperAddress.set 0x12345678, maskedWideLayout.messageData.set 0x0045,
      maskedWideLayout.maskBits.set 0xA5A5A5A4] fun _ ↦ 0

/-- The fifth write is lost: the call fails and everything is as before. -/
theorem pci_msi_transaction_lost : ∃ result,
    result = pciMsiProgram (fun write ↦ write == 4) maskedWideLayout 0xFEE01000 0x33
      clearedSavedState ⟨maskedWideBytes, 0⟩ ∧ result.1 = false ∧
    Transaction (fun write ↦ write == 4) maskedWideLayout 0xFEE01000 0x33 ⟨maskedWideBytes, 0⟩
      result ∧ result.2.2.memory = maskedWideBytes := by
  have hstate : clearedSavedState.valid = 0 := rfl
  have htransaction := pci_msi_transaction (fun write ↦ write == 4) maskedWideLayout 0xFEE01000 0x33
    hstate ⟨maskedWideBytes, 0⟩
  have hfailed : (pciMsiProgram (fun write ↦ write == 4) maskedWideLayout 0xFEE01000 0x33
      clearedSavedState ⟨maskedWideBytes, 0⟩).1 = false := by decide +kernel
  refine ⟨_, rfl, hfailed, htransaction, htransaction.rolledBack hfailed ?_⟩
  refine htransaction.single (fun first second hfirst hsecond ↦ ?_) hfailed
  rw [beq_iff_eq] at hfirst hsecond
  rw [hfirst, hsecond]

end EfesOS.Drivers
