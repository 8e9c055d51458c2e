import EfesOS.Foundation.ByteBuffer
import EfesOS.Foundation.CString
import EfesOS.Foundation.Ring

/-!
# The kernel message queue

`src/kernel/ipc.c` keeps up to sixteen messages in a ring of sixteen slots, with `head`, `tail` and
`count`. A send fills the slot at `head`; a receive takes the first message its caller may see, from
anywhere in the ring, moving the older messages up and the tail forward; a purge drops every message
of one task, moving the newer messages down and re-deriving `head`. Every function runs with
interrupts masked, so each is one step on the queue.

The purpose of the queue is stated on its own: a mailbox is a list of letters, and `mailboxCall`
says what each call does to the list. `letters` reads the list out of the ring, `runCall_refines` is
the step from one to the other, and `ipc_refines_mailbox` is the same for every sequence of calls
after `ipcInit`, from any contents of the slots.
-/

set_option autoImplicit false

namespace EfesOS.Kernel.Ipc

open EfesOS.Foundation

abbrev ipcQueueCapacity : ℕ := 16

abbrev ipcMessageMax : ℕ := 64

/-- `struct ipc_message`. The bytes of `data` past `length` are left over from earlier messages. -/
structure Message where
  senderId : UInt32
  receiverId : UInt32
  type : UInt32
  length : ℕ
  data : Buffer ipcMessageMax
  length_le : length ≤ ipcMessageMax

/-- The static variables of `ipc.c`. -/
structure Queue where
  queue : ℕ → Message
  head : ℕ
  tail : ℕ
  count : ℕ

/-- The byte a pointer gives at an index; the code reads no byte through a null pointer. -/
def loadByte (data : Pointer) (index : ℕ) : UInt8 :=
  (data.getD []).getD index 0

def ipcInit (ipc : Queue) : Queue :=
  { ipc with head := 0, tail := 0, count := 0 }

/-- The message left in a slot by a send: the first `length` bytes are new, the rest stay. -/
def fillMessage (slot : Message) (senderId receiverId type : UInt32) (data : Pointer) (length : ℕ)
    (hlength : length ≤ ipcMessageMax) : Message where
  senderId := senderId
  receiverId := receiverId
  type := type
  length := length
  data := Vector.ofFn fun index ↦
    if index.val < length then loadByte data index.val else slot.data.get index
  length_le := hlength

/-- The part of `ipc_send_from_to` that changes the queue; the wakeup that follows it concerns only
the scheduler. -/
def ipcSendFromTo (senderId receiverId type : UInt32) (data : Pointer) (length : ℕ)
    (ipc : Queue) : Bool × Queue :=
  if hlength : length ≤ ipcMessageMax then
    if length ≠ 0 ∧ data.isNone then (false, ipc)
    else if ipcQueueCapacity ≤ ipc.count then (false, ipc)
    else
      (true, { ipc with
        queue := Function.update ipc.queue ipc.head
          (fillMessage (ipc.queue ipc.head) senderId receiverId type data length hlength)
        head := (ipc.head + 1) % ipcQueueCapacity
        count := ipc.count + 1 })
  else (false, ipc)

def messageMatches (message : Message) (receiverId : UInt32) : Bool :=
  receiverId == 0 || message.receiverId == 0 || message.receiverId == receiverId

def copyMessage (source : Message) : Message where
  senderId := source.senderId
  receiverId := source.receiverId
  type := source.type
  length := source.length
  data := Vector.ofFn fun index ↦ source.data.get index
  length_le := source.length_le

/-- The loop of `ipc_receive_for` that closes the gap left by the message it takes. -/
def moveOlderUp : ℕ → ℕ → (ℕ → Message) → ℕ → Message
  | 0, _, queue => queue
  | offset + 1, position, queue =>
    let previous := (position + ipcQueueCapacity - 1) % ipcQueueCapacity
    moveOlderUp offset previous (Function.update queue position (copyMessage (queue previous)))

/-- The output arguments of a receive: which pointers are non-null, and the size of the buffer. -/
structure ReceiveBuffers where
  type : Bool
  data : Bool
  capacity : ℕ
  length : Bool

/-- What a successful receive stores through its output arguments. -/
structure Delivery where
  type : Option UInt32
  length : Option ℕ
  data : List UInt8
  deriving DecidableEq

/-- The message bytes a receive copies: the first `length` bytes of its slot. -/
def Message.payload (message : Message) : List UInt8 :=
  (List.range message.length).map message.data.byteAt

def ipcReceiveFor (receiverId : UInt32) (buffers : ReceiveBuffers) (ipc : Queue) :
    Option Delivery × Queue :=
  match (List.range ipc.count).find? fun offset ↦
      messageMatches (ipc.queue ((ipc.tail + offset) % ipcQueueCapacity)) receiverId with
  | none => (none, ipc)
  | some offset =>
    let position := (ipc.tail + offset) % ipcQueueCapacity
    let message := ipc.queue position
    if buffers.capacity < message.length ∨ (message.length ≠ 0 ∧ buffers.data = false) then
      (none, ipc)
    else
      (some
        { type := if buffers.type then some message.type else none
          length := if buffers.length then some message.length else none
          data := message.payload },
        { ipc with
          queue := moveOlderUp offset position ipc.queue
          tail := (ipc.tail + 1) % ipcQueueCapacity
          count := ipc.count - 1 })

def ipcPendingFor (receiverId : UInt32) (ipc : Queue) : ℕ :=
  (List.range ipc.count).foldl (fun pending offset ↦
    if messageMatches (ipc.queue ((ipc.tail + offset) % ipcQueueCapacity)) receiverId then
      pending + 1
    else pending) 0

/-- The loop of the purges that closes the gap at `shift`; `remaining` counts the newer messages. -/
def moveNewerDown (tail : ℕ) : ℕ → ℕ → (ℕ → Message) → ℕ → Message
  | 0, _, queue => queue
  | remaining + 1, shift, queue =>
    moveNewerDown tail remaining (shift + 1)
      (Function.update queue ((tail + shift) % ipcQueueCapacity)
        (copyMessage (queue ((tail + shift + 1) % ipcQueueCapacity))))

/-- One message dropped by a purge. -/
def dropMessage (offset : ℕ) (ipc : Queue) : Queue where
  queue := moveNewerDown ipc.tail (ipc.count - 1 - offset) offset ipc.queue
  head := (ipc.tail + (ipc.count - 1)) % ipcQueueCapacity
  tail := ipc.tail
  count := ipc.count - 1

/-- The loop of a purge; `remaining` is `count - offset`, which falls by one in every round. -/
def purgeLoop (field : Message → UInt32) (taskId : UInt32) : ℕ → ℕ → ℕ → Queue → ℕ × Queue
  | 0, _, removed, ipc => (removed, ipc)
  | remaining + 1, offset, removed, ipc =>
    if field (ipc.queue ((ipc.tail + offset) % ipcQueueCapacity)) ≠ taskId then
      purgeLoop field taskId remaining (offset + 1) removed ipc
    else purgeLoop field taskId remaining offset (removed + 1) (dropMessage offset ipc)

/-- `ipc_purge_field`, with the field it compares as its argument. -/
def ipcPurgeField (field : Message → UInt32) (taskId : UInt32) (ipc : Queue) : ℕ × Queue :=
  if taskId = 0 then (0, ipc) else purgeLoop field taskId ipc.count 0 0 ipc

/-- `ipc_purge_receiver` repeats the text of `ipc_purge_field`, comparing the receiver. -/
def ipcPurgeReceiver (receiverId : UInt32) (ipc : Queue) : ℕ × Queue :=
  ipcPurgeField Message.receiverId receiverId ipc

def ipcPurgeSender (senderId : UInt32) (ipc : Queue) : ℕ × Queue :=
  ipcPurgeField Message.senderId senderId ipc

/-! ### The mailbox the queue stands for -/

/-- A message as its users see it. -/
structure Letter where
  sender : UInt32
  receiver : UInt32
  type : UInt32
  payload : List UInt8
  deriving DecidableEq

/-- A letter may be received by a task if either side is left open or they agree. -/
def Letter.isFor (receiverId : UInt32) (letter : Letter) : Bool :=
  receiverId == 0 || letter.receiver == 0 || letter.receiver == receiverId

/-- The calls on the queue, with every argument the code takes. -/
inductive Call where
  | sendFromTo (senderId receiverId type : UInt32) (data : Pointer) (length : ℕ)
  | receiveFor (receiverId : UInt32) (buffers : ReceiveBuffers)
  | purgeReceiver (receiverId : UInt32)
  | purgeSender (senderId : UInt32)
  | pendingFor (receiverId : UInt32)

/-- What a call returns. -/
inductive Reply where
  | sent (accepted : Bool)
  | received (delivery : Option Delivery)
  | removed (number : ℕ)
  | pending (number : ℕ)
  deriving DecidableEq

def runCall : Call → Queue → Reply × Queue
  | .sendFromTo senderId receiverId type data length, ipc =>
    let outcome := ipcSendFromTo senderId receiverId type data length ipc
    (.sent outcome.1, outcome.2)
  | .receiveFor receiverId buffers, ipc =>
    let outcome := ipcReceiveFor receiverId buffers ipc
    (.received outcome.1, outcome.2)
  | .purgeReceiver receiverId, ipc =>
    let outcome := ipcPurgeReceiver receiverId ipc
    (.removed outcome.1, outcome.2)
  | .purgeSender senderId, ipc =>
    let outcome := ipcPurgeSender senderId ipc
    (.removed outcome.1, outcome.2)
  | .pendingFor receiverId, ipc => (.pending (ipcPendingFor receiverId ipc), ipc)

/-- A run of calls, with the replies in order. -/
def runCalls : List Call → Queue → List Reply × Queue
  | [], ipc => ([], ipc)
  | call :: rest, ipc =>
    let outcome := runCall call ipc
    let later := runCalls rest outcome.2
    (outcome.1 :: later.1, later.2)

/-- The letter a send puts in the mailbox. -/
def sentLetter (senderId receiverId type : UInt32) (data : Pointer) (length : ℕ) : Letter where
  sender := senderId
  receiver := receiverId
  type := type
  payload := (List.range length).map (loadByte data)

/-- Whether the output arguments of a receive can take a letter. -/
def ReceiveBuffers.Fit (buffers : ReceiveBuffers) (letter : Letter) : Prop :=
  letter.payload.length ≤ buffers.capacity ∧ (letter.payload = [] ∨ buffers.data = true)
  deriving Decidable

/-- What a receive hands over of a letter. -/
def Letter.delivery (letter : Letter) (buffers : ReceiveBuffers) : Delivery where
  type := if buffers.type then some letter.type else none
  length := if buffers.length then some letter.payload.length else none
  data := letter.payload

/-- Every letter with the given non-zero task in a field leaves the mailbox, and is counted. -/
def mailboxPurge (field : Letter → UInt32) (taskId : UInt32) (mailbox : List Letter) :
    Reply × List Letter :=
  if taskId = 0 then (.removed 0, mailbox)
  else (.removed (mailbox.countP fun letter ↦ field letter == taskId),
    mailbox.filter fun letter ↦ field letter != taskId)

/-- The abstract behaviour: what each call does to the list of letters. -/
def mailboxCall : Call → List Letter → Reply × List Letter
  | .sendFromTo senderId receiverId type data length, mailbox =>
    if length ≤ ipcMessageMax ∧ (length = 0 ∨ data.isSome) ∧ mailbox.length < ipcQueueCapacity then
      (.sent true, mailbox ++ [sentLetter senderId receiverId type data length])
    else (.sent false, mailbox)
  | .receiveFor receiverId buffers, mailbox =>
    match mailbox.find? (Letter.isFor receiverId) with
    | none => (.received none, mailbox)
    | some letter =>
      if buffers.Fit letter then
        (.received (some (letter.delivery buffers)), mailbox.eraseP (Letter.isFor receiverId))
      else (.received none, mailbox)
  | .purgeReceiver receiverId, mailbox => mailboxPurge Letter.receiver receiverId mailbox
  | .purgeSender senderId, mailbox => mailboxPurge Letter.sender senderId mailbox
  | .pendingFor receiverId, mailbox =>
    (.pending (mailbox.countP (Letter.isFor receiverId)), mailbox)

def mailboxCalls : List Call → List Letter → List Reply × List Letter
  | [], mailbox => ([], mailbox)
  | call :: rest, mailbox =>
    let outcome := mailboxCall call mailbox
    let later := mailboxCalls rest outcome.2
    (outcome.1 :: later.1, later.2)

/-! ### Reading the mailbox out of the ring -/

/-- A message without the bytes its length does not cover. -/
def Message.letter (message : Message) : Letter where
  sender := message.senderId
  receiver := message.receiverId
  type := message.type
  payload := message.payload

def letters (ipc : Queue) : List Letter :=
  (Ring.contents ipcQueueCapacity ipc.queue ipc.tail ipc.count).map Message.letter

/-- The ring is well formed and holds the letters of the mailbox in order. -/
structure Represents (ipc : Queue) (mailbox : List Letter) : Prop where
  count_le : ipc.count ≤ ipcQueueCapacity
  tail_lt : ipc.tail < ipcQueueCapacity
  head_eq : ipc.head = (ipc.tail + ipc.count) % ipcQueueCapacity
  letters_eq : letters ipc = mailbox

@[simp] theorem length_payload (message : Message) : message.payload.length = message.length := by
  simp [Message.payload]

@[simp] theorem length_letters (ipc : Queue) : (letters ipc).length = ipc.count := by
  simp [letters]

@[simp] theorem copyMessage_eq (source : Message) : copyMessage source = source := by
  have hdata : (Vector.ofFn fun index ↦ source.data.get index) = source.data := by
    apply Vector.ext
    intro index hindex
    rw [Vector.getElem_ofFn]
    rfl
  unfold copyMessage
  simp only [hdata]

theorem moveOlderUp_eq (offset position : ℕ) (queue : ℕ → Message) :
    moveOlderUp offset position queue = Ring.shiftUp ipcQueueCapacity offset position queue := by
  induction offset generalizing position queue with
  | zero => rfl
  | succ offset ih => simp only [moveOlderUp, Ring.shiftUp, copyMessage_eq, ih]

theorem moveNewerDown_eq (tail remaining shift : ℕ) (queue : ℕ → Message) :
    moveNewerDown tail remaining shift queue =
      Ring.shiftDown ipcQueueCapacity tail remaining shift queue := by
  induction remaining generalizing shift queue with
  | zero => rfl
  | succ remaining ih =>
    simp only [moveNewerDown, Ring.shiftDown, copyMessage_eq, ih]
    rfl

variable {length : ℕ}

theorem letter_fillMessage (slot : Message) (senderId receiverId type : UInt32) (data : Pointer)
    (hlength : length ≤ ipcMessageMax) :
    (fillMessage slot senderId receiverId type data length hlength).letter =
      sentLetter senderId receiverId type data length := by
  have hpayload : (fillMessage slot senderId receiverId type data length hlength).payload =
      (List.range length).map (loadByte data) := by
    apply List.map_congr_left
    intro index hmem
    have hindex : index < length := List.mem_range.mp hmem
    simp [fillMessage, Buffer.byteAt, hindex, hindex.trans_le hlength]
  simp only [Message.letter, sentLetter, hpayload]
  rfl

/-! ### One call -/

variable {ipc : Queue} {mailbox : List Letter}

/-- Filling the slot at `head` appends a letter. -/
theorem Represents.push (hrep : Represents ipc mailbox) (hroom : ipc.count < ipcQueueCapacity)
    (message : Message) :
    Represents
      { ipc with
        queue := Function.update ipc.queue ipc.head message
        head := (ipc.head + 1) % ipcQueueCapacity
        count := ipc.count + 1 }
      (mailbox ++ [message.letter]) where
  count_le := hroom
  tail_lt := hrep.tail_lt
  head_eq := by
    rw [hrep.head_eq, Nat.mod_add_mod, Nat.add_assoc]
  letters_eq := by
    rw [hrep.head_eq]
    change (Ring.contents _ (Function.update _ (Ring.index _ _ _) _) _ _).map _ = _
    rw [Ring.contents_push hroom, List.map_append, List.map_singleton, ← hrep.letters_eq]
    rfl

theorem ipcSendFromTo_refines (hrep : Represents ipc mailbox) (senderId receiverId type : UInt32)
    (data : Pointer) (length : ℕ) :
    (runCall (.sendFromTo senderId receiverId type data length) ipc).1 =
        (mailboxCall (.sendFromTo senderId receiverId type data length) mailbox).1 ∧
      Represents (runCall (.sendFromTo senderId receiverId type data length) ipc).2
        (mailboxCall (.sendFromTo senderId receiverId type data length) mailbox).2 := by
  have hlength : mailbox.length = ipc.count := by rw [← hrep.letters_eq, length_letters]
  simp only [runCall, mailboxCall, ipcSendFromTo, hlength]
  by_cases hfits : length ≤ ipcMessageMax
  · by_cases hnull : length ≠ 0 ∧ data.isNone
    · have hrefused : ¬(length = 0 ∨ data.isSome) := by
        cases data <;> simp_all
      rw [dif_pos hfits, if_pos hnull, if_neg (fun h ↦ hrefused h.2.1)]
      exact ⟨rfl, hrep⟩
    · have hgiven : length = 0 ∨ data.isSome := by
        cases data <;> simp_all
      by_cases hfull : ipcQueueCapacity ≤ ipc.count
      · rw [dif_pos hfits, if_neg hnull, if_pos hfull, if_neg (fun h ↦ by omega)]
        exact ⟨rfl, hrep⟩
      · rw [dif_pos hfits, if_neg hnull, if_neg hfull, if_pos ⟨hfits, hgiven, by omega⟩]
        refine ⟨rfl, ?_⟩
        rw [← letter_fillMessage (ipc.queue ipc.head) senderId receiverId type data hfits]
        exact hrep.push (by omega) _
  · rw [dif_neg hfits, if_neg (fun h ↦ hfits h.1)]
    exact ⟨rfl, hrep⟩

variable {receiverId : UInt32}

/-- A refused send leaves the queue as it was. -/
theorem ipcSendFromTo_refused {senderId type : UInt32} {data : Pointer}
    (h : (ipcSendFromTo senderId receiverId type data length ipc).1 = false) :
    (ipcSendFromTo senderId receiverId type data length ipc).2 = ipc := by
  unfold ipcSendFromTo at h ⊢
  split_ifs at h ⊢ <;> rfl

variable {offset : ℕ}

/-- Taking the message at an offset, as a receive does, erases its letter. -/
theorem Represents.take (hrep : Represents ipc mailbox) (hoffset : offset < ipc.count) :
    Represents
      { ipc with
        queue := moveOlderUp offset ((ipc.tail + offset) % ipcQueueCapacity) ipc.queue
        tail := (ipc.tail + 1) % ipcQueueCapacity
        count := ipc.count - 1 }
      (mailbox.eraseIdx offset) where
  count_le := (Nat.sub_le _ _).trans hrep.count_le
  tail_lt := Nat.mod_lt _ (by decide)
  head_eq := by
    rw [hrep.head_eq, Nat.mod_add_mod, Nat.add_assoc, Nat.add_sub_cancel' (by omega)]
  letters_eq := by
    simp only [letters, moveOlderUp_eq]
    change (Ring.contents _ (Ring.shiftUp _ _ (Ring.index _ _ _) _) _ _).map _ = _
    rw [Ring.contents_shiftUp hoffset hrep.count_le, ← List.eraseIdx_map, ← hrep.letters_eq]
    rfl

theorem find?_eq_findIdx? (receiverId : UInt32) (ipc : Queue) :
    ((List.range ipc.count).find? fun offset ↦
      messageMatches (ipc.queue ((ipc.tail + offset) % ipcQueueCapacity)) receiverId) =
      (letters ipc).findIdx? (Letter.isFor receiverId) := by
  rw [letters, List.findIdx?_map]
  exact Ring.find?_range_eq_findIdx? fun message ↦ messageMatches message receiverId

theorem Represents.letter_at (hrep : Represents ipc mailbox) (hoffset : offset < mailbox.length) :
    (ipc.queue ((ipc.tail + offset) % ipcQueueCapacity)).letter = mailbox[offset] := by
  obtain rfl := hrep.letters_eq
  simp only [letters, List.getElem_map, Ring.getElem_contents]
  rfl

/-- A receive refuses a message exactly when its letter does not fit the output arguments. -/
theorem fit_letter_iff (buffers : ReceiveBuffers) (message : Message) :
    buffers.Fit message.letter ↔
      ¬(buffers.capacity < message.length ∨ (message.length ≠ 0 ∧ buffers.data = false)) := by
  have hempty : message.payload = [] ↔ message.length = 0 := by
    rw [← List.length_eq_zero_iff, length_payload]
  unfold ReceiveBuffers.Fit Message.letter
  simp only [length_payload, hempty]
  cases buffers.data <;> simp

theorem ipcReceiveFor_refines (hrep : Represents ipc mailbox) (receiverId : UInt32)
    (buffers : ReceiveBuffers) :
    (runCall (.receiveFor receiverId buffers) ipc).1 =
        (mailboxCall (.receiveFor receiverId buffers) mailbox).1 ∧
      Represents (runCall (.receiveFor receiverId buffers) ipc).2
        (mailboxCall (.receiveFor receiverId buffers) mailbox).2 := by
  obtain rfl := hrep.letters_eq
  simp only [runCall, mailboxCall, ipcReceiveFor, find?_eq_findIdx?, List.eraseP_eq_eraseIdx]
  cases hsearch : (letters ipc).findIdx? (Letter.isFor receiverId) with
  | none =>
    have hnone : (letters ipc).find? (Letter.isFor receiverId) = none := by
      rw [List.find?_eq_none]
      intro letter hmem
      rw [List.findIdx?_eq_none_iff.mp hsearch letter hmem]
      decide
    rw [hnone]
    exact ⟨rfl, hrep⟩
  | some offset =>
    obtain ⟨hbound, hmatch, hearlier⟩ := List.findIdx?_eq_some_iff_getElem.mp hsearch
    have hfirst : (letters ipc).find? (Letter.isFor receiverId) =
        some (ipc.queue ((ipc.tail + offset) % ipcQueueCapacity)).letter := by
      rw [hrep.letter_at hbound, List.find?_eq_some_iff_getElem]
      exact ⟨hmatch, offset, hbound, rfl, fun earlier hlt ↦ by simpa using hearlier earlier hlt⟩
    rw [hfirst]
    by_cases hfit : buffers.Fit (ipc.queue ((ipc.tail + offset) % ipcQueueCapacity)).letter
    · simp only [if_pos hfit, if_neg ((fit_letter_iff buffers _).mp hfit)]
      refine ⟨?_, hrep.take (length_letters ipc ▸ hbound)⟩
      simp only [Letter.delivery, Message.letter, length_payload]
    · have hrefused := Decidable.not_not.mp (mt (fit_letter_iff buffers _).mpr hfit)
      simp only [if_neg hfit, if_pos hrefused]
      exact ⟨trivial, hrep⟩

/-- Dropping the message at an offset, as a purge does, erases its letter. -/
theorem Represents.drop (hrep : Represents ipc mailbox) (hoffset : offset < ipc.count) :
    Represents (dropMessage offset ipc) (mailbox.eraseIdx offset) where
  count_le := (Nat.sub_le _ _).trans hrep.count_le
  tail_lt := hrep.tail_lt
  head_eq := rfl
  letters_eq := by
    simp only [letters, dropMessage, moveNewerDown_eq]
    rw [Ring.contents_shiftDown hoffset hrep.count_le, ← List.eraseIdx_map, ← hrep.letters_eq]
    rfl

/-- The purge loop over the letters not yet looked at: those kept so far stay in front. -/
theorem purgeLoop_refines {field : Message → UInt32} {letterField : Letter → UInt32}
    (hfield : ∀ message, field message = letterField message.letter) (taskId : UInt32)
    (remaining : List Letter) (kept : List Letter) (removed : ℕ) (ipc : Queue)
    (hrep : Represents ipc (kept ++ remaining)) :
    (purgeLoop field taskId remaining.length kept.length removed ipc).1 =
        removed + remaining.countP (fun letter ↦ letterField letter == taskId) ∧
      Represents (purgeLoop field taskId remaining.length kept.length removed ipc).2
        (kept ++ remaining.filter fun letter ↦ letterField letter != taskId) := by
  induction remaining generalizing kept removed ipc with
  | nil => simpa [purgeLoop] using hrep
  | cons letter remaining ih =>
    have hat : (ipc.queue ((ipc.tail + kept.length) % ipcQueueCapacity)).letter = letter := by
      rw [hrep.letter_at (by simp)]
      simp
    rw [List.length_cons, purgeLoop, hfield, hat]
    by_cases hmatch : letterField letter = taskId
    · have hdropped : Represents (dropMessage kept.length ipc) (kept ++ remaining) := by
        have hcount : kept.length < ipc.count := by
          rw [← length_letters, hrep.letters_eq]
          simp
        simpa [List.eraseIdx_append_of_length_le] using hrep.drop hcount
      simpa [hmatch, Nat.add_assoc, Nat.add_comm 1] using ih kept (removed + 1) _ hdropped
    · have hkept := ih (kept ++ [letter]) removed ipc (by simpa using hrep)
      simpa [hmatch] using hkept

theorem ipcPurgeField_refines (hrep : Represents ipc mailbox) {field : Message → UInt32}
    {letterField : Letter → UInt32}
    (hfield : ∀ message, field message = letterField message.letter) (taskId : UInt32) :
    Reply.removed (ipcPurgeField field taskId ipc).1 = (mailboxPurge letterField taskId mailbox).1 ∧
      Represents (ipcPurgeField field taskId ipc).2
        (mailboxPurge letterField taskId mailbox).2 := by
  unfold ipcPurgeField mailboxPurge
  by_cases hzero : taskId = 0
  · rw [if_pos hzero, if_pos hzero]
    exact ⟨rfl, hrep⟩
  · have hlength : ipc.count = mailbox.length := by rw [← hrep.letters_eq, length_letters]
    obtain ⟨hremoved, hpurged⟩ := purgeLoop_refines hfield taskId mailbox [] 0 ipc hrep
    rw [if_neg hzero, if_neg hzero, hlength]
    exact ⟨by simpa using hremoved, hpurged⟩

theorem ipcPendingFor_eq (receiverId : UInt32) (ipc : Queue) :
    ipcPendingFor receiverId ipc = (letters ipc).countP (Letter.isFor receiverId) := by
  rw [letters, List.countP_map]
  exact Ring.foldl_range_eq_countP fun message ↦ messageMatches message receiverId

/-- Every call replies and changes the ring as it replies and changes the mailbox. -/
theorem runCall_refines (hrep : Represents ipc mailbox) (call : Call) :
    (runCall call ipc).1 = (mailboxCall call mailbox).1 ∧
      Represents (runCall call ipc).2 (mailboxCall call mailbox).2 := by
  cases call with
  | sendFromTo senderId receiverId type data length =>
    exact ipcSendFromTo_refines hrep senderId receiverId type data length
  | receiveFor receiverId buffers => exact ipcReceiveFor_refines hrep receiverId buffers
  | purgeReceiver receiverId =>
    have hfield : ∀ message : Message, message.receiverId = message.letter.receiver := fun _ ↦ rfl
    exact ipcPurgeField_refines hrep hfield receiverId
  | purgeSender senderId =>
    have hfield : ∀ message : Message, message.senderId = message.letter.sender := fun _ ↦ rfl
    exact ipcPurgeField_refines hrep hfield senderId
  | pendingFor receiverId =>
    refine ⟨?_, hrep⟩
    simp only [runCall, mailboxCall, ipcPendingFor_eq, hrep.letters_eq]

theorem Represents.self (hrep : Represents ipc mailbox) : Represents ipc (letters ipc) :=
  { hrep with letters_eq := rfl }

/-- Whether a call may add to the queue. -/
def Call.isSend : Call → Bool
  | .sendFromTo .. => true
  | _ => false

theorem mailboxCall_sublist {call : Call} (hcall : call.isSend = false) (mailbox : List Letter) :
    (mailboxCall call mailbox).2.Sublist mailbox := by
  cases call with
  | sendFromTo senderId receiverId type data length => cases hcall
  | receiveFor receiverId buffers =>
    simp only [mailboxCall]
    split
    · exact .refl _
    · split_ifs
      · exact List.eraseP_sublist
      · exact .refl _
  | purgeReceiver taskId | purgeSender taskId =>
    simp only [mailboxCall, mailboxPurge]
    split_ifs
    · exact .refl _
    · exact List.filter_sublist
  | pendingFor receiverId => exact .refl _

/-- A call that is not a send brings no letter in. -/
theorem mem_letters_of_mem_runCall (hrep : Represents ipc mailbox) (call : Call)
    (hcall : call.isSend = false) {letter : Letter} (hmem : letter ∈ letters (runCall call ipc).2) :
    letter ∈ letters ipc := by
  obtain ⟨-, hnext⟩ := runCall_refines hrep.self call
  rw [hnext.letters_eq] at hmem
  exact (mailboxCall_sublist hcall _).subset hmem

/-- A send that was accepted adds its letter at the end. -/
theorem letters_ipcSendFromTo (hrep : Represents ipc mailbox) {senderId type : UInt32}
    {data : Pointer} (hsent : (ipcSendFromTo senderId receiverId type data length ipc).1 = true) :
    letters (ipcSendFromTo senderId receiverId type data length ipc).2 =
      letters ipc ++ [sentLetter senderId receiverId type data length] := by
  obtain ⟨hreply, hnext⟩ := ipcSendFromTo_refines hrep.self senderId receiverId type data length
  rw [runCall, mailboxCall] at hreply hnext
  rw [hsent] at hreply
  split_ifs at hreply hnext with hroom
  · exact hnext.letters_eq
  · cases hreply

theorem ipcPendingFor_eq_zero_iff :
    ipcPendingFor receiverId ipc = 0 ↔
      ∀ letter ∈ letters ipc, letter.isFor receiverId = false := by
  rw [ipcPendingFor_eq, List.countP_eq_zero]
  simp only [Bool.not_eq_true]

/-! ### Every run -/

theorem represents_ipcInit (ipc : Queue) : Represents (ipcInit ipc) [] where
  count_le := Nat.zero_le _
  tail_lt := Nat.zero_lt_succ _
  head_eq := rfl
  letters_eq := rfl

theorem runCalls_refines (hrep : Represents ipc mailbox) (calls : List Call) :
    (runCalls calls ipc).1 = (mailboxCalls calls mailbox).1 ∧
      Represents (runCalls calls ipc).2 (mailboxCalls calls mailbox).2 := by
  induction calls generalizing ipc mailbox with
  | nil => exact ⟨rfl, hrep⟩
  | cons call rest ih =>
    obtain ⟨hreply, hnext⟩ := runCall_refines hrep call
    obtain ⟨hreplies, hlast⟩ := ih hnext
    simp only [runCalls, mailboxCalls]
    exact ⟨by rw [hreply, hreplies], hlast⟩

/-- After `ipc_init`, whatever the slots held, every sequence of calls gives the replies the mailbox
gives, and leaves a ring that is well formed and holds the letters of the mailbox in order. -/
theorem ipc_refines_mailbox (boot : Queue) (calls : List Call) :
    (runCalls calls (ipcInit boot)).1 = (mailboxCalls calls []).1 ∧
      Represents (runCalls calls (ipcInit boot)).2 (mailboxCalls calls []).2 ∧
      (mailboxCalls calls []).2.length ≤ ipcQueueCapacity := by
  obtain ⟨hreplies, hrep⟩ := runCalls_refines (represents_ipcInit boot) calls
  refine ⟨hreplies, hrep, ?_⟩
  rw [← hrep.letters_eq, length_letters]
  exact hrep.count_le

/-! ### The order of delivery -/

/-- The letter a call put in the queue, as its reply says. -/
def accepted : Call × Reply → List Letter
  | (.sendFromTo senderId receiverId type data length, .sent true) =>
    [sentLetter senderId receiverId type data length]
  | _ => []

/-- What a call handed to a receiver, as its reply says. -/
def handed (receiverId : UInt32) : Call × Reply → List (ReceiveBuffers × Delivery)
  | (.receiveFor taskId buffers, .received (some delivery)) =>
    if taskId = receiverId then [(buffers, delivery)] else []
  | _ => []

/-- Each delivery is that of a letter, and these letters and then those left for the receiver are,
in this order, among those there were for it. -/
def InOrder (receiverId : UInt32) (deliveries : List (ReceiveBuffers × Delivery))
    (left there : List Letter) : Prop :=
  ∃ taken, List.Forall₂ (fun got letter ↦ got.2 = Letter.delivery letter got.1) deliveries taken ∧
    (taken ++ left.filter (Letter.isFor receiverId)).Sublist
      (there.filter (Letter.isFor receiverId))

section

variable {receiverId : UInt32} {earlier later : List (ReceiveBuffers × Delivery)}
  {left between there added : List Letter}

theorem InOrder.of_sublist (h : left.Sublist there) : InOrder receiverId [] left there :=
  ⟨[], .nil, h.filter _⟩

theorem InOrder.append (hearlier : InOrder receiverId earlier between there)
    (hlater : InOrder receiverId later left (between ++ added)) :
    InOrder receiverId (earlier ++ later) left (there ++ added) := by
  obtain ⟨first, hfirst, hbetween⟩ := hearlier
  obtain ⟨second, hsecond, hleft⟩ := hlater
  rw [List.filter_append] at hleft
  refine ⟨first ++ second, List.rel_append hfirst hsecond, ?_⟩
  rw [List.append_assoc, List.filter_append]
  refine (hleft.append_left first).trans ?_
  rw [← List.append_assoc]
  exact hbetween.append_right _

end

theorem filter_eq_cons_of_find? {α : Type*} {p : α → Bool} {x : α} {list : List α}
    (hfind : list.find? p = some x) : list.filter p = x :: (list.eraseP p).filter p := by
  induction list with
  | nil => cases hfind
  | cons head rest ih =>
    rw [List.find?_cons] at hfind
    split at hfind
    · cases hfind
      simp [*]
    · simp [*]

theorem mailboxCall_inOrder (receiverId : UInt32) (call : Call) (mailbox : List Letter) :
    InOrder receiverId (handed receiverId (call, (mailboxCall call mailbox).1))
      (mailboxCall call mailbox).2
      (mailbox ++ accepted (call, (mailboxCall call mailbox).1)) := by
  cases call with
  | sendFromTo senderId receiverId type data length =>
    simp only [mailboxCall]
    split_ifs
    · exact .of_sublist (.refl _)
    · exact .of_sublist (List.sublist_append_left _ _)
  | receiveFor taskId buffers =>
    simp only [mailboxCall, accepted, List.append_nil]
    split
    case h_1 => exact .of_sublist (.refl _)
    case h_2 letter hfind =>
      split_ifs with hfit
      · by_cases htask : taskId = receiverId
        · subst htask
          simp only [handed, if_true]
          refine ⟨[letter], .cons rfl .nil, ?_⟩
          rw [filter_eq_cons_of_find? hfind]
          exact .refl _
        · simp only [handed, if_neg htask]
          exact .of_sublist List.eraseP_sublist
      · exact .of_sublist (.refl _)
  | purgeReceiver taskId | purgeSender taskId | pendingFor taskId =>
    exact .of_sublist ((mailboxCall_sublist rfl mailbox).trans (List.sublist_append_left _ _))

theorem mailboxCalls_inOrder (receiverId : UInt32) (calls : List Call) (mailbox : List Letter) :
    InOrder receiverId
      ((calls.zip (mailboxCalls calls mailbox).1).flatMap (handed receiverId))
      (mailboxCalls calls mailbox).2
      (mailbox ++ (calls.zip (mailboxCalls calls mailbox).1).flatMap accepted) := by
  induction calls generalizing mailbox with
  | nil => exact .of_sublist (List.sublist_append_left _ _)
  | cons call rest ih =>
    simp only [mailboxCalls, List.zip_cons_cons, List.flatMap_cons]
    rw [← List.append_assoc]
    exact (mailboxCall_inOrder receiverId call mailbox).append (ih _)

/-- The queue keeps the order of delivery: in every run of calls after `ipc_init`, what each
receiver is handed, and then what still waits for it, comes from accepted sends it may receive, each
once and in the order they were sent. -/
theorem ipc_delivers_in_order (boot : Queue) (calls : List Call) (receiverId : UInt32) :
    InOrder receiverId
      ((calls.zip (runCalls calls (ipcInit boot)).1).flatMap (handed receiverId))
      (letters (runCalls calls (ipcInit boot)).2)
      ((calls.zip (runCalls calls (ipcInit boot)).1).flatMap accepted) := by
  obtain ⟨hreplies, hrep⟩ := runCalls_refines (represents_ipcInit boot) calls
  rw [hreplies, hrep.letters_eq]
  exact mailboxCalls_inOrder receiverId calls []

end EfesOS.Kernel.Ipc
