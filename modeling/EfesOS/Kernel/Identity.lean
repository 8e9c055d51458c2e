import EfesOS.Kernel.Traffic
import EfesOS.Process.Spawning

/-!
# Messages keep to the task they are for

Slots of the task table are used again, task ids are not. A message is addressed to an id; it is
sent only to a user task that lives, and when a task ends the messages to it and from it are
dropped. So over every interleaving of process starts, interrupts, faults, exits and system calls
the queue holds messages between living tasks only, and a task receives what was sent to everyone or
to itself after it was started.

`Settled` is the invariant and `Conserves` says what one step does to the messages and to the tasks
they name; `Activity.settled` is the step, `messages_stay_with_their_tasks` the conclusion for every
history.
-/

set_option autoImplicit false

namespace EfesOS.Kernel

open EfesOS.Foundation EfesOS.Foundation.Program EfesOS.Process
open EfesOS.Kernel.Ipc (Letter letters Represents)

variable {M : Type}

/-! ### Living tasks -/

/-- A user task that has not ended, with its slot and its id. -/
structure LiveUser (scheduler : Scheduler) (slot : ℕ) (taskId : UInt32) : Prop where
  mode : (scheduler.tasks slot).mode = .user
  state : (scheduler.tasks slot).state ≠ .terminated
  id : (scheduler.tasks slot).taskId = taskId

variable {taskId : UInt32}

theorem LiveUser.of_sameTask {before after : Scheduler} {slot : ℕ}
    (hlive : LiveUser before slot taskId)
    (hsame : SameTask (before.tasks slot) (after.tasks slot)) : LiveUser after slot taskId :=
  ⟨hsame.mode.trans hlive.mode, fun hended ↦ hlive.state (hsame.ended.mp hended),
    hsame.taskId.trans hlive.id⟩

theorem liveUser_of_active {scheduler : Scheduler}
    (hactive : schedulerTaskIdIsActiveUser taskId scheduler = true) :
    ∃ slot, LiveUser scheduler slot taskId := by
  simp only [schedulerTaskIdIsActiveUser, Bool.and_eq_true, List.any_eq_true, beq_iff_eq,
    bne_iff_ne] at hactive
  obtain ⟨-, slot, -, ⟨⟨hid, hmode⟩, hstate⟩, -⟩ := hactive
  exact ⟨slot, hmode, hstate, hid⟩

/-- Two living user tasks with one id are one. -/
theorem LiveUser.slot_eq {scheduler : Scheduler} (hsound : Sound scheduler) {first second : ℕ}
    (hfirst : LiveUser scheduler first taskId) (hsecond : LiveUser scheduler second taskId) :
    first = second := by
  have hslot : ∀ slot, LiveUser scheduler slot taskId → taskId.toNat % 256 = slot := by
    intro slot hlive
    have hfits := hsound.fits slot
    have hid := hfits.id_slot (hfits.live_user hlive.mode hlive.state).1
    rwa [hlive.id] at hid
  exact (hslot first hfirst).symm.trans (hslot second hsecond)

/-- What holds of the machine between steps. -/
structure Settled (machine : Machine M) : Prop where
  ready : Ready machine.scheduler
  ring : Represents machine.ipc (letters machine.ipc)
  current : CurrentLives machine.scheduler

variable {machine : Machine M}

theorem Settled.currentTaskId (hsettled : Settled machine) :
    schedulerCurrentTaskId machine.scheduler = machine.scheduler.current.taskId :=
  if_neg (not_le.mpr hsettled.ready.current_lt)

theorem Settled.currentLiveUser (hsettled : Settled machine)
    (huser : machine.scheduler.current.mode = .user) :
    LiveUser machine.scheduler machine.scheduler.currentTask
      (schedulerCurrentTaskId machine.scheduler) :=
  ⟨huser, hsettled.current huser, hsettled.currentTaskId.symm⟩

/-! ### What a step does to the messages -/

/-- No message names the task. -/
def Unnamed (taskId : UInt32) (mailbox : List Letter) : Prop :=
  ∀ letter ∈ mailbox, letter.receiver ≠ taskId ∧ letter.sender ≠ taskId

/-- Messages are neither made nor doubled, except the one sent; it names living tasks; a living task
stays alive or is named by no message any more; what is delivered is for the running task. -/
structure Conserves (traffic : Option Traffic) (before after : Machine Unit) : Prop where
  subperm : (Traffic.deliveredLetters traffic ++ letters after.ipc).Subperm
    (letters before.ipc ++ Traffic.sentLetters traffic)
  lives : ∀ slot taskId, LiveUser before.scheduler slot taskId →
    LiveUser after.scheduler slot taskId ∨ Unnamed taskId (letters after.ipc)
  sent : ∀ letter, traffic = some (.sent letter) →
    (letter.receiver ≠ 0 → ∃ slot, LiveUser after.scheduler slot letter.receiver) ∧
      ∃ slot, LiveUser after.scheduler slot letter.sender
  delivered : ∀ taskId letter, traffic = some (.delivered taskId letter) →
    letter ∈ letters before.ipc ∧ (letter.receiver = 0 ∨ letter.receiver = taskId) ∧
      LiveUser before.scheduler before.scheduler.currentTask taskId

section

variable {before middle after : Machine Unit}

theorem Conserves.of_same (htasks : SameTasks before.scheduler after.scheduler)
    (hletters : letters after.ipc = letters before.ipc) : Conserves none before after where
  subperm := by
    rw [hletters]
    exact (List.append_nil (letters before.ipc)).symm ▸ List.Subperm.refl _
  lives := fun slot _ hlive ↦ .inl (hlive.of_sameTask (htasks slot))
  sent := nofun
  delivered := nofun

theorem Conserves.subset (hconserves : Conserves none before after) {letter : Letter}
    (hmem : letter ∈ letters after.ipc) : letter ∈ letters before.ipc := by
  have hafter := hconserves.subperm.subset hmem
  simpa [Traffic.sentLetters] using hafter

theorem Conserves.trans (hfirst : Conserves none before middle)
    (hsecond : Conserves none middle after) : Conserves none before after where
  subperm := by
    have hbefore := hfirst.subperm
    have hafter := hsecond.subperm
    simp only [Traffic.deliveredLetters, Traffic.sentLetters, List.nil_append,
      List.append_nil] at hbefore hafter ⊢
    exact hafter.trans hbefore
  lives := by
    intro slot taskId hlive
    rcases hfirst.lives slot taskId hlive with hlives | hunnamed
    · exact hsecond.lives slot taskId hlives
    · exact .inr fun letter hmem ↦ hunnamed letter (hsecond.subset hmem)
  sent := nofun
  delivered := nofun

/-- The purges that end a task leave no message that names it, and bring none in. -/
theorem letters_retireCurrent {machine : Machine Unit}
    (hring : Represents machine.ipc (letters machine.ipc))
    (hid : schedulerCurrentTaskId machine.scheduler ≠ 0) :
    Represents (retireCurrent machine).ipc (letters (retireCurrent machine).ipc) ∧
      (letters (retireCurrent machine).ipc).Sublist (letters machine.ipc) ∧
      Unnamed (schedulerCurrentTaskId machine.scheduler) (letters (retireCurrent machine).ipc) := by
  let taskId := schedulerCurrentTaskId machine.scheduler
  have hreceiver := (Ipc.runCall_refines hring (.purgeReceiver taskId)).2
  have hsender := (Ipc.runCall_refines hreceiver.self (.purgeSender taskId)).2
  simp only [Ipc.runCall, Ipc.mailboxCall, Ipc.mailboxPurge, if_neg hid, taskId]
    at hreceiver hsender
  rw [hreceiver.letters_eq] at hsender
  have hletters : letters (retireCurrent machine).ipc = _ := hsender.letters_eq
  refine ⟨hsender.self, ?_, ?_⟩
  · rw [hletters]
    exact List.filter_sublist.trans List.filter_sublist
  · intro letter hmem
    rw [hletters] at hmem
    simp only [List.mem_filter, bne_iff_ne] at hmem
    exact ⟨hmem.1.2, hmem.2⟩

/-- Every slot but one keeps its task, and that one has no living user task. -/
theorem Conserves.of_others {changed : ℕ}
    (hnone : ∀ taskId, ¬LiveUser before.scheduler changed taskId)
    (hothers : ∀ other, other ≠ changed →
      SameTask (before.scheduler.tasks other) (after.scheduler.tasks other))
    (hipc : after.ipc = before.ipc) : Conserves none before after where
  subperm := by
    rw [hipc]
    exact (List.append_nil (letters before.ipc)).symm ▸ List.Subperm.refl _
  lives := by
    intro slot taskId hlive
    have hne : slot ≠ changed := fun heq ↦ hnone taskId (heq ▸ hlive)
    exact .inl (hlive.of_sameTask (hothers slot hne))
  sent := nofun
  delivered := nofun

theorem conserves_of_population (hready : Ready before.scheduler)
    (hring : Represents before.ipc (letters before.ipc)) (hpopulation : Population before after) :
    Conserves none before after ∧ Represents after.ipc (letters after.ipc) := by
  cases hpopulation with
  | same htasks hipc => exact ⟨.of_same htasks (hipc ▸ rfl), hipc ▸ hring⟩
  | filled slot hslot hothers hipc =>
    have hended := (hready.freeSlot_bare hslot).2.2.2.2.2
    exact ⟨.of_others (fun _ hlive ↦ hlive.state hended) hothers hipc, hipc ▸ hring⟩
  | kernelEnded slot hkernel hothers hipc =>
    refine ⟨.of_others (fun _ hlive ↦ ?_) hothers hipc, hipc ▸ hring⟩
    cases hkernel.symm.trans hlive.mode
  | userEnded hends =>
    have hid : schedulerCurrentTaskId before.scheduler = before.scheduler.current.taskId :=
      if_neg (not_le.mpr hends.lt_count)
    obtain ⟨hrep, hsublist, hunnamed⟩ := letters_retireCurrent hring (hid ▸ hends.id_ne)
    refine ⟨⟨?_, fun slot taskId hlive ↦ ?_, by simp, by simp⟩, hends.ipc ▸ hrep⟩
    · rw [hends.ipc]
      exact (List.append_nil (letters before.ipc)).symm ▸ hsublist.subperm
    · by_cases hslot : slot = before.scheduler.currentTask
      · have htaskId : schedulerCurrentTaskId before.scheduler = taskId := by
          rw [hid, ← hlive.id, hslot]
          rfl
        exact .inr (hends.ipc ▸ htaskId ▸ hunnamed)
      · exact .inl (hlive.of_sameTask (hends.others slot hslot))

/-! ### System calls -/

section

variable (hsettled : Settled before)
include hsettled

theorem Settled.resumption {frame resumed : Frame} {force : Bool}
    (hresumes : Resumption frame force before resumed after) :
    Settled after ∧ Conserves none before after := by
  obtain ⟨hconserves, hring⟩ :=
    conserves_of_population hsettled.ready hsettled.ring hresumes.population
  exact ⟨⟨hsettled.ready.resumption hresumes, hring, hsettled.current.resumption hresumes⟩,
    hconserves⟩

theorem Settled.ending {frame resumed : Frame} (hends : Ending frame before resumed after) :
    Settled after ∧ Conserves none before after := by
  obtain ⟨hconserves, hring⟩ :=
    conserves_of_population hsettled.ready hsettled.ring hends.population
  exact ⟨⟨hsettled.ready.ending hends, hring, hsettled.current.ending hends⟩, hconserves⟩

theorem Settled.adjusts {scheduler : Scheduler} (hadjusts : Adjusts before.scheduler scheduler) :
    Settled { before with scheduler := scheduler } ∧
      Conserves none before { before with scheduler := scheduler } :=
  ⟨⟨hsettled.ready.adjusts hadjusts, hsettled.ring, hsettled.current.adjusts hadjusts⟩,
    .of_same hadjusts.sameTasks rfl⟩

theorem Settled.ipcCall (call : Ipc.Call) :
    Settled { before with ipc := (Ipc.runCall call before.ipc).2 } :=
  ⟨hsettled.ready, (Ipc.runCall_refines hsettled.ring call).2.self, hsettled.current⟩

section

variable (huser : before.scheduler.current.mode = .user)
include huser

/-- A send in the name of the running task, to everyone or to a living task. -/
theorem Settled.sends {receiverId type : UInt32}
    {data : Pointer} {length : ℕ} {woken : Scheduler}
    (hreceiver : receiverId = 0 ∨ schedulerTaskIdIsActiveUser receiverId before.scheduler = true)
    (hadjusts : Adjusts before.scheduler woken) {senderId : UInt32}
    (hsender : schedulerCurrentTaskId before.scheduler = senderId)
    (hafter : after = { before with
      scheduler := woken
      ipc := (Ipc.ipcSendFromTo senderId receiverId type data length before.ipc).2 }) :
    Settled after ∧
      Conserves (traffic before.ipc (.sendFromTo senderId receiverId type data length)) before
        after := by
  subst hafter
  have hsame : SameTasks before.scheduler woken := hadjusts.sameTasks
  refine ⟨((hsettled.ipcCall (.sendFromTo senderId receiverId type data length)).adjusts
    hadjusts).1, ?_, fun slot _ hlive ↦ .inl (hlive.of_sameTask (hsame slot)),
    fun letter hsent ↦ ?_,
      fun taskId letter hdelivered ↦ ?_⟩
  · exact traffic_subperm hsettled.ring (.sendFromTo senderId receiverId type data length)
  · simp only [traffic, Option.ite_none_right_eq_some, Option.some.injEq,
      Traffic.sent.injEq] at hsent
    obtain ⟨-, rfl⟩ := hsent
    refine ⟨fun hreceiverId ↦ ?_, before.scheduler.currentTask, ?_⟩
    · obtain ⟨slot, hlive⟩ := liveUser_of_active (hreceiver.resolve_left hreceiverId)
      exact ⟨slot, hlive.of_sameTask (hsame slot)⟩
    · have hcurrent := hsettled.currentLiveUser huser
      rw [hsender] at hcurrent
      exact hcurrent.of_sameTask (hsame _)
  · simp [traffic] at hdelivered

/-- A receive for the running task. -/
theorem Settled.receives
    (buffers : Ipc.ReceiveBuffers) {taskId : UInt32}
    (htask : schedulerCurrentTaskId before.scheduler = taskId)
    (hafter : after = { before with ipc := (Ipc.ipcReceiveFor taskId buffers before.ipc).2 }) :
    Settled after ∧ Conserves (traffic before.ipc (.receiveFor taskId buffers)) before after := by
  subst hafter
  refine ⟨hsettled.ipcCall (.receiveFor taskId buffers), ?_, fun _ _ hlive ↦ .inl hlive,
    fun letter hsent ↦ ?_, fun receiverId letter hdelivered ↦ ?_⟩
  · exact traffic_subperm hsettled.ring (.receiveFor taskId buffers)
  · simp [traffic] at hsent
  · have hlive := hsettled.currentLiveUser huser
    rcases ipcReceiveFor_cases hsettled.ring taskId buffers with
      ⟨hnone, -⟩ | ⟨found, htraffic, -, hfor, hperm⟩
    · rw [hnone] at hdelivered
      cases hdelivered
    · rw [htraffic] at hdelivered
      cases hdelivered
      have hid := (hsettled.ready.sound.fits _).live_user hlive.mode hlive.state
      rw [hlive.id, htask] at hid
      simp only [Letter.isFor, Bool.or_eq_true, beq_iff_eq] at hfor
      exact ⟨hperm.mem_iff.mpr List.mem_cons_self, hfor.imp (Or.resolve_left · hid.1) id,
        htask ▸ hlive⟩

theorem SyscallOutcome.settled {call : Option Ipc.Call} (houtcome : SyscallOutcome before call after) :
    Settled after ∧ Conserves (call.bind (traffic before.ipc)) before after := by
  cases houtcome with
  | unchanged => exact ⟨hsettled, .of_same (.refl _) rfl⟩
  | yielded frame resumed _ hresumes => exact hsettled.resumption hresumes
  | ended frame resumed _ hends => exact hsettled.ending hends
  | sends receiverId type data length woken hreceiver hwoken =>
    refine hsettled.sends huser hreceiver ?_ rfl rfl
    rw [hwoken]
    split_ifs
    · exact (wakeReceivers_wakes receiverId _).adjusts
    · exact .refl _
  | receives buffers => exact hsettled.receives huser buffers rfl rfl
  | waits buffers frame resumed _ hnone hpending hresumes =>
    have htraffic : traffic before.ipc
        (.receiveFor (schedulerCurrentTaskId before.scheduler) buffers) = none := by
      simp [traffic, hnone]
    obtain ⟨hreceived, hunchanged⟩ := hsettled.receives huser buffers rfl rfl
    obtain ⟨hblocked, hslept⟩ := hreceived.adjusts (adjusts_schedulerBlockCurrent _)
    obtain ⟨hresumed, hconserves⟩ := hblocked.resumption hresumes
    rw [htraffic] at hunchanged
    rw [Option.bind_some, htraffic]
    exact ⟨hresumed, (hunchanged.trans hslept).trans hconserves⟩

end

theorem Settled.spawning {trampoline : UInt32} {spawned : Bool}
    (hspawning : Spawning trampoline before spawned after) :
    Settled after ∧ Conserves none before after := by
  cases hspawning with
  | adds entry userStackTop addressSpace scheduler hadds =>
    refine ⟨⟨hsettled.ready.addition hadds, hsettled.ring,
      hsettled.current.addition hsettled.ready hadds⟩, ?_⟩
    rcases hadds.others with hsame | ⟨slot, hslot, hothers⟩
    · exact .of_same hsame rfl
    · have hended := (hsettled.ready.freeSlot_bare hslot).2.2.2.2.2
      exact .of_others (fun _ hlive ↦ hlive.state hended)
        (fun other hne ↦ hothers other hne ▸ .refl _) rfl

end

end

/-! ### Histories -/

variable (platform : Platform M)

/-- One thing that happens, with the message it moves: a call on the scheduler, the start of a
process, a system call of a user task, or something that touches neither the scheduler nor the
queue. -/
inductive Activity : Option Traffic → Machine M → Machine M → Prop where
  | elsewhere (machine next : Machine M) (hscheduler : next.scheduler = machine.scheduler)
      (hipc : next.ipc = machine.ipc) : Activity none machine next
  | call (call : Process.Call) (reply : Process.Reply) (machine next : Machine M)
      (henabled : call.Enabled machine.scheduler)
      (hrun : perform platform call machine = .ok (reply, next)) : Activity none machine next
  | spawn (name image : Pointer) (spawned : Bool) (machine next : Machine M)
      (hrun : userProcessSpawn platform name image machine = .ok (spawned, next)) :
      Activity none machine next
  | syscall (frame resumed : Frame) (machine next : Machine M)
      (huser : machine.scheduler.current.mode = .user)
      (hrun : syscallDispatch platform frame machine = .ok (resumed, next)) :
      Activity ((syscallIpcCall platform frame machine).bind (traffic machine.ipc)) machine next

/-- A thing that happened, with the machine after it. -/
structure Occurrence (M : Type) where
  traffic : Option Traffic
  after : Machine M

/-- Everything that happened since a machine was as given, the latest first. -/
inductive History (start : Machine M) : List (Occurrence M) → Machine M → Prop where
  | start : History start [] start
  | happens {past : List (Occurrence M)} {machine next : Machine M} {traffic : Option Traffic}
      (hpast : History start past machine) (hactivity : Activity platform traffic machine next) :
      History start (⟨traffic, next⟩ :: past) next

variable {platform}

variable {traffic : Option Traffic} {next : Machine M}

theorem Activity.settled (hsettled : Settled machine)
    (hactivity : Activity platform traffic machine next) :
    Settled next ∧ Conserves traffic machine.control next.control := by
  have hcontrol : Settled machine.control := ⟨hsettled.ready, hsettled.ring, hsettled.current⟩
  have hwhole : Settled next.control ∧ Conserves traffic machine.control next.control := by
    cases hactivity with
    | elsewhere _ _ hscheduler hipc =>
      have hsame : next.control = machine.control := by
        simp only [Machine.control, hscheduler, hipc]
      rw [hsame]
      exact ⟨hcontrol, .of_same (.refl _) rfl⟩
    | call call reply _ _ henabled hrun =>
      have houtcome := perform_outcome platform call machine _ _ hrun
      obtain ⟨hconserves, hring⟩ := conserves_of_population hcontrol.ready hcontrol.ring
        (houtcome.population hcontrol.ready henabled)
      exact ⟨⟨hcontrol.ready.outcome henabled houtcome, hring,
        hcontrol.current.outcome hcontrol.ready henabled houtcome⟩, hconserves⟩
    | spawn name image spawned _ _ hrun =>
      exact hcontrol.spawning (userProcessSpawn_ensures platform name image machine _ _ hrun)
    | syscall frame resumed _ _ huser hrun =>
      exact (syscallDispatch_ensures platform frame machine _ _ hrun).settled hcontrol huser
  exact ⟨⟨hwhole.1.ready, hwhole.1.ring, hwhole.1.current⟩, hwhole.2⟩

variable {start : Machine M} {history : List (Occurrence M)}

theorem History.settled (hstart : Settled start)
    (hhistory : History platform start history machine) :
    Settled machine := by
  induction hhistory with
  | start => exact hstart
  | happens hpast hactivity ih => exact (hactivity.settled ih).1

/-- The machine after what happened last. -/
def machineAfter (start : Machine M) : List (Occurrence M) → Machine M
  | [] => start
  | latest :: _ => latest.after

theorem History.machine_eq (hhistory : History platform start history machine) :
    machineAfter start history = machine := by
  cases hhistory <;> rfl

def sentIn (history : List (Occurrence M)) : List Letter :=
  history.flatMap fun occurrence ↦ Traffic.sentLetters occurrence.traffic

def deliveredIn (history : List (Occurrence M)) : List Letter :=
  history.flatMap fun occurrence ↦ Traffic.deliveredLetters occurrence.traffic

/-- What was delivered and what is still queued was sent, as often. -/
theorem History.subperm (hstart : Settled start) (hempty : letters start.ipc = [])
    (hhistory : History platform start history machine) :
    (deliveredIn history ++ letters machine.ipc).Subperm (sentIn history) := by
  induction hhistory with
  | start =>
    rw [hempty]
    exact List.Subperm.refl _
  | @happens past machine next traffic hpast hactivity ih =>
    have hconserves := (hactivity.settled (hpast.settled hstart)).2.subperm
    have hmoved :
      (deliveredIn past ++ (Traffic.deliveredLetters traffic ++ letters next.ipc)).Subperm
        (deliveredIn past ++ (letters machine.ipc ++ Traffic.sentLetters traffic)) :=
      (List.subperm_append_left _).mpr hconserves
    have hgrown : ((deliveredIn past ++ letters machine.ipc) ++ Traffic.sentLetters traffic).Subperm
        (sentIn past ++ Traffic.sentLetters traffic) :=
      (List.subperm_append_right _).mpr ih
    have hdelivered : (deliveredIn (⟨traffic, next⟩ :: past) ++ letters next.ipc).Perm
        (deliveredIn past ++ (Traffic.deliveredLetters traffic ++ letters next.ipc)) := by
      rw [deliveredIn, List.flatMap_cons, ← List.append_assoc]
      exact List.perm_append_comm.append_right _
    have hsent : (sentIn past ++ Traffic.sentLetters traffic).Perm
        (sentIn (⟨traffic, next⟩ :: past)) := by
      exact List.perm_append_comm
    rw [List.append_assoc] at hgrown
    exact hdelivered.subperm.trans ((hmoved.trans hgrown).trans hsent.subperm)

/-- A user task that lives, in one slot, and did so after each of the things that happened. -/
def LivesThrough (occurrences : List (Occurrence M)) (machine : Machine M)
    (taskId : UInt32) : Prop :=
  ∃ slot, LiveUser machine.scheduler slot taskId ∧
    ∀ occurrence ∈ occurrences, LiveUser occurrence.after.scheduler slot taskId

/-- A message was sent, and since then the tasks it names have lived. -/
def SentAlive (history : List (Occurrence M)) (machine : Machine M) (letter : Letter) : Prop :=
  ∃ recent sending older, history = recent ++ sending :: older ∧
    sending.traffic = some (.sent letter) ∧
    (letter.receiver ≠ 0 → LivesThrough (recent ++ [sending]) machine letter.receiver) ∧
    LivesThrough (recent ++ [sending]) machine letter.sender

theorem LivesThrough.happens {occurrences : List (Occurrence M)}
    (hconserves : Conserves traffic machine.control next.control) {letter : Letter}
    (hmem : letter ∈ letters next.ipc) (hnamed : letter.receiver = taskId ∨ letter.sender = taskId)
    (hlives : LivesThrough occurrences machine taskId) :
    LivesThrough (⟨traffic, next⟩ :: occurrences) next taskId := by
  obtain ⟨slot, hlive, hthrough⟩ := hlives
  rcases hconserves.lives slot taskId hlive with hnext | hunnamed
  · exact ⟨slot, hnext, List.forall_mem_cons.mpr ⟨hnext, hthrough⟩⟩
  · obtain ⟨hreceiver, hsender⟩ := hunnamed letter hmem
    exact (hnamed.elim hreceiver hsender).elim

theorem livesThrough_now (hlive : ∃ slot, LiveUser next.scheduler slot taskId) :
    LivesThrough [⟨traffic, next⟩] next taskId := by
  obtain ⟨slot, hlive⟩ := hlive
  exact ⟨slot, hlive, List.forall_mem_singleton.mpr hlive⟩

theorem History.sentAlive (hstart : Settled start) (hempty : letters start.ipc = [])
    (hhistory : History platform start history machine) :
    ∀ letter ∈ letters machine.ipc, SentAlive history machine letter := by
  induction hhistory with
  | start =>
    rw [hempty]
    exact List.forall_mem_nil _
  | @happens past machine next traffic hpast hactivity ih =>
    have hconserves := (hactivity.settled (hpast.settled hstart)).2
    intro letter hmem
    have hbefore := hconserves.subperm.subset (List.mem_append_right _ hmem)
    rcases List.mem_append.mp hbefore with hold | hnew
    · obtain ⟨recent, sending, older, rfl, hsending, hreceiver, hsender⟩ := ih letter hold
      refine ⟨⟨traffic, next⟩ :: recent, sending, older, rfl, hsending, fun hne ↦ ?_, ?_⟩
      · exact (hreceiver hne).happens hconserves hmem (.inl rfl)
      · exact hsender.happens hconserves hmem (.inr rfl)
    · have htraffic : traffic = some (.sent letter) := by
        unfold Traffic.sentLetters at hnew
        split at hnew
        · rw [List.mem_singleton.mp hnew]
        · cases hnew
      obtain ⟨hreceiver, hsender⟩ := hconserves.sent letter htraffic
      exact ⟨[], ⟨traffic, next⟩, past, rfl, htraffic, fun hne ↦ livesThrough_now (hreceiver hne),
        livesThrough_now hsender⟩

/-- Over any history from boot: every queued message is to everyone or to a living user task, and is
from a living one; what was delivered, with what is queued, was sent, as often; and what a task
receives was sent before, to everyone or to its own id, with the task alive in its slot ever since.
-/
theorem messages_stay_with_their_tasks (platform : Platform M) {kernelDirectory : UInt32}
    {start machine : Machine M} {history : List (Occurrence M)}
    (hinit : start.scheduler = schedulerInit kernelDirectory) (hqueue : Represents start.ipc [])
    (hhistory : History platform start history machine) :
    (∀ letter ∈ letters machine.ipc,
      (letter.receiver ≠ 0 → ∃ slot, LiveUser machine.scheduler slot letter.receiver) ∧
      (letter.sender ≠ 0 → ∃ slot, LiveUser machine.scheduler slot letter.sender)) ∧
    (deliveredIn history ++ letters machine.ipc).Subperm (sentIn history) ∧
    (∀ taskId letter after past, history = ⟨some (.delivered taskId letter), after⟩ :: past →
      ∃ recent sending older, past = recent ++ sending :: older ∧
        sending.traffic = some (.sent letter) ∧
        (letter.receiver = 0 ∨ letter.receiver = taskId ∧
          ∀ occurrence ∈ recent ++ [sending], LiveUser occurrence.after.scheduler
            (machineAfter start past).scheduler.currentTask taskId)) := by
  have hstart : Settled start := by
    refine ⟨hinit ▸ ready_schedulerInit kernelDirectory, hqueue.self, fun huser ↦ ?_⟩
    rw [hinit] at huser
    cases huser
  refine ⟨fun letter hmem ↦ ?_, hhistory.subperm hstart hqueue.letters_eq, ?_⟩
  · obtain ⟨recent, sending, older, -, -, hreceiver, hsender⟩ :=
      hhistory.sentAlive hstart hqueue.letters_eq letter hmem
    refine ⟨fun hne ↦ ?_, fun _ ↦ ?_⟩
    · obtain ⟨slot, hlive, -⟩ := hreceiver hne
      exact ⟨slot, hlive⟩
    · obtain ⟨slot, hlive, -⟩ := hsender
      exact ⟨slot, hlive⟩
  · rintro taskId letter after past rfl
    cases hhistory with
    | @happens _ before _ _ hpast hactivity =>
      have hsettled := hpast.settled hstart
      obtain ⟨hmem, hfor, hcurrent⟩ :=
        (hactivity.settled hsettled).2.delivered taskId letter rfl
      obtain ⟨recent, sending, older, hpastEq, hsending, hreceiver, -⟩ :=
        hpast.sentAlive hstart hqueue.letters_eq letter hmem
      refine ⟨recent, sending, older, hpastEq, hsending, ?_⟩
      by_cases hopen : letter.receiver = 0
      · exact .inl hopen
      · have hid := hfor.resolve_left hopen
        obtain ⟨slot, hlive, hthrough⟩ := hreceiver hopen
        rw [hid] at hlive hthrough
        have hslot : slot = before.scheduler.currentTask :=
          hlive.slot_eq hsettled.ready.sound hcurrent
        rw [hpast.machine_eq, ← hslot]
        exact .inr ⟨hid, hthrough⟩

/-! ### A task that writes to itself

On a platform that grants everything one process is started and the timer gives it the processor. -/

def spawnDemo : KernelProgram Unit Bool :=
  userProcessSpawn obligingPlatform (some (CString.ascii "demo")) (some [1])

def addShell : KernelProgram Unit Bool :=
  schedulerAddTask obligingPlatform (some (CString.ascii "shell")) 0x00101000

def shellMachine : Machine Unit := after addShell (after spawnDemo bootMachine)

def startedMachine : Machine Unit :=
  { shellMachine with scheduler := schedulerStart shellMachine.scheduler }

/-- A user frame that asks for `IPC_RECEIVE_WAIT`. -/
def waitFrame : Frame :=
  { (default : Frame) with
    cs := 0x1B, ds := 0x23, es := 0x23, fs := 0x23, gs := 0x23, eflags := 0x202
    userStackPointer := 0x00802000, userStackSelector := 0x23, eax := syscallIpcReceiveWait }

def runningMachine : Machine Unit :=
  after (schedulerOnTimer obligingPlatform waitFrame) startedMachine

/-- A user frame that asks for `IPC_SEND_TO`, to the first task of the first slot. -/
def sendToFrame : Frame :=
  { waitFrame with eax := syscallIpcSendTo, ebx := 0x101, esi := 7 }

def sentMachine : Machine Unit :=
  after (syscallDispatch obligingPlatform sendToFrame) runningMachine

def receivedMachine : Machine Unit := after (syscallDispatch obligingPlatform waitFrame) sentMachine

theorem perform_eq_map {α : Type} {call : Process.Call} {program : KernelProgram Unit α}
    {reply : α → Process.Reply} (hcall : perform obligingPlatform call = reply <$> program)
    {machine next : Machine Unit} {value : α} (hrun : program machine = .ok (value, next)) :
    perform obligingPlatform call machine = .ok (reply value, next) := by
  rw [hcall]
  change (program machine).map _ = _
  rw [hrun]
  rfl

theorem messages_stay_with_their_tasks_own :
    ∃ history, History obligingPlatform bootMachine history receivedMachine ∧
      deliveredIn history = [⟨0x101, 0x101, 7, []⟩] ∧
      (deliveredIn history ++ letters receivedMachine.ipc).Subperm (sentIn history) := by
  obtain ⟨spawned, hspawn⟩ := run_eq_after spawnDemo bootMachine (by decide +kernel)
  obtain ⟨added, hadd⟩ := run_eq_after addShell (after spawnDemo bootMachine) (by decide +kernel)
  obtain ⟨first, htimer⟩ := run_eq_after (schedulerOnTimer obligingPlatform waitFrame)
    startedMachine (by decide +kernel)
  obtain ⟨second, hsend⟩ := run_eq_after (syscallDispatch obligingPlatform sendToFrame)
    runningMachine (by decide +kernel)
  obtain ⟨third, hreceive⟩ := run_eq_after (syscallDispatch obligingPlatform waitFrame)
    sentMachine (by decide +kernel)
  have hadded : perform obligingPlatform
      (.addTask (some (CString.ascii "shell")) 0x00101000) (after spawnDemo bootMachine) =
        .ok (.done added, shellMachine) := perform_eq_map rfl hadd
  have hstarted : perform obligingPlatform .start shellMachine =
      .ok (.nothing, startedMachine) := rfl
  have hswitched : perform obligingPlatform (.onTimer waitFrame) startedMachine =
      .ok (.resumed first, runningMachine) := perform_eq_map rfl htimer
  have hboot : History obligingPlatform bootMachine [] bootMachine := .start
  have hrunning := (((hboot.happens (.spawn _ _ _ _ _ hspawn)).happens
    (.call _ _ _ _ (by trivial) hadded)).happens (.call _ _ _ _ (by trivial) hstarted)).happens
    (.call _ _ _ _ (by trivial) hswitched)
  have hhistory := (hrunning.happens (.syscall _ _ _ _ (by decide +kernel) hsend)).happens
    (.syscall _ _ _ _ (by decide +kernel) hreceive)
  refine ⟨_, hhistory, by decide +kernel, ?_⟩
  have hinit : bootMachine.scheduler = schedulerInit 0x1000 := rfl
  exact (messages_stay_with_their_tasks obligingPlatform hinit (Ipc.represents_ipcInit _)
    hhistory).2.1

end EfesOS.Kernel
