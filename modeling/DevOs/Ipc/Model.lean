import DevOs.Lib.Runs
import Mathlib.Algebra.Order.Ring.Nat
import Mathlib.Logic.Function.Basic
import Mathlib.Tactic.Common

/-!
# Message queues of the kernel's inter-process communication

One client owns a queue of `MaxMessages` slots. Any number of `IpcSendMessage` calls post into it
and one receiver alternates `IpcGetMessage` and `IpcMessageDispatch`. Every call is a program with
an explicit control state, and one action runs one atomic step of one of them, so the lists of
actions are exactly the interleavings of the calls.

Counters are the unsigned machine counters of `MSG_QUEUE`, reduced at their width. The hint value
`(UINT32)-1` of `PossibleNextMessage` is `none`, and so is a null pointer.
-/

namespace DevOs.Ipc

/-- `MSG`, the part of a message that the receiver gets a copy of. -/
structure Msg where
  message : ℕ
  data : ℕ
  numBytes : ℕ
deriving DecidableEq, Repr

/-- `MSG_HEADER`. Clients and servers are named by numbers, and `status` is the call whose local
`SyncStatus` the pointer designates. -/
structure MsgHeader where
  set : Bool
  pending : Bool
  messageId : ℕ
  source : Option ℕ
  server : Option ℕ
  destination : Option ℕ
  status : Option ℕ
deriving DecidableEq, Repr

structure MsgObject where
  header : MsgHeader
  body : Msg
deriving DecidableEq, Repr

/-- The arguments of one `IpcSendMessage` call. `server` is `Source->Server` when the source is a
server client. -/
structure SendCall where
  source : ℕ
  server : Option ℕ
  async : Bool
  body : Msg
deriving DecidableEq, Repr

/-- Where an `IpcSendMessage` call stands. The argument is the slot index `i`. -/
inductive SendPc where
  | start
  | scan (i : ℕ)
  | claim (i : ℕ)
  | lock (i : ℕ)
  | takeId (i : ℕ)
  | count (i : ℕ)
  | fill (i : ℕ)
  | pend (i : ℕ)
  | hint (i : ℕ)
  | wait (i : ℕ)
  | returned (status : ℕ)
deriving DecidableEq, Repr

/-- Where the receiver stands: `enter` to `select` belong to `IpcGetMessage`, `dispatch` to
`decPending` to `IpcMessageDispatch`. -/
inductive RecvPc where
  | enter
  | testEmpty
  | lockReset
  | reset
  | waitPending
  | select
  | dispatch
  | clearPending (i : ℕ)
  | clearSet (i : ℕ)
  | clearCurrent
  | incLeast
  | decPending
deriving DecidableEq, Repr

/-- What happened so far. It is written by the steps and never read by them: the slot each call
claimed, the call that claimed each slot last, the order in which calls took their `MessageId`, the
dispatched calls and the bodies that `IpcGetMessage` returned. -/
structure History where
  slotOf : ℕ → Option ℕ
  holder : ℕ → Option ℕ
  tickets : ℕ
  ticket : ℕ → Option ℕ
  dispatched : ℕ → Bool
  delivered : List (ℕ × Msg)

/-- The destination client with its queue, and the calls running on it. -/
structure State where
  maxMessages : ℕ
  pendingMessages : ℕ
  lastId : ℕ
  leastId : ℕ
  possibleNextMessage : Option ℕ
  messages : ℕ → MsgObject
  accessLocked : Bool
  currentMessage : Option ℕ
  senders : ℕ → SendPc
  receiver : RecvPc
  syncStatus : ℕ → ℕ
  history : History

def syncIncrement32 (n : ℕ) : ℕ := (n + 1) % 2 ^ 32

def syncDecrement32 (n : ℕ) : ℕ := (n + (2 ^ 32 - 1)) % 2 ^ 32

/-- The increment of a `UINT64` counter. -/
def increment64 (n : ℕ) : ℕ := (n + 1) % 2 ^ 64

inductive Action where
  | send (k : ℕ)
  | receive
  | setStatus (v : ℕ)
deriving DecidableEq, Repr

def kernelSok : ℕ := 0

def kernelSokNoStatus : ℕ := 1

namespace State

def header (s : State) (i : ℕ) : MsgHeader := (s.messages i).header

def setPc (s : State) (k : ℕ) (pc : SendPc) : State :=
  { s with senders := Function.update s.senders k pc }

def setMessage (s : State) (i : ℕ) (m : MsgObject) : State :=
  { s with messages := Function.update s.messages i m }

def setHeader (s : State) (i : ℕ) (h : MsgHeader) : State :=
  s.setMessage i { s.messages i with header := h }

theorem messages_setMessage (s : State) (i j : ℕ) (m : MsgObject) :
    (s.setMessage i m).messages j = if j = i then m else s.messages j := by
  simp only [setMessage, Function.update_apply]

theorem header_setHeader (s : State) (i j : ℕ) (h : MsgHeader) :
    (s.setHeader i h).header j = if j = i then h else s.header j := by
  rw [header, setHeader, messages_setMessage]
  split_ifs <;> rfl

theorem body_setHeader (s : State) (i j : ℕ) (h : MsgHeader) :
    ((s.setHeader i h).messages j).body = (s.messages j).body := by
  rw [setHeader, messages_setMessage]
  split_ifs with hj
  · rw [hj]
  · rfl

end State

/-- The queue as `IpcClientCreate` leaves it: zeroed, with no hint. -/
def initial (maxMessages : ℕ) : State where
  maxMessages := maxMessages
  pendingMessages := 0
  lastId := 0
  leastId := 0
  possibleNextMessage := none
  messages := fun _ => ⟨⟨false, false, 0, none, none, none, none⟩, ⟨0, 0, 0⟩⟩
  accessLocked := false
  currentMessage := none
  senders := fun _ => .start
  receiver := .enter
  syncStatus := fun _ => kernelSokNoStatus
  history := ⟨fun _ => none, fun _ => none, 0, fun _ => none, fun _ => false, []⟩

/-- The body and header that `IpcSendMessage` writes. `Status` is left alone by an asynchronous
send, `Server` by an ordinary source and `Source` by a server client. -/
def fillMessage (dest k : ℕ) (c : SendCall) (m : MsgObject) : MsgObject :=
  { body := c.body
    header := { m.header with
      status := if c.async then m.header.status else some k
      server := match c.server with | some v => some v | none => m.header.server
      source := match c.server with | some _ => m.header.source | none => some c.source
      destination := some dest } }

/-- The state after the test-and-set of the call `k` took the free slot `i`. -/
def claimSlot (s : State) (k i : ℕ) : State :=
  { (s.setHeader i { s.header i with set := true }).setPc k (.lock i) with
    history := { s.history with
      slotOf := Function.update s.history.slotOf k (some i)
      holder := Function.update s.history.holder i (some k) } }

theorem header_claimSlot (s : State) (k i j : ℕ) : (claimSlot s k i).header j =
    if j = i then { s.header i with set := true } else s.header j := by
  change (s.setHeader i _).header j = _
  rw [State.header_setHeader]

theorem senders_claimSlot (s : State) (k i k' : ℕ) :
    (claimSlot s k i).senders k' = if k' = k then .lock i else s.senders k' :=
  Function.update_apply ..

/-- One step of the `IpcSendMessage` call `k` to the client `dest`. -/
def ipcSendMessage (dest : ℕ) (calls : ℕ → SendCall) (s : State) (k : ℕ) : Option State :=
  match s.senders k with
  | .start =>
    if s.pendingMessages = s.maxMessages then some s else some (s.setPc k (.scan 0))
  | .scan i =>
    if i < s.maxMessages then
      if (s.header i).set then some (s.setPc k (.scan (i + 1))) else some (s.setPc k (.claim i))
    else some (s.setPc k .start)
  | .claim i =>
    if (s.header i).set then some (s.setPc k (.scan (i + 1))) else some (claimSlot s k i)
  | .lock i =>
    if s.accessLocked then some s
    else some { s.setPc k (.takeId i) with accessLocked := true }
  | .takeId i =>
    some
      { (s.setHeader i { s.header i with messageId := s.lastId }).setPc k (.count i) with
        lastId := increment64 s.lastId
        accessLocked := false
        history := { s.history with
          tickets := s.history.tickets + 1
          ticket := Function.update s.history.ticket k (some s.history.tickets) } }
  | .count i =>
    some { s.setPc k (.fill i) with pendingMessages := syncIncrement32 s.pendingMessages }
  | .fill i =>
      some ((s.setMessage i (fillMessage dest k (calls k) (s.messages i))).setPc k (.pend i))
  | .pend i => some ((s.setHeader i { s.header i with pending := true }).setPc k (.hint i))
  | .hint i =>
    some
      { s.setPc k (if (calls k).async then .returned kernelSok else .wait i) with
        possibleNextMessage :=
          if (s.header i).messageId = s.leastId then some i else s.possibleNextMessage }
  | .wait i =>
    if (s.header i).pending then some s else some (s.setPc k (.returned (s.syncStatus k)))
  | .returned _ => none

/-- The first slot at or after `i` that is pending, among the next `n` ones. -/
def firstPending (s : State) : ℕ → ℕ → Option ℕ
  | _, 0 => none
  | i, n + 1 => if (s.header i).pending then some i else firstPending s (i + 1) n

/-- The slot the hint designates, when it holds the message with the least id. -/
def hinted (s : State) : Option ℕ :=
  match s.possibleNextMessage with
  | some i => if (s.header i).pending ∧ (s.header i).messageId = s.leastId then some i else none
  | none => none

/-- The selection of `IpcGetMessage`: the hint, or else the first pending slot whatever its id, the
tests of `MessageId` after that `break` being unreachable. -/
def selectedMessage (s : State) : Option ℕ :=
  match hinted s with
  | some i => some i
  | none => firstPending s 0 s.maxMessages

theorem firstPending_some {s : State} {i n j : ℕ} (h : firstPending s i n = some j) :
    i ≤ j ∧ j < i + n ∧ (s.header j).pending = true ∧
      ∀ l, i ≤ l → l < j → (s.header l).pending = false := by
  induction n generalizing i with
  | zero => cases h
  | succ n ih =>
    rw [firstPending] at h
    split_ifs at h with hp
    · cases h
      exact ⟨Nat.le_refl _, by omega, hp, fun l _ _ => by omega⟩
    · obtain ⟨hle, hlt, hj, hbelow⟩ := ih h
      refine ⟨by omega, by omega, hj, ?_⟩
      intro l hil hlj
      by_cases he : l = i
      · rw [he]
        exact Bool.eq_false_iff.mpr hp
      · exact hbelow l (by omega) hlj

theorem firstPending_none {s : State} {i n : ℕ} (h : firstPending s i n = none) (l : ℕ)
    (hi : i ≤ l) (hl : l < i + n) : (s.header l).pending = false := by
  induction n generalizing i with
  | zero => omega
  | succ n ih =>
    rw [firstPending] at h
    split_ifs at h with hp
    by_cases he : l = i
    · rw [he]
      exact Bool.eq_false_iff.mpr hp
    · exact ih h (by omega) (by omega)

theorem hinted_some {s : State} {i : ℕ} (h : hinted s = some i) :
    (s.header i).pending = true ∧ (s.header i).messageId = s.leastId := by
  rw [hinted] at h
  split at h
  · split_ifs at h with hp
    cases h
    exact hp
  · cases h

theorem selectedMessage_pending {s : State} {i : ℕ} (h : selectedMessage s = some i) :
    (s.header i).pending = true := by
  rw [selectedMessage] at h
  split at h
  · rename_i hh
    cases h
    exact (hinted_some hh).1
  · exact (firstPending_some h).2.2.1

theorem selectedMessage_none {s : State} (h : selectedMessage s = none) (l : ℕ)
    (hl : l < s.maxMessages) : (s.header l).pending = false := by
  rw [selectedMessage] at h
  split at h
  · cases h
  · exact firstPending_none h l (Nat.zero_le l) (by omega)

/-- Hands the slot `i` to the receiver. -/
def acquire (s : State) (i : ℕ) : State :=
  { s with
    possibleNextMessage := none
    currentMessage := some i
    receiver := .dispatch
    history := { s.history with
      delivered := s.history.delivered ++
        ((s.history.holder i).map (fun k => (k, (s.messages i).body))).toList } }

/-- Clears `Header.Pending` of the slot `i`. -/
def unpendSlot (s : State) (i : ℕ) : State :=
  { s.setHeader i { s.header i with pending := false } with receiver := .clearSet i }

theorem header_unpendSlot (s : State) (i j : ℕ) : (unpendSlot s i).header j =
    if j = i then { s.header i with pending := false } else s.header j := by
  change (s.setHeader i _).header j = _
  rw [State.header_setHeader]

/-- Releases the slot `i`. -/
def releaseSlot (s : State) (i : ℕ) : State :=
  { s.setHeader i { s.header i with set := false } with
    receiver := .clearCurrent
    history := { s.history with
      dispatched := match s.history.holder i with
        | some k => Function.update s.history.dispatched k true
        | none => s.history.dispatched } }

theorem header_releaseSlot (s : State) (i j : ℕ) : (releaseSlot s i).header j =
    if j = i then { s.header i with set := false } else s.header j := by
  change (s.setHeader i _).header j = _
  rw [State.header_setHeader]

theorem dispatched_releaseSlot {s : State} {k i : ℕ} (h : s.history.holder i = some k) (k' : ℕ) :
    (releaseSlot s i).history.dispatched k' =
      if k' = k then true else s.history.dispatched k' := by
  simp only [releaseSlot, h]
  exact Function.update_apply ..

/-- One step of the receiver. The thread that `IpcMessageDispatch` reads from `Header.Source`, in
the mapped page at address zero when that is null, is resumed at its end and is not part of the
queue. -/
def ipcReceive (s : State) : Option State :=
  match s.receiver with
  | .enter =>
    if s.currentMessage.isSome then some { s with receiver := .dispatch }
    else some { s with receiver := .testEmpty }
  | .testEmpty =>
    if s.pendingMessages = 0 then some { s with receiver := .lockReset }
    else some { s with receiver := .waitPending }
  | .lockReset =>
    if s.accessLocked then some { s with receiver := .waitPending }
    else some { s with receiver := .reset, accessLocked := true }
  | .reset =>
    some { s with receiver := .waitPending, accessLocked := false, lastId := 0, leastId := 0 }
  | .waitPending => if s.pendingMessages = 0 then some s else some { s with receiver := .select }
  | .select =>
    match selectedMessage s with
    | some i => some (acquire s i)
    | none => some { s with possibleNextMessage := none, receiver := .testEmpty }
  | .dispatch =>
    match s.currentMessage with
    | none => some { s with receiver := .enter }
    | some i =>
      if s.pendingMessages = 0 then some { s with receiver := .enter }
      else some { s with receiver := .clearPending i }
  | .clearPending i => some (unpendSlot s i)
  | .clearSet i => some (releaseSlot s i)
  | .clearCurrent => some { s with currentMessage := none, receiver := .incLeast }
  | .incLeast => some { s with leastId := increment64 s.leastId, receiver := .decPending }
  | .decPending =>
    some { s with pendingMessages := syncDecrement32 s.pendingMessages, receiver := .enter }

/-- `IpcSetStatus`, called by the receiver between its two other calls. It spins while there is no
current message. -/
def ipcSetStatus (s : State) (v : ℕ) : Option State :=
  match s.receiver, s.currentMessage with
  | .dispatch, some i =>
    if s.pendingMessages = 0 then some s
    else match (s.header i).status with
      | some k => some { s with syncStatus := Function.update s.syncStatus k v }
      | none => some s
  | .dispatch, none => some s
  | _, _ => none

def step (dest : ℕ) (calls : ℕ → SendCall) (s : State) : Action → Option State
  | .send k => ipcSendMessage dest calls s k
  | .receive => ipcReceive s
  | .setStatus v => ipcSetStatus s v

end DevOs.Ipc
