import DevOs.Ipc.Model

/-!
# Who owns a slot

A call owns a slot from the moment its test-and-set of `Header.Set` succeeds until the receiver
clears that flag. `Owned` collects what holds of slots, calls and receiver between any two steps:
every set slot has exactly one owner, the owner's body stays in the slot once it is pending, and
the slot in the hands of the receiver is one that its owner has filled.
-/

namespace DevOs.Ipc

/-- A call has no slot yet, is filling its slot, or has made it pending. -/
inductive Stage where
  | early
  | filling (i : ℕ)
  | posted
deriving DecidableEq, Repr

def SendPc.stage : SendPc → Stage
  | .start | .scan _ | .claim _ => .early
  | .lock i | .takeId i | .count i | .fill i | .pend i => .filling i
  | .hint _ | .wait _ | .returned _ => .posted

/-- The call `k` has claimed the slot `i` and has not been dispatched. -/
def Owns (s : State) (k i : ℕ) : Prop :=
  s.history.slotOf k = some i ∧ s.history.dispatched k = false

def activeSlot (s : State) : Option ℕ :=
  match s.receiver with
  | .enter | .dispatch | .clearPending _ | .clearSet _ => s.currentMessage
  | _ => none

/-- The slot named by the control state of `IpcMessageDispatch`. -/
def RecvPc.slot : RecvPc → Option ℕ
  | .clearPending i | .clearSet i => some i
  | _ => none

def RecvPc.empty : RecvPc → Bool
  | .testEmpty | .lockReset | .reset | .waitPending | .select | .incLeast | .decPending => true
  | _ => false

/-- What holds of one call. A posted message keeps its body until it is dispatched, and stays
pending until the receiver clears the flag on its way to releasing the slot. -/
structure CallOk (calls : ℕ → SendCall) (s : State) (k : ℕ) : Prop where
  claim_lt : ∀ i, s.senders k = .claim i → i < s.maxMessages
  early : (s.senders k).stage = .early →
    s.history.slotOf k = none ∧ s.history.dispatched k = false
  filling : ∀ i, (s.senders k).stage = .filling i → Owns s k i ∧ (s.header i).pending = false
  pend : ∀ i, s.senders k = .pend i → (s.messages i).body = (calls k).body
  posted : (s.senders k).stage = .posted → ∃ i, s.history.slotOf k = some i
  body : (s.senders k).stage = .posted → ∀ i, Owns s k i → (s.messages i).body = (calls k).body
  pending : (s.senders k).stage = .posted → ∀ i, Owns s k i →
    (s.header i).pending = true ∨ s.receiver = .clearSet i

/-- What holds of slots, calls and receiver between two steps. -/
structure Owned (calls : ℕ → SendCall) (s : State) : Prop where
  call : ∀ k, CallOk calls s k
  owner : ∀ k i, Owns s k i →
    i < s.maxMessages ∧ (s.header i).set = true ∧ s.history.holder i = some k
  owned : ∀ i, (s.header i).set = true → ∃ k, Owns s k i
  set_of_pending : ∀ i, (s.header i).pending = true → (s.header i).set = true
  active : ∀ i, activeSlot s = some i → ∃ k, Owns s k i ∧ (s.senders k).stage = .posted
  slot_current : ∀ i, s.receiver.slot = some i → s.currentMessage = some i
  cleared : ∀ i, s.receiver = .clearSet i → (s.header i).pending = false
  empty_current : s.receiver.empty = true → s.currentMessage = none

theorem owned_initial (calls : ℕ → SendCall) (n : ℕ) : Owned calls (initial n) := by
  constructor
  · intro k
    constructor <;> simp [initial, SendPc.stage]
  all_goals simp [initial, Owns, State.header, activeSlot, RecvPc.slot]

variable {dest : ℕ} {calls : ℕ → SendCall} {s t : State} {k : ℕ}

theorem Owned.owns_unique (h : Owned calls s) {k k' i : ℕ} (hk : Owns s k i) (hk' : Owns s k' i) :
    k = k' := by
  have he := (h.owner k i hk).2.2
  rw [(h.owner k' i hk').2.2] at he
  exact (Option.some.inj he).symm

theorem CallOk.stage_of_owns (h : CallOk calls s k) {i : ℕ} (hk : Owns s k i) :
    (s.senders k).stage = .filling i ∨ (s.senders k).stage = .posted := by
  cases hst : (s.senders k).stage with
  | early =>
    have hk1 := hk.1
    rw [(h.early hst).1] at hk1
    cases hk1
  | filling j =>
    have hj := (h.filling j hst).1.1
    rw [hk.1] at hj
    exact Or.inl (by rw [Option.some.inj hj])
  | posted => exact Or.inr rfl

/-- A call is not affected by steps that leave its control state and its slot alone. -/
theorem CallOk.frame (h : CallOk calls s k) (hmax : t.maxMessages = s.maxMessages)
    (hpc : t.senders k = s.senders k) (hslot : t.history.slotOf k = s.history.slotOf k)
    (hdone : t.history.dispatched k = s.history.dispatched k)
    (hmsg : ∀ i, Owns s k i → t.messages i = s.messages i)
    (hrecv : ∀ i, Owns s k i → s.receiver = .clearSet i → t.receiver = .clearSet i) :
    CallOk calls t k := by
  have howns (i : ℕ) : Owns t k i ↔ Owns s k i := by rw [Owns, Owns, hslot, hdone]
  constructor
  · intro i hi
    rw [hmax]
    exact h.claim_lt i (hpc ▸ hi)
  · intro hst
    rw [hslot, hdone]
    exact h.early (hpc ▸ hst)
  · intro i hst
    obtain ⟨hk, hp⟩ := h.filling i (hpc ▸ hst)
    exact ⟨(howns i).mpr hk, by rw [State.header, hmsg i hk]; exact hp⟩
  · intro i hi
    have hi' := hpc ▸ hi
    rw [hmsg i (h.filling i (by rw [hi']; rfl)).1]
    exact h.pend i hi'
  · intro hst
    rw [hslot]
    exact h.posted (hpc ▸ hst)
  · intro hst i hk
    rw [hmsg i ((howns i).mp hk)]
    exact h.body (hpc ▸ hst) i ((howns i).mp hk)
  · intro hst i hk
    have hk' := (howns i).mp hk
    rcases h.pending (hpc ▸ hst) i hk' with hp | hr
    · exact Or.inl (by rw [State.header, hmsg i hk']; exact hp)
    · exact Or.inr (hrecv i hk' hr)

/-- What every step of a call but a successful test-and-set leaves alone. -/
structure SendFrame (s t : State) (k : ℕ) : Prop where
  max : t.maxMessages = s.maxMessages
  receiver : t.receiver = s.receiver
  current : t.currentMessage = s.currentMessage
  slotOf : t.history.slotOf = s.history.slotOf
  holder : t.history.holder = s.history.holder
  dispatched : t.history.dispatched = s.history.dispatched
  delivered : t.history.delivered = s.history.delivered
  others : ∀ k', k' ≠ k → t.senders k' = s.senders k'
  set : ∀ i, (t.header i).set = (s.header i).set
  messages : ∀ i, (s.senders k).stage ≠ .filling i → t.messages i = s.messages i

theorem SendFrame.owns (h : SendFrame s t k) (k' i : ℕ) : Owns t k' i ↔ Owns s k' i := by
  rw [Owns, Owns, h.slotOf, h.dispatched]

theorem sendFrame_setPc (s : State) (k : ℕ) (pc : SendPc) : SendFrame s (s.setPc k pc) k :=
  ⟨rfl, rfl, rfl, rfl, rfl, rfl, rfl, fun _ hk => Function.update_of_ne hk _ _, fun _ => rfl,
    fun _ _ => rfl⟩

/-- A call that fills its slot keeps the flag `Set` of every slot and the other slots. -/
theorem sendFrame_setMessage {i : ℕ} {m : MsgObject} (pc : SendPc)
    (hst : (s.senders k).stage = .filling i) (hm : m.header.set = (s.header i).set) :
    SendFrame s ((s.setMessage i m).setPc k pc) k := by
  refine ⟨rfl, rfl, rfl, rfl, rfl, rfl, rfl, fun _ hk => Function.update_of_ne hk _ _, ?_, ?_⟩
  · intro j
    change ((s.setMessage i m).messages j).header.set = _
    rw [State.messages_setMessage]
    split_ifs with hj
    · rw [hm, hj]
    · rfl
  · intro j hj
    change (s.setMessage i m).messages j = _
    rw [State.messages_setMessage, if_neg]
    rintro rfl
    exact hj hst

def SendPc.waits : SendPc → Bool
  | .start | .lock _ | .wait _ => true
  | _ => false

/-- What one step of the `IpcSendMessage` call `k` does, with what it finds where it stands. -/
inductive SendStep (dest : ℕ) (calls : ℕ → SendCall) (s : State) (k : ℕ) : State → Prop
  | spin (hpc : (s.senders k).waits = true) : SendStep dest calls s k s
  | search (pc : SendPc) (hpc : (s.senders k).stage = .early) (hpc' : pc.stage = .early)
      (hlt : ∀ i, pc = .claim i → i < s.maxMessages) : SendStep dest calls s k (s.setPc k pc)
  | claim (i : ℕ) (hpc : s.senders k = .claim i) (hset : (s.header i).set = false) :
      SendStep dest calls s k (claimSlot s k i)
  | lock (i : ℕ) (hpc : s.senders k = .lock i) :
      SendStep dest calls s k { s.setPc k (.takeId i) with accessLocked := true }
  | takeId (i : ℕ) (hpc : s.senders k = .takeId i) : SendStep dest calls s k
      { (s.setHeader i { s.header i with messageId := s.lastId }).setPc k (.count i) with
        lastId := increment64 s.lastId
        accessLocked := false
        history := { s.history with
          tickets := s.history.tickets + 1
          ticket := Function.update s.history.ticket k (some s.history.tickets) } }
  | count (i : ℕ) (hpc : s.senders k = .count i) : SendStep dest calls s k
      { s.setPc k (.fill i) with pendingMessages := syncIncrement32 s.pendingMessages }
  | fill (i : ℕ) (hpc : s.senders k = .fill i) : SendStep dest calls s k
      ((s.setMessage i (fillMessage dest k (calls k) (s.messages i))).setPc k (.pend i))
  | pend (i : ℕ) (hpc : s.senders k = .pend i) : SendStep dest calls s k
      ((s.setHeader i { s.header i with pending := true }).setPc k (.hint i))
  | hint (i : ℕ) (hpc : s.senders k = .hint i) : SendStep dest calls s k
      { s.setPc k (if (calls k).async then .returned kernelSok else .wait i) with
        possibleNextMessage :=
          if (s.header i).messageId = s.leastId then some i else s.possibleNextMessage }
  | wait (i : ℕ) (hpc : s.senders k = .wait i) (hpend : (s.header i).pending = false) :
      SendStep dest calls s k (s.setPc k (.returned (s.syncStatus k)))

theorem ipcSendMessage_cases (hs : ipcSendMessage dest calls s k = some t) :
    SendStep dest calls s k t := by
  cases hpc : s.senders k with
  | start =>
    simp only [ipcSendMessage, hpc] at hs
    split_ifs at hs <;> cases hs
    · exact .spin (by rw [hpc]; rfl)
    · exact .search _ (by rw [hpc]; rfl) rfl (by simp)
  | scan i =>
    simp only [ipcSendMessage, hpc] at hs
    split_ifs at hs with hlt _ <;> cases hs
    · exact .search _ (by rw [hpc]; rfl) rfl (by simp)
    · refine .search _ (by rw [hpc]; rfl) rfl ?_
      intro j hj
      cases hj
      exact hlt
    · exact .search _ (by rw [hpc]; rfl) rfl (by simp)
  | claim i =>
    simp only [ipcSendMessage, hpc] at hs
    split_ifs at hs with hset <;> cases hs
    · exact .search _ (by rw [hpc]; rfl) rfl (by simp)
    · exact .claim i hpc (Bool.eq_false_iff.mpr hset)
  | lock i =>
    simp only [ipcSendMessage, hpc] at hs
    split_ifs at hs <;> cases hs
    · exact .spin (by rw [hpc]; rfl)
    · exact .lock i hpc
  | takeId i =>
    simp only [ipcSendMessage, hpc] at hs
    cases hs
    exact .takeId i hpc
  | count i =>
    simp only [ipcSendMessage, hpc] at hs
    cases hs
    exact .count i hpc
  | fill i =>
    simp only [ipcSendMessage, hpc] at hs
    cases hs
    exact .fill i hpc
  | pend i =>
    simp only [ipcSendMessage, hpc] at hs
    cases hs
    exact .pend i hpc
  | hint i =>
    simp only [ipcSendMessage, hpc] at hs
    cases hs
    exact .hint i hpc
  | wait i =>
    simp only [ipcSendMessage, hpc] at hs
    split_ifs at hs with hpend <;> cases hs
    · exact .spin (by rw [hpc]; rfl)
    · exact .wait i hpc (Bool.eq_false_iff.mpr hpend)
  | returned v =>
    simp only [ipcSendMessage, hpc] at hs
    cases hs

theorem SendStep.frame (h : SendStep dest calls s k t) : SendFrame s t k ∨
    ∃ i, s.senders k = .claim i ∧ (s.header i).set = false ∧ t = claimSlot s k i := by
  cases h with
  | spin =>
    exact Or.inl ⟨rfl, rfl, rfl, rfl, rfl, rfl, rfl, fun _ _ => rfl, fun _ => rfl, fun _ _ => rfl⟩
  | search pc => exact Or.inl (sendFrame_setPc s k pc)
  | claim i hpc hset => exact Or.inr ⟨i, hpc, hset, rfl⟩
  | lock i => exact Or.inl { sendFrame_setPc s k (.takeId i) with }
  | takeId i hpc =>
    have hf : SendFrame s ((s.setHeader i { s.header i with messageId := s.lastId }).setPc k
        (.count i)) k := sendFrame_setMessage (.count i) (by rw [hpc]; rfl) rfl
    exact Or.inl { hf with }
  | count i => exact Or.inl { sendFrame_setPc s k (.fill i) with }
  | fill i hpc => exact Or.inl (sendFrame_setMessage (.pend i) (by rw [hpc]; rfl) rfl)
  | pend i hpc => exact Or.inl (sendFrame_setMessage (.hint i) (by rw [hpc]; rfl) rfl)
  | hint i => exact Or.inl { sendFrame_setPc s k _ with }
  | wait i => exact Or.inl (sendFrame_setPc s k _)

/-- A step of the call `k` that takes no slot keeps the invariant as soon as it keeps what holds of
`k` itself. -/
theorem Owned.of_sendFrame (h : Owned calls s) (hf : SendFrame s t k) (hk : CallOk calls t k)
    (hst : (s.senders k).stage = .posted → (t.senders k).stage = .posted) : Owned calls t := by
  have hother (i : ℕ) (hi : (s.senders k).stage = .filling i) (k' : ℕ) (hk' : Owns s k' i) :
      k' = k := h.owns_unique hk' ((h.call k).filling i hi).1
  constructor
  · intro k'
    by_cases he : k' = k
    · rw [he]
      exact hk
    · refine (h.call k').frame hf.max (hf.others k' he) (by rw [hf.slotOf]) (by rw [hf.dispatched])
        ?_ (fun i _ hr => by rw [hf.receiver, hr])
      intro i hi
      exact hf.messages i (fun hfill => he (hother i hfill k' hi))
  · intro k' i hi
    have ho := h.owner k' i ((hf.owns k' i).mp hi)
    rw [hf.max, hf.set, hf.holder]
    exact ho
  · intro i hi
    rw [hf.set] at hi
    obtain ⟨k', hk'⟩ := h.owned i hi
    exact ⟨k', (hf.owns k' i).mpr hk'⟩
  · intro i hi
    rw [hf.set]
    by_cases hfill : (s.senders k).stage = .filling i
    · exact (h.owner k i ((h.call k).filling i hfill).1).2.1
    · apply h.set_of_pending i
      rw [State.header, hf.messages i hfill] at hi
      exact hi
  · intro i hi
    have hact : activeSlot t = activeSlot s := by
      rw [activeSlot, activeSlot, hf.receiver, hf.current]
    obtain ⟨k', hk', hp⟩ := h.active i (hact ▸ hi)
    refine ⟨k', (hf.owns k' i).mpr hk', ?_⟩
    by_cases he : k' = k
    · rw [he] at hp ⊢
      exact hst hp
    · rw [hf.others k' he]
      exact hp
  · intro i hi
    rw [hf.receiver] at hi
    rw [hf.current]
    exact h.slot_current i hi
  · intro i hi
    rw [hf.receiver] at hi
    obtain ⟨k', hk', hp⟩ :=
      h.active i (by rw [activeSlot, hi]; exact h.slot_current i (by rw [hi]; rfl))
    have hfill : (s.senders k).stage ≠ .filling i := by
      intro hfill
      rw [hother i hfill k' hk', hfill] at hp
      cases hp
    rw [State.header, hf.messages i hfill]
    exact h.cleared i hi
  · rw [hf.receiver, hf.current]
    exact h.empty_current

theorem callOk_early (h : CallOk calls s k) (hf : SendFrame s t k)
    (hs : (s.senders k).stage = .early) (ht : (t.senders k).stage = .early)
    (hlt : ∀ i, t.senders k = .claim i → i < t.maxMessages) : CallOk calls t k := by
  constructor
  · exact hlt
  · intro _
    rw [hf.slotOf, hf.dispatched]
    exact h.early hs
  · intro i hi
    rw [ht] at hi
    cases hi
  · intro i hi
    rw [hi] at ht
    cases ht
  all_goals
    intro hp
    rw [ht] at hp
    cases hp

theorem callOk_filling (h : CallOk calls s k) (hf : SendFrame s t k) {i : ℕ}
    (hs : (s.senders k).stage = .filling i) (ht : (t.senders k).stage = .filling i)
    (hpend : (t.header i).pending = (s.header i).pending)
    (hbody : t.senders k = .pend i → (t.messages i).body = (calls k).body) : CallOk calls t k := by
  constructor
  · intro j hj
    rw [hj] at ht
    cases ht
  · intro he
    rw [ht] at he
    cases he
  · intro j hj
    rw [ht] at hj
    cases hj
    rw [hpend, hf.owns]
    exact h.filling i hs
  · intro j hj
    have hij : i = j := by
      rw [hj] at ht
      cases ht
      rfl
    subst hij
    exact hbody hj
  all_goals
    intro hp
    rw [ht] at hp
    cases hp

theorem callOk_posted (hf : SendFrame s t k) (ht : (t.senders k).stage = .posted)
    (hslot : ∃ i, s.history.slotOf k = some i)
    (hmsg : ∀ i, Owns s k i → (t.messages i).body = (calls k).body ∧
      ((t.header i).pending = true ∨ s.receiver = .clearSet i)) : CallOk calls t k := by
  constructor
  · intro j hj
    rw [hj] at ht
    cases ht
  · intro he
    rw [ht] at he
    cases he
  · intro j hj
    rw [ht] at hj
    cases hj
  · intro j hj
    rw [hj] at ht
    cases ht
  · intro _
    rw [hf.slotOf]
    exact hslot
  · intro _ i hi
    exact (hmsg i ((hf.owns k i).mp hi)).1
  · intro _ i hi
    rw [hf.receiver]
    exact (hmsg i ((hf.owns k i).mp hi)).2

theorem callOk_stays_posted (h : CallOk calls s k) (hf : SendFrame s t k)
    (hs : (s.senders k).stage = .posted) (ht : (t.senders k).stage = .posted) :
    CallOk calls t k := by
  apply callOk_posted hf ht (h.posted hs)
  intro i hi
  rw [State.header, hf.messages i (by rw [hs]; exact Stage.noConfusion)]
  exact ⟨h.body hs i hi, h.pending hs i hi⟩

@[simp] theorem senders_setPc (s : State) (k : ℕ) (pc : SendPc) : (s.setPc k pc).senders k = pc :=
  Function.update_self ..

/-- Setting `Header.Pending` posts the body that the call wrote. -/
theorem CallOk.pended {i : ℕ} (h : CallOk calls s k) (hpc : s.senders k = .pend i)
    (hf : SendFrame s ((s.setHeader i { s.header i with pending := true }).setPc k (.hint i)) k) :
    CallOk calls ((s.setHeader i { s.header i with pending := true }).setPc k (.hint i)) k := by
  have hown := (h.filling i (by rw [hpc]; rfl)).1
  apply callOk_posted hf (by simp [SendPc.stage]) ⟨i, hown.1⟩
  intro j hj
  have hji : j = i := by
    have he := hj.1
    rw [hown.1] at he
    exact (Option.some.inj he).symm
  subst hji
  refine ⟨?_, Or.inl ?_⟩
  · change ((s.setHeader j _).messages j).body = _
    rw [State.body_setHeader]
    exact h.pend j hpc
  · change ((s.setHeader j _).header j).pending = true
    rw [State.header_setHeader, if_pos rfl]

theorem Owned.claim {i : ℕ} (h : Owned calls s) (hpc : s.senders k = .claim i)
    (hset : (s.header i).set = false) : Owned calls (claimSlot s k i) := by
  have hk := (h.call k).early (by rw [hpc]; rfl)
  have hfree (k' : ℕ) : ¬ Owns s k' i := by
    intro hk'
    rw [(h.owner k' i hk').2.1] at hset
    cases hset
  have hnp : (s.header i).pending = false := by
    by_contra hp
    rw [h.set_of_pending i (by simpa using hp)] at hset
    cases hset
  have hheader := header_claimSlot s k i
  have hsender := senders_claimSlot s k i
  have hslot (k' : ℕ) :
      (claimSlot s k i).history.slotOf k' = if k' = k then some i else s.history.slotOf k' :=
    Function.update_apply ..
  have howns (k' j : ℕ) : Owns (claimSlot s k i) k' j ↔
      (k' = k ∧ j = i) ∨ (k' ≠ k ∧ Owns s k' j) := by
    rw [Owns, hslot]
    change _ ∧ s.history.dispatched k' = false ↔ _
    by_cases he : k' = k
    · simp only [he, if_true, hk.2, Option.some.injEq, and_true, true_and, ne_eq, not_true_eq_false,
        false_and, or_false]
      exact eq_comm
    · simp only [he, if_false, false_and, ne_eq, not_false_eq_true, true_and, false_or, Owns]
  constructor
  · intro k'
    by_cases he : k' = k
    · subst he
      constructor <;> simp [hsender, SendPc.stage, hheader, howns, hnp]
    · refine (h.call k').frame rfl (by rw [hsender, if_neg he]) (by rw [hslot, if_neg he]) rfl ?_
        (fun j _ hr => hr)
      intro j hj
      have hne : j ≠ i := by
        rintro rfl
        exact hfree k' hj
      exact Function.update_of_ne hne _ _
  · intro k' j hj
    rw [hheader]
    rcases (howns k' j).mp hj with ⟨rfl, rfl⟩ | ⟨hne, hj'⟩
    · exact ⟨(h.call k').claim_lt j hpc, by simp, Function.update_self ..⟩
    · have hji : j ≠ i := by
        rintro rfl
        exact hfree k' hj'
      rw [if_neg hji]
      obtain ⟨hlt, hs, hh⟩ := h.owner k' j hj'
      exact ⟨hlt, hs, (Function.update_of_ne hji _ _).trans hh⟩
  · intro j hj
    by_cases hji : j = i
    · exact ⟨k, (howns k j).mpr (Or.inl ⟨rfl, hji⟩)⟩
    · rw [hheader, if_neg hji] at hj
      obtain ⟨k', hk'⟩ := h.owned j hj
      refine ⟨k', (howns k' j).mpr (Or.inr ⟨?_, hk'⟩)⟩
      rintro rfl
      rw [Owns, hk.1] at hk'
      cases hk'.1
  · intro j hj
    rw [hheader] at hj ⊢
    split_ifs at hj ⊢ with hji
    · rfl
    · exact h.set_of_pending j hj
  · intro j hj
    obtain ⟨k', hk', hp⟩ := h.active j hj
    have hne : k' ≠ k := by
      rintro rfl
      rw [hpc] at hp
      cases hp
    exact ⟨k', (howns k' j).mpr (Or.inr ⟨hne, hk'⟩), by rw [hsender, if_neg hne]; exact hp⟩
  · intro j hj
    exact h.slot_current j hj
  · intro j hj
    have hpj := h.cleared j hj
    rw [hheader]
    split_ifs with hji
    · exact hnp
    · exact hpj
  · exact h.empty_current

theorem Owned.send (h : Owned calls s) (hs : ipcSendMessage dest calls s k = some t) :
    Owned calls t := by
  have hstep := ipcSendMessage_cases hs
  rcases hstep.frame with hf | ⟨i, hpc, hset, rfl⟩
  swap
  · exact h.claim hpc hset
  have hk := h.call k
  cases hstep with
  | spin => exact h
  | search pc hpc hpc' hlt =>
    refine h.of_sendFrame hf (callOk_early hk hf hpc (by simpa using hpc') ?_) (by simp [hpc])
    intro i hi
    exact hlt i (by simpa using hi)
  | claim i hpc hset => exact h.claim hpc hset
  | lock i hpc =>
    have hst : (s.senders k).stage = .filling i := by rw [hpc]; rfl
    exact h.of_sendFrame hf (callOk_filling hk hf hst (by simp [SendPc.stage]) rfl (by simp))
      (by simp [hst])
  | takeId i hpc =>
    have hst : (s.senders k).stage = .filling i := by rw [hpc]; rfl
    refine h.of_sendFrame hf (callOk_filling hk hf hst (by simp [SendPc.stage]) ?_ (by simp))
      (by simp [hst])
    change ((s.setHeader i _).header i).pending = _
    rw [State.header_setHeader, if_pos rfl]
  | count i hpc =>
    have hst : (s.senders k).stage = .filling i := by rw [hpc]; rfl
    exact h.of_sendFrame hf (callOk_filling hk hf hst (by simp [SendPc.stage]) rfl (by simp))
      (by simp [hst])
  | fill i hpc =>
    have hst : (s.senders k).stage = .filling i := by rw [hpc]; rfl
    have hm : ((s.setMessage i (fillMessage dest k (calls k) (s.messages i))).setPc k
        (.pend i)).messages i = fillMessage dest k (calls k) (s.messages i) :=
      Function.update_self ..
    refine h.of_sendFrame hf (callOk_filling hk hf hst (by simp [SendPc.stage]) ?_ ?_)
      (by simp [hst])
    · rw [State.header, hm]
      rfl
    · intro _
      rw [hm]
      rfl
  | pend i hpc => exact h.of_sendFrame hf (hk.pended hpc hf) (fun _ => by simp [SendPc.stage])
  | hint i hpc =>
    have hst : (s.senders k).stage = .posted := by rw [hpc]; rfl
    have ht : (if (calls k).async = true then SendPc.returned kernelSok else .wait i).stage =
        .posted := by
      split_ifs <;> rfl
    refine h.of_sendFrame hf (callOk_stays_posted hk hf hst ?_) ?_
    · simpa using ht
    · intro _
      simpa using ht
  | wait i hpc =>
    have hst : (s.senders k).stage = .posted := by rw [hpc]; rfl
    exact h.of_sendFrame hf (callOk_stays_posted hk hf hst (by simp [SendPc.stage]))
      (by simp [SendPc.stage])

/-- What the receiver leaves alone outside the two steps that clear `Pending` and `Set`. -/
structure RecvFrame (s t : State) : Prop where
  max : t.maxMessages = s.maxMessages
  senders : t.senders = s.senders
  messages : t.messages = s.messages
  slotOf : t.history.slotOf = s.history.slotOf
  holder : t.history.holder = s.history.holder
  dispatched : t.history.dispatched = s.history.dispatched

theorem RecvFrame.owns (h : RecvFrame s t) (k i : ℕ) : Owns t k i ↔ Owns s k i := by
  rw [Owns, Owns, h.slotOf, h.dispatched]

theorem RecvFrame.header (h : RecvFrame s t) (i : ℕ) : t.header i = s.header i := by
  rw [State.header, State.header, h.messages]

theorem Owned.of_recvFrame (h : Owned calls s) (hf : RecvFrame s t)
    (hne : ∀ i, s.receiver ≠ .clearSet i)
    (hact : ∀ i, activeSlot t = some i → ∃ k, Owns s k i ∧ (s.senders k).stage = .posted)
    (hcur : ∀ i, t.receiver.slot = some i → t.currentMessage = some i)
    (hclr : ∀ i, t.receiver ≠ .clearSet i)
    (hempty : t.receiver.empty = true → t.currentMessage = none) : Owned calls t := by
  constructor
  · intro k
    exact (h.call k).frame hf.max (by rw [hf.senders]) (by rw [hf.slotOf]) (by rw [hf.dispatched])
      (fun i _ => by rw [hf.messages]) (fun i _ hr => absurd hr (hne i))
  · intro k i hi
    rw [hf.max, hf.header, hf.holder]
    exact h.owner k i ((hf.owns k i).mp hi)
  · intro i hi
    rw [hf.header] at hi
    obtain ⟨k, hk⟩ := h.owned i hi
    exact ⟨k, (hf.owns k i).mpr hk⟩
  · intro i hi
    rw [hf.header] at hi ⊢
    exact h.set_of_pending i hi
  · intro i hi
    obtain ⟨k, hk, hp⟩ := hact i hi
    exact ⟨k, (hf.owns k i).mpr hk, by rw [hf.senders]; exact hp⟩
  · exact hcur
  · intro i hi
    exact absurd hi (hclr i)
  · exact hempty

theorem Owned.posted_of_pending (h : Owned calls s) {i : ℕ} (hi : (s.header i).pending = true) :
    ∃ k, Owns s k i ∧ (s.senders k).stage = .posted := by
  obtain ⟨k, hk⟩ := h.owned i (h.set_of_pending i hi)
  refine ⟨k, hk, ?_⟩
  rcases (h.call k).stage_of_owns hk with hst | hst
  · rw [((h.call k).filling i hst).2] at hi
    cases hi
  · exact hst

theorem Owned.clearPending {i : ℕ} (h : Owned calls s) (hr : s.receiver = .clearPending i) :
    Owned calls (unpendSlot s i) := by
  have hcur : s.currentMessage = some i := h.slot_current i (by rw [hr]; rfl)
  have hheader := header_unpendSlot s i
  obtain ⟨k, hk, hkp⟩ := h.active i (by rw [activeSlot, hr]; exact hcur)
  constructor
  · intro k'
    by_cases he : k' = k
    · subst he
      have hc := h.call k'
      constructor
      · exact hc.claim_lt
      · exact hc.early
      · intro j hj
        cases hkp.symm.trans hj
      · intro j hj
        cases hkp.symm.trans (congrArg SendPc.stage hj)
      · exact hc.posted
      · intro hp j hj
        exact (State.body_setHeader s i j _).trans (hc.body hp j hj)
      · intro hp j hj
        have hji : j = i := by
          have hj1 : s.history.slotOf k' = some j := hj.1
          rw [hk.1] at hj1
          exact (Option.some.inj hj1).symm
        exact Or.inr (by rw [hji]; rfl)
    · refine (h.call k').frame rfl rfl rfl rfl ?_ (fun j _ hj => ?_)
      · intro j hj
        have hji : j ≠ i := by
          rintro rfl
          exact he (h.owns_unique hj hk)
        exact Function.update_of_ne hji _ _
      · rw [hr] at hj
        cases hj
  · intro k' j hj
    obtain ⟨hlt, hs, hh⟩ := h.owner k' j hj
    refine ⟨hlt, ?_, hh⟩
    rw [hheader]
    split_ifs with hji
    · rw [← hji]
      exact hs
    · exact hs
  · intro j hj
    apply h.owned j
    rw [hheader] at hj
    split_ifs at hj with hji
    · rw [hji]
      exact hj
    · exact hj
  · intro j hj
    rw [hheader] at hj ⊢
    split_ifs at hj ⊢ with hji
    exact h.set_of_pending j hj
  · intro j hj
    have hji : some i = some j := hcur.symm.trans hj
    rw [← Option.some.inj hji]
    exact ⟨k, hk, hkp⟩
  · intro j hj
    exact hcur.trans hj
  · intro j hj
    cases hj
    rw [hheader, if_pos rfl]
  · intro hj
    cases hj

theorem Owned.release {i : ℕ} (h : Owned calls s) (hr : s.receiver = .clearSet i) :
    Owned calls (releaseSlot s i) := by
  have hcur : s.currentMessage = some i := h.slot_current i (by rw [hr]; rfl)
  obtain ⟨k, hk, hkp⟩ := h.active i (by rw [activeSlot, hr]; exact hcur)
  have hheader := header_releaseSlot s i
  have hdone := dispatched_releaseSlot (h.owner k i hk).2.2
  have howns (k' j : ℕ) : Owns (releaseSlot s i) k' j ↔ k' ≠ k ∧ Owns s k' j := by
    rw [Owns, hdone, Owns]
    change s.history.slotOf k' = some j ∧ _ ↔ _
    by_cases he : k' = k <;> simp [he]
  constructor
  · intro k'
    by_cases he : k' = k
    · subst he
      have hc := h.call k'
      constructor
      · exact hc.claim_lt
      · intro hst
        cases hkp.symm.trans hst
      · intro j hj
        cases hkp.symm.trans hj
      · intro j hj
        cases hkp.symm.trans (congrArg SendPc.stage hj)
      · exact hc.posted
      · intro _ j hj
        exact absurd rfl ((howns k' j).mp hj).1
      · intro _ j hj
        exact absurd rfl ((howns k' j).mp hj).1
    · refine (h.call k').frame rfl rfl rfl (by rw [hdone, if_neg he]) ?_ (fun j hj hj' => ?_)
      · intro j hj
        have hji : j ≠ i := by
          rintro rfl
          exact he (h.owns_unique hj hk)
        exact Function.update_of_ne hji _ _
      · rw [hr] at hj'
        cases hj'
        exact absurd (h.owns_unique hj hk) he
  · intro k' j hj
    obtain ⟨hne, hj'⟩ := (howns k' j).mp hj
    obtain ⟨hlt, hs, hh⟩ := h.owner k' j hj'
    have hji : j ≠ i := by
      rintro rfl
      exact hne (h.owns_unique hj' hk)
    exact ⟨hlt, by rw [hheader, if_neg hji]; exact hs, hh⟩
  · intro j hj
    rw [hheader] at hj
    split_ifs at hj with hji
    obtain ⟨k', hk'⟩ := h.owned j hj
    refine ⟨k', (howns k' j).mpr ⟨?_, hk'⟩⟩
    rintro rfl
    have he := hk'.1
    rw [hk.1] at he
    exact hji (Option.some.inj he).symm
  · intro j hj
    rw [hheader] at hj ⊢
    split_ifs at hj ⊢ with hji
    · rw [h.cleared i hr] at hj
      cases hj
    · exact h.set_of_pending j hj
  · intro j hj
    cases hj
  · intro j hj
    cases hj
  · intro j hj
    cases hj
  · intro hj
    cases hj

/-- The receiver stands between two calls or on its way to a message. -/
def RecvPc.seeking : RecvPc → Bool
  | .clearSet _ | .clearCurrent | .incLeast | .decPending => false
  | _ => true

/-- What one step of the receiver does, with what it finds where it stands. A step of `seek` moves
the receiver and changes at most the lock and the hint. -/
inductive ReceiveStep (s : State) : State → Prop
  | spin : ReceiveStep s s
  | seek (pc : RecvPc) (locked : Bool) (hint : Option ℕ) (hpc : s.receiver.seeking = true)
      (hpc' : pc.seeking = true)
      (hact : activeSlot { s with receiver := pc } = activeSlot s)
      (hslot : ∀ i, pc.slot = some i → s.currentMessage = some i)
      (hempty : pc.empty = true → s.receiver.empty = true ∨ s.currentMessage = none) :
      ReceiveStep s
        { s with receiver := pc, accessLocked := locked, possibleNextMessage := hint }
  | reset (hpc : s.receiver = .reset) : ReceiveStep s
      { s with receiver := .waitPending, accessLocked := false, lastId := 0, leastId := 0 }
  | take (i : ℕ) (hpc : s.receiver = .select) (hi : selectedMessage s = some i) :
      ReceiveStep s (acquire s i)
  | clearPending (i : ℕ) (hpc : s.receiver = .clearPending i) : ReceiveStep s (unpendSlot s i)
  | clearSet (i : ℕ) (hpc : s.receiver = .clearSet i) : ReceiveStep s (releaseSlot s i)
  | clearCurrent (hpc : s.receiver = .clearCurrent) :
      ReceiveStep s { s with currentMessage := none, receiver := .incLeast }
  | incLeast (hpc : s.receiver = .incLeast) :
      ReceiveStep s { s with leastId := increment64 s.leastId, receiver := .decPending }
  | decPending (hpc : s.receiver = .decPending) : ReceiveStep s
      { s with pendingMessages := syncDecrement32 s.pendingMessages, receiver := .enter }

theorem ipcReceive_cases (hs : ipcReceive s = some t) : ReceiveStep s t := by
  cases hr : s.receiver with
  | enter =>
    simp only [ipcReceive, hr] at hs
    split_ifs at hs with hc <;> cases hs
    · exact .seek _ _ _ (by rw [hr]; rfl) rfl (by simp [activeSlot, hr]) (by simp [RecvPc.slot])
        (by simp [RecvPc.empty])
    · have hn : s.currentMessage = none := by simpa using hc
      exact .seek _ _ _ (by rw [hr]; rfl) rfl (by simp [activeSlot, hr, hn])
        (by simp [RecvPc.slot]) (fun _ => Or.inr hn)
  | testEmpty =>
    simp only [ipcReceive, hr] at hs
    split_ifs at hs <;> cases hs <;>
      exact .seek _ _ _ (by rw [hr]; rfl) rfl (by simp [activeSlot, hr]) (by simp [RecvPc.slot])
        (fun _ => Or.inl (by rw [hr]; rfl))
  | lockReset =>
    simp only [ipcReceive, hr] at hs
    split_ifs at hs <;> cases hs <;>
      exact .seek _ _ _ (by rw [hr]; rfl) rfl (by simp [activeSlot, hr]) (by simp [RecvPc.slot])
        (fun _ => Or.inl (by rw [hr]; rfl))
  | reset =>
    simp only [ipcReceive, hr] at hs
    cases hs
    exact .reset hr
  | waitPending =>
    simp only [ipcReceive, hr] at hs
    split_ifs at hs <;> cases hs
    · exact .spin
    · exact .seek _ _ _ (by rw [hr]; rfl) rfl (by simp [activeSlot, hr]) (by simp [RecvPc.slot])
        (fun _ => Or.inl (by rw [hr]; rfl))
  | select =>
    simp only [ipcReceive, hr] at hs
    split at hs <;> cases hs
    · exact .take _ hr ‹_›
    · exact .seek _ _ _ (by rw [hr]; rfl) rfl (by simp [activeSlot, hr]) (by simp [RecvPc.slot])
        (fun _ => Or.inl (by rw [hr]; rfl))
  | dispatch =>
    simp only [ipcReceive, hr] at hs
    split at hs
    · cases hs
      exact .seek _ _ _ (by rw [hr]; rfl) rfl (by simp [activeSlot, hr]) (by simp [RecvPc.slot])
        (by simp [RecvPc.empty])
    · rename_i i hi
      split_ifs at hs <;> cases hs
      · exact .seek _ _ _ (by rw [hr]; rfl) rfl (by simp [activeSlot, hr]) (by simp [RecvPc.slot])
          (by simp [RecvPc.empty])
      · exact .seek _ _ _ (by rw [hr]; rfl) rfl (by simp [activeSlot, hr])
          (fun j hj => hi.trans hj) (by simp [RecvPc.empty])
  | clearPending i =>
    simp only [ipcReceive, hr] at hs
    cases hs
    exact .clearPending i hr
  | clearSet i =>
    simp only [ipcReceive, hr] at hs
    cases hs
    exact .clearSet i hr
  | clearCurrent =>
    simp only [ipcReceive, hr] at hs
    cases hs
    exact .clearCurrent hr
  | incLeast =>
    simp only [ipcReceive, hr] at hs
    cases hs
    exact .incLeast hr
  | decPending =>
    simp only [ipcReceive, hr] at hs
    cases hs
    exact .decPending hr

theorem Owned.receive (h : Owned calls s) (hs : ipcReceive s = some t) : Owned calls t := by
  cases ipcReceive_cases hs with
  | spin => exact h
  | seek pc locked hint hpc hpc' hact hslot hempty =>
    refine h.of_recvFrame ⟨rfl, rfl, rfl, rfl, rfl, rfl⟩ ?_ (fun i hi => h.active i (hact ▸ hi))
      hslot ?_ ?_
    · intro i hi
      rw [hi] at hpc
      cases hpc
    · rintro i rfl
      cases hpc'
    · intro he
      rcases hempty he with he' | hn
      · exact h.empty_current he'
      · exact hn
  | reset hpc =>
    exact h.of_recvFrame ⟨rfl, rfl, rfl, rfl, rfl, rfl⟩ (by simp [hpc]) (by simp [activeSlot])
      (by simp [RecvPc.slot]) (by simp) (fun _ => h.empty_current (by rw [hpc]; rfl))
  | take i hpc hi =>
    refine h.of_recvFrame ⟨rfl, rfl, rfl, rfl, rfl, rfl⟩ (by simp [hpc]) ?_
      (by simp [acquire, RecvPc.slot]) (by simp [acquire]) (by simp [acquire, RecvPc.empty])
    intro j hj
    cases hj
    exact h.posted_of_pending (selectedMessage_pending hi)
  | clearPending i hpc => exact h.clearPending hpc
  | clearSet i hpc => exact h.release hpc
  | clearCurrent hpc =>
    exact h.of_recvFrame ⟨rfl, rfl, rfl, rfl, rfl, rfl⟩ (by simp [hpc]) (by simp [activeSlot])
      (by simp [RecvPc.slot]) (by simp) (fun _ => rfl)
  | incLeast hpc =>
    exact h.of_recvFrame ⟨rfl, rfl, rfl, rfl, rfl, rfl⟩ (by simp [hpc]) (by simp [activeSlot])
      (by simp [RecvPc.slot]) (by simp) (fun _ => h.empty_current (by rw [hpc]; rfl))
  | decPending hpc =>
    have hc := h.empty_current (by rw [hpc]; rfl)
    exact h.of_recvFrame ⟨rfl, rfl, rfl, rfl, rfl, rfl⟩ (by simp [hpc])
      (by simp [activeSlot, hc]) (by simp [RecvPc.slot]) (by simp) (by simp [RecvPc.empty])

theorem ipcSetStatus_eq {v : ℕ} (hs : ipcSetStatus s v = some t) :
    ∃ f, t = { s with syncStatus := f } := by
  unfold ipcSetStatus at hs
  split at hs
  · split_ifs at hs
    · cases hs
      exact ⟨s.syncStatus, rfl⟩
    · split at hs <;> cases hs
      · exact ⟨_, rfl⟩
      · exact ⟨s.syncStatus, rfl⟩
  · cases hs
    exact ⟨s.syncStatus, rfl⟩
  · cases hs

theorem Owned.setStatus {v : ℕ} (h : Owned calls s) (hs : ipcSetStatus s v = some t) :
    Owned calls t := by
  obtain ⟨f, rfl⟩ := ipcSetStatus_eq hs
  constructor
  · intro k
    exact (h.call k).frame rfl rfl rfl rfl (fun _ _ => rfl) (fun _ _ hr => hr)
  · exact h.owner
  · exact h.owned
  · exact h.set_of_pending
  · exact h.active
  · exact h.slot_current
  · exact h.cleared
  · exact h.empty_current

theorem Owned.step {a : Action} (h : Owned calls s) (hs : step dest calls s a = some t) :
    Owned calls t := by
  cases a with
  | send k => exact h.send hs
  | receive => exact h.receive hs
  | setStatus v => exact h.setStatus hs

end DevOs.Ipc
