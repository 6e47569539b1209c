import DevOs.Ipc.Ownership
import Mathlib.Data.Finset.Card
import Mathlib.Data.Finset.Range

/-!
# Delivery without loss or duplication

`Delivery` says which messages `IpcGetMessage` has returned: the dispatched ones and the one in the
hands of the receiver, each once and with the body it was sent with. `Counted` says what
`PendingMessages` counts: the set slots whose owner has counted itself, and the slot the receiver
has released without counting it off yet.
-/

namespace DevOs.Ipc

def deliveredCalls (s : State) : List ℕ := s.history.delivered.map Prod.fst

/-- The message of the call `k` was returned and its slot is not released. -/
def Active (s : State) (k : ℕ) : Prop := ∃ i, Owns s k i ∧ activeSlot s = some i

structure Delivery (calls : ℕ → SendCall) (s : State) : Prop where
  nodup : (deliveredCalls s).Nodup
  mem : ∀ k, k ∈ deliveredCalls s ↔ s.history.dispatched k = true ∨ Active s k
  body : ∀ p ∈ s.history.delivered, p.2 = (calls p.1).body
  last : ∀ k, Active s k → (deliveredCalls s).getLast? = some k

theorem delivery_initial (calls : ℕ → SendCall) (n : ℕ) : Delivery calls (initial n) := by
  constructor <;> simp [initial, deliveredCalls, Active, activeSlot]

variable {dest : ℕ} {calls : ℕ → SendCall} {s t : State} {k : ℕ}

theorem Delivery.congr (h : Delivery calls s)
    (hd : t.history.delivered = s.history.delivered)
    (hdone : t.history.dispatched = s.history.dispatched)
    (hact : ∀ k, Active t k ↔ Active s k) : Delivery calls t := by
  constructor
  · rw [deliveredCalls, hd]
    exact h.nodup
  · intro k
    rw [deliveredCalls, hd, hdone, hact]
    exact h.mem k
  · rw [hd]
    exact h.body
  · intro k hk
    rw [deliveredCalls, hd]
    exact h.last k ((hact k).mp hk)

theorem Delivery.send (h : Delivery calls s) (ho : Owned calls s)
    (hs : ipcSendMessage dest calls s k = some t) : Delivery calls t := by
  rcases (ipcSendMessage_cases hs).frame with hf | ⟨i, hpc, hset, rfl⟩
  · apply h.congr hf.delivered hf.dispatched
    intro k'
    have hact : activeSlot t = activeSlot s := by
      rw [activeSlot, activeSlot, hf.receiver, hf.current]
    simp only [Active, hf.owns, hact]
  · refine h.congr (by rfl) (by rfl) (fun k' => ?_)
    have hfree : activeSlot s ≠ some i := by
      intro hi
      obtain ⟨k₀, hk₀, _⟩ := ho.active i hi
      rw [(ho.owner k₀ i hk₀).2.1] at hset
      cases hset
    have hk := (ho.call k).early (by rw [hpc]; rfl)
    constructor
    · rintro ⟨j, ⟨hj, hd⟩, ha⟩
      by_cases he : k' = k
      · subst he
        rw [show (claimSlot s k' i).history.slotOf k' = some i from Function.update_self ..] at hj
        cases hj
        exact absurd ha hfree
      · rw [show (claimSlot s k i).history.slotOf k' = s.history.slotOf k' from
          Function.update_of_ne he _ _] at hj
        exact ⟨j, ⟨hj, hd⟩, ha⟩
    · rintro ⟨j, ⟨hj, hd⟩, ha⟩
      have he : k' ≠ k := by
        rintro rfl
        rw [hk.1] at hj
        cases hj
      exact ⟨j, ⟨(Function.update_of_ne he _ _).trans hj, hd⟩, ha⟩

theorem Delivery.acquire {i : ℕ} (h : Delivery calls s) (ho : Owned calls s)
    (hr : s.receiver = .select) (hi : (s.header i).pending = true) :
    Delivery calls (acquire s i) := by
  obtain ⟨k, hk, hkp⟩ := ho.posted_of_pending hi
  have hnone : ∀ k', ¬ Active s k' := by
    rintro k' ⟨j, _, hj⟩
    rw [activeSlot, hr] at hj
    cases hj
  have hdel : (Ipc.acquire s i).history.delivered =
      s.history.delivered ++ [(k, (s.messages i).body)] := by
    simp [Ipc.acquire, (ho.owner k i hk).2.2]
  have hnew : k ∉ deliveredCalls s := by
    rw [h.mem k, hk.2]
    simp [hnone k]
  have hactive (k' : ℕ) : Active (Ipc.acquire s i) k' ↔ k' = k := by
    constructor
    · rintro ⟨j, hj, ha⟩
      cases ha
      exact ho.owns_unique hj hk
    · rintro rfl
      exact ⟨i, hk, rfl⟩
  constructor
  · rw [deliveredCalls, hdel, List.map_append, List.nodup_append]
    refine ⟨h.nodup, by simp, ?_⟩
    intro a ha b hb
    simp only [List.map_cons, List.map_nil, List.mem_singleton] at hb
    rintro rfl
    exact hnew (hb ▸ ha)
  · intro k'
    rw [deliveredCalls, hdel, List.map_append, List.mem_append, hactive]
    have hm := h.mem k'
    simp only [hnone k', or_false] at hm
    rw [deliveredCalls] at hm
    rw [hm]
    simp [Ipc.acquire]
  · intro p hp
    rw [hdel, List.mem_append, List.mem_singleton] at hp
    rcases hp with hp | rfl
    · exact h.body p hp
    · exact (ho.call k).body hkp i hk
  · intro k' hk'
    rw [deliveredCalls, hdel, List.map_append, (hactive k').mp hk']
    exact List.getLast?_concat

theorem Delivery.release {i : ℕ} (h : Delivery calls s) (ho : Owned calls s)
    (hr : s.receiver = .clearSet i) : Delivery calls (releaseSlot s i) := by
  have hcur : activeSlot s = some i := by
    rw [activeSlot, hr]
    exact ho.slot_current i (by rw [hr]; rfl)
  obtain ⟨k, hk, _⟩ := ho.active i hcur
  have hactive (k' : ℕ) : Active s k' ↔ k' = k := by
    constructor
    · rintro ⟨j, hj, ha⟩
      rw [hcur] at ha
      cases ha
      exact ho.owns_unique hj hk
    · rintro rfl
      exact ⟨i, hk, hcur⟩
  have hno (k' : ℕ) : ¬ Active (releaseSlot s i) k' := by
    rintro ⟨j, _, hj⟩
    cases hj
  constructor
  · exact h.nodup
  · intro k'
    have hm := h.mem k'
    rw [hactive] at hm
    change k' ∈ deliveredCalls s ↔ _
    rw [hm, dispatched_releaseSlot (ho.owner k i hk).2.2]
    by_cases he : k' = k <;> simp [he, hno]
  · exact h.body
  · intro k' hk'
    exact absurd hk' (hno k')

theorem Delivery.of_recvFrame (h : Delivery calls s) (hf : RecvFrame s t)
    (hd : t.history.delivered = s.history.delivered) (hact : activeSlot t = activeSlot s) :
    Delivery calls t := by
  apply h.congr hd hf.dispatched
  intro k
  simp only [Active, hf.owns, hact]

theorem Delivery.receive (h : Delivery calls s) (ho : Owned calls s) (hs : ipcReceive s = some t) :
    Delivery calls t := by
  have hrefl : RecvFrame s s := ⟨rfl, rfl, rfl, rfl, rfl, rfl⟩
  cases ipcReceive_cases hs with
  | spin => exact h
  | seek pc locked hint _ _ hact => exact h.of_recvFrame { hrefl with } rfl hact
  | reset hpc => exact h.of_recvFrame { hrefl with } rfl (by simp [activeSlot, hpc])
  | take i hpc hi => exact h.acquire ho hpc (selectedMessage_pending hi)
  | clearPending i hpc =>
    refine h.congr (by rfl) (by rfl) (fun k' => ?_)
    have hact : activeSlot (unpendSlot s i) = activeSlot s := by simp only [activeSlot, hpc]; rfl
    rw [Active, hact]
    rfl
  | clearSet i hpc => exact h.release ho hpc
  | clearCurrent hpc => exact h.of_recvFrame { hrefl with } rfl (by simp [activeSlot, hpc])
  | incLeast hpc => exact h.of_recvFrame { hrefl with } rfl (by simp [activeSlot, hpc])
  | decPending hpc =>
    have hc := ho.empty_current (by rw [hpc]; rfl)
    exact h.of_recvFrame ⟨rfl, rfl, rfl, rfl, rfl, rfl⟩ rfl (by simp [activeSlot, hpc, hc])

theorem Delivery.step {a : Action} (h : Delivery calls s) (ho : Owned calls s)
    (hs : step dest calls s a = some t) : Delivery calls t := by
  cases a with
  | send k => exact h.send ho hs
  | receive => exact h.receive ho hs
  | setStatus v =>
    obtain ⟨f, rfl⟩ := ipcSetStatus_eq hs
    exact h.congr rfl rfl (fun _ => Iff.rfl)

/-- The slot a call has claimed and not yet counted in `PendingMessages`. -/
def SendPc.uncounted : SendPc → Option ℕ
  | .lock i | .takeId i | .count i => some i
  | _ => none

def SlotCounted (s : State) (i : ℕ) : Prop :=
  (s.header i).set = true ∧ ∀ k, (s.senders k).uncounted ≠ some i

open Classical in
noncomputable def countedSlots (s : State) : Finset ℕ :=
  {i ∈ Finset.range s.maxMessages | SlotCounted s i}

def setSlots (s : State) : Finset ℕ := {i ∈ Finset.range s.maxMessages | (s.header i).set = true}

/-- The receiver has released a slot that `PendingMessages` still counts. -/
def RecvPc.late : RecvPc → ℕ
  | .clearCurrent | .incLeast | .decPending => 1
  | _ => 0

def Counted (s : State) : Prop :=
  s.pendingMessages = ((countedSlots s).card + s.receiver.late) % 2 ^ 32

theorem mem_countedSlots {i : ℕ} :
    i ∈ countedSlots s ↔ i < s.maxMessages ∧ SlotCounted s i := by
  simp [countedSlots]

theorem counted_initial (n : ℕ) : Counted (initial n) := by
  have he : countedSlots (initial n) = ∅ := by
    ext i
    simp [mem_countedSlots, SlotCounted, initial, State.header]
  rw [Counted, he]
  rfl

theorem Counted.congr (h : Counted s) (hp : t.pendingMessages = s.pendingMessages)
    (hl : t.receiver.late = s.receiver.late) (hmax : t.maxMessages = s.maxMessages)
    (hc : ∀ i, SlotCounted t i ↔ SlotCounted s i) : Counted t := by
  have he : countedSlots t = countedSlots s := by
    ext i
    rw [mem_countedSlots, mem_countedSlots, hmax, hc]
  rw [Counted, hp, hl, he]
  exact h

theorem CallOk.owns_of_uncounted (h : CallOk calls s k) {i : ℕ}
    (hu : (s.senders k).uncounted = some i) : Owns s k i := by
  apply (h.filling i _).1
  cases hpc : s.senders k <;> simp_all [SendPc.uncounted, SendPc.stage]

theorem SendFrame.slotCounted (hf : SendFrame s t k)
    (hpc : (t.senders k).uncounted = (s.senders k).uncounted) (i : ℕ) :
    SlotCounted t i ↔ SlotCounted s i := by
  have hu (k' : ℕ) : (t.senders k').uncounted = (s.senders k').uncounted := by
    by_cases he : k' = k
    · rw [he, hpc]
    · rw [hf.others k' he]
  simp only [SlotCounted, hf.set, hu]

theorem Counted.count {i : ℕ} (h : Counted s) (ho : Owned calls s) (hpc : s.senders k = .count i) :
    Counted { s.setPc k (.fill i) with pendingMessages := syncIncrement32 s.pendingMessages } := by
  have hu : (s.senders k).uncounted = some i := by rw [hpc]; rfl
  have hk := (ho.call k).owns_of_uncounted hu
  obtain ⟨hlt, hset, _⟩ := ho.owner k i hk
  have hsender (k' : ℕ) : (s.setPc k (.fill i)).senders k' = if k' = k then .fill i
      else s.senders k' :=
    Function.update_apply ..
  have hcard : countedSlots (s.setPc k (.fill i)) = insert i (countedSlots s) := by
    ext j
    rw [mem_countedSlots, Finset.mem_insert, mem_countedSlots]
    change j < s.maxMessages ∧ ((s.header j).set = true ∧ _) ↔ _
    constructor
    · rintro ⟨hj, hs, hc⟩
      by_cases hji : j = i
      · exact Or.inl hji
      · refine Or.inr ⟨hj, hs, fun k' hk' => ?_⟩
        by_cases he : k' = k
        · rw [he, hu] at hk'
          exact hji (Option.some.inj hk').symm
        · exact hc k' (by rw [hsender, if_neg he]; exact hk')
    · intro hj
      have hother (k' : ℕ) (he : k' ≠ k) : (s.senders k').uncounted ≠ some j := by
        rcases hj with rfl | ⟨_, _, hc⟩
        · intro hk'
          exact he (ho.owns_unique ((ho.call k').owns_of_uncounted hk') hk)
        · exact hc k'
      refine ⟨?_, ?_, fun k' hk' => ?_⟩
      · rcases hj with rfl | hj
        exacts [hlt, hj.1]
      · rcases hj with rfl | hj
        exacts [hset, hj.2.1]
      · by_cases he : k' = k
        · rw [hsender, if_pos he] at hk'
          cases hk'
        · rw [hsender, if_neg he] at hk'
          exact hother k' he hk'
  have hnot : i ∉ countedSlots s := by
    rw [mem_countedSlots]
    exact fun hc => hc.2.2 k hu
  have hp : s.pendingMessages = ((countedSlots s).card + s.receiver.late) % 2 ^ 32 := h
  change syncIncrement32 s.pendingMessages =
    ((countedSlots (s.setPc k (.fill i))).card + s.receiver.late) % 2 ^ 32
  rw [hcard, Finset.card_insert_of_notMem hnot, hp, syncIncrement32]
  omega

theorem Counted.claim {i : ℕ} (h : Counted s) (hpc : s.senders k = .claim i)
    (hset : (s.header i).set = false) : Counted (claimSlot s k i) := by
  have hsender := senders_claimSlot s k i
  refine h.congr (by rfl) (by rfl) (by rfl) (fun j => ?_)
  by_cases hji : j = i
  · subst hji
    constructor
    · intro hc
      exact absurd (by rw [hsender, if_pos rfl]; rfl) (hc.2 k)
    · intro hc
      rw [SlotCounted, hset] at hc
      cases hc.1
  · rw [SlotCounted, SlotCounted, header_claimSlot, if_neg hji]
    refine and_congr_right fun _ => forall_congr' fun k' => ?_
    by_cases he : k' = k
    · rw [hsender, if_pos he, he, hpc]
      simp [SendPc.uncounted, Ne.symm hji]
    · rw [hsender, if_neg he]

theorem SendPc.uncounted_of_early {pc : SendPc} (h : pc.stage = .early) : pc.uncounted = none := by
  cases pc <;> first | rfl | cases h

theorem Counted.send (h : Counted s) (ho : Owned calls s)
    (hs : ipcSendMessage dest calls s k = some t) : Counted t := by
  have hstep := ipcSendMessage_cases hs
  rcases hstep.frame with hf | ⟨i, hpc, hset, rfl⟩
  swap
  · exact h.claim hpc hset
  have hkeep (hp : t.pendingMessages = s.pendingMessages)
      (hu : (t.senders k).uncounted = (s.senders k).uncounted) : Counted t :=
    h.congr hp (by rw [hf.receiver]) hf.max (hf.slotCounted hu)
  cases hstep with
  | spin => exact h
  | search pc hpc hpc' =>
    exact hkeep rfl (by rw [senders_setPc, SendPc.uncounted_of_early hpc',
      SendPc.uncounted_of_early hpc])
  | claim i hpc hset => exact h.claim hpc hset
  | count i hpc => exact h.count ho hpc
  | hint i hpc =>
    refine hkeep rfl ?_
    simp only [senders_setPc, hpc]
    split_ifs <;> rfl
  | lock i hpc | takeId i hpc | fill i hpc | pend i hpc | wait i hpc =>
    exact hkeep rfl (by simp [hpc, SendPc.uncounted])

theorem Counted.release {i : ℕ} (h : Counted s) (ho : Owned calls s)
    (hr : s.receiver = .clearSet i) : Counted (releaseSlot s i) := by
  have hcur : activeSlot s = some i := by
    rw [activeSlot, hr]
    exact ho.slot_current i (by rw [hr]; rfl)
  obtain ⟨k, hk, hkp⟩ := ho.active i hcur
  obtain ⟨hlt, hset, _⟩ := ho.owner k i hk
  have hmem : i ∈ countedSlots s := by
    refine mem_countedSlots.mpr ⟨hlt, hset, fun k' hk' => ?_⟩
    have he := ho.owns_unique ((ho.call k').owns_of_uncounted hk') hk
    rw [he] at hk'
    cases hpc : s.senders k <;> simp_all [SendPc.uncounted, SendPc.stage]
  have hcard : countedSlots (releaseSlot s i) = (countedSlots s).erase i := by
    ext j
    rw [mem_countedSlots, Finset.mem_erase, mem_countedSlots, SlotCounted, SlotCounted,
      header_releaseSlot]
    change j < s.maxMessages ∧ (_ ∧ ∀ k', (s.senders k').uncounted ≠ some j) ↔ _
    by_cases hji : j = i
    · simp [hji]
    · simp [hji]
  have hp : s.pendingMessages = ((countedSlots s).card + s.receiver.late) % 2 ^ 32 := h
  change s.pendingMessages = ((countedSlots (releaseSlot s i)).card + 1) % 2 ^ 32
  rw [hcard, Finset.card_erase_add_one hmem, hp, hr]
  rfl

theorem RecvPc.late_of_seeking {pc : RecvPc} (h : pc.seeking = true) : pc.late = 0 := by
  cases pc <;> first | rfl | cases h

theorem Counted.receive (h : Counted s) (ho : Owned calls s) (hs : ipcReceive s = some t) :
    Counted t := by
  cases ipcReceive_cases hs with
  | spin => exact h
  | seek pc locked hint hpc hpc' =>
    exact h.congr rfl (by rw [RecvPc.late_of_seeking hpc', RecvPc.late_of_seeking hpc]) rfl
      (fun _ => Iff.rfl)
  | clearPending i hpc =>
    refine h.congr (by rfl) (by rw [hpc]; rfl) (by rfl) (fun j => ?_)
    have hset : ((unpendSlot s i).header j).set = (s.header j).set := by
      rw [header_unpendSlot]
      split_ifs with hji
      · rw [hji]
      · rfl
    rw [SlotCounted, SlotCounted, hset]
    rfl
  | clearSet i hpc => exact h.release ho hpc
  | decPending hpc =>
    have hp : s.pendingMessages = ((countedSlots s).card + s.receiver.late) % 2 ^ 32 := h
    have hcs (r : RecvPc) (p : ℕ) :
        countedSlots { s with pendingMessages := p, receiver := r } = countedSlots s := rfl
    have hlate : RecvPc.late .decPending = 1 ∧ RecvPc.late .enter = 0 := ⟨rfl, rfl⟩
    rw [Counted, hcs]
    dsimp only
    rw [hp, hpc, syncDecrement32, hlate.1, hlate.2]
    omega
  | reset hpc | take i hpc | clearCurrent hpc | incLeast hpc =>
    exact h.congr (by rfl) (by rw [hpc]; rfl) (by rfl) (fun _ => Iff.rfl)

theorem Counted.step {a : Action} (h : Counted s) (ho : Owned calls s)
    (hs : step dest calls s a = some t) : Counted t := by
  cases a with
  | send k => exact h.send ho hs
  | receive => exact h.receive ho hs
  | setStatus v =>
    obtain ⟨f, rfl⟩ := ipcSetStatus_eq hs
    exact h.congr rfl rfl rfl (fun _ => Iff.rfl)

/-- Every state that the queue reaches, from its creation, by any interleaving of the calls. -/
def Reachable (dest : ℕ) (calls : ℕ → SendCall) (maxMessages : ℕ) (s : State) : Prop :=
  Runs.Reaches (step dest calls) Runs.anyStep (initial maxMessages) s

/-- Everything that holds between two steps of the queue. -/
structure Consistent (calls : ℕ → SendCall) (n : ℕ) (s : State) : Prop where
  owned : Owned calls s
  delivery : Delivery calls s
  counted : Counted s
  length : s.maxMessages = n

theorem step_maxMessages {a : Action} (hs : step dest calls s a = some t) :
    t.maxMessages = s.maxMessages := by
  cases a with
  | send k =>
    rcases (ipcSendMessage_cases hs).frame with hf | ⟨i, _, _, rfl⟩
    · exact hf.max
    · rfl
  | receive =>
    cases ipcReceive_cases hs <;> rfl
  | setStatus v =>
    obtain ⟨f, rfl⟩ := ipcSetStatus_eq hs
    rfl

theorem Consistent.step {n : ℕ} {a : Action} (h : Consistent calls n s)
    (hs : Ipc.step dest calls s a = some t) : Consistent calls n t :=
  ⟨h.owned.step hs, h.delivery.step h.owned hs, h.counted.step h.owned hs,
    (step_maxMessages hs).trans h.length⟩

theorem Reachable.consistent {n : ℕ} (h : Reachable dest calls n s) : Consistent calls n s := by
  apply Runs.Reaches.invariant (fun s a t hi _ hst => hi.step hst) h
  exact ⟨owned_initial calls n, delivery_initial calls n, counted_initial n, rfl⟩

/-- The call `k` has made its message pending. -/
def Sent (s : State) (k : ℕ) : Prop := (s.senders k).stage = .posted

/-- No `IpcSendMessage` call stands between claiming a slot and making it pending, and the receiver
stands between two of its calls. -/
def Quiet (s : State) : Prop :=
  (∀ k i, (s.senders k).stage ≠ .filling i) ∧ (s.receiver = .enter ∨ s.receiver = .dispatch)

/-- A sent message is delivered, or pending in its own slot with the body it was sent with. -/
theorem Consistent.sent_cases {n : ℕ} (h : Consistent calls n s) (hk : Sent s k) :
    k ∈ deliveredCalls s ∨ ∃ i, Owns s k i ∧ (s.header i).pending = true ∧
      (s.messages i).body = (calls k).body := by
  have hc := h.owned.call k
  by_cases hd : s.history.dispatched k = true
  · exact Or.inl ((h.delivery.mem k).mpr (Or.inl hd))
  · obtain ⟨i, hi⟩ := hc.posted hk
    have hown : Owns s k i := ⟨hi, Bool.eq_false_iff.mpr hd⟩
    rcases hc.pending hk i hown with hp | hr
    · exact Or.inr ⟨i, hown, hp, hc.body hk i hown⟩
    · refine Or.inl ((h.delivery.mem k).mpr (Or.inr ⟨i, hown, ?_⟩))
      rw [activeSlot, hr]
      exact h.owned.slot_current i (by rw [hr]; rfl)

theorem Consistent.sent_of_delivered {n : ℕ} (h : Consistent calls n s)
    (hk : k ∈ deliveredCalls s) : Sent s k := by
  have hc := h.owned.call k
  rcases (h.delivery.mem k).mp hk with hd | ⟨i, hown, ha⟩
  · cases hst : (s.senders k).stage with
    | early =>
      rw [(hc.early hst).2] at hd
      cases hd
    | filling i =>
      rw [(hc.filling i hst).1.2] at hd
      cases hd
    | posted => exact hst
  · obtain ⟨k', hk', hp⟩ := h.owned.active i ha
    rw [h.owned.owns_unique hown hk']
    exact hp

theorem Consistent.quiet_pending {n : ℕ} (h : Consistent calls n s) (hn : n < 2 ^ 32)
    (hq : Quiet s) : s.pendingMessages = (setSlots s).card := by
  have hlate : s.receiver.late = 0 := by
    rcases hq.2 with hr | hr <;> rw [hr] <;> rfl
  have hslots : countedSlots s = setSlots s := by
    ext i
    rw [mem_countedSlots, setSlots, Finset.mem_filter, Finset.mem_range]
    refine and_congr_right fun _ => ⟨fun hc => hc.1, fun hs => ⟨hs, fun k hk => ?_⟩⟩
    apply hq.1 k i
    cases hpc : s.senders k <;> simp_all [SendPc.uncounted, SendPc.stage]
  have hcard : (setSlots s).card ≤ n := by
    rw [← h.length, ← Finset.card_range s.maxMessages]
    exact Finset.card_le_card (Finset.filter_subset _ _)
  have hp : s.pendingMessages = ((countedSlots s).card + s.receiver.late) % 2 ^ 32 := h.counted
  rw [hp, hslots, hlate, Nat.add_zero, Nat.mod_eq_of_lt (by omega)]

end DevOs.Ipc
