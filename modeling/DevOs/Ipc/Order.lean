import DevOs.Ipc.Progress

/-!
# The order of delivery

`IpcSendMessage` numbers its messages from `LastId` and `IpcMessageDispatch` counts them off in
`LeastId`, but `IpcGetMessage` selects the first pending slot whatever its number, and resets both
counters when it finds `PendingMessages` zero, although a call may hold a number it has not counted
yet. Order and distinct numbers are kept exactly as long as these two branches do no harm:
`keepsOrder` says so of one step, and `InOrder` is the invariant that such steps keep.
-/

namespace DevOs.Ipc

/-- The slot holds a message that has taken its `MessageId`. -/
def numbered (s : State) (i : ℕ) : Bool :=
  (s.header i).set && ((s.history.holder i).bind s.history.ticket).isSome

/-- The step is not one of the two that go wrong: a reset happens only while no message holds a
number, and without a valid hint the first pending slot is the one whose number is due. -/
def keepsOrder (s : State) : Action → Bool
  | .receive =>
    match s.receiver with
    | .reset => (List.range s.maxMessages).all (fun i => !numbered s i)
    | .select =>
      match hinted s, firstPending s 0 s.maxMessages with
      | none, some i => (s.header i).messageId == s.leastId
      | _, _ => true
    | _ => true
  | _ => true

/-- The message in the hands of the receiver is not counted off in `LeastId` yet. -/
def handed (s : State) : ℕ :=
  match s.receiver with
  | .clearCurrent | .incLeast => 1
  | _ => if (activeSlot s).isSome then 1 else 0

/-- The call has not taken its `MessageId`. -/
def SendPc.unnumbered : SendPc → Bool
  | .start | .scan _ | .claim _ | .lock _ | .takeId _ => true
  | _ => false

/-- Messages are delivered in the order of their tickets, and the `MessageId` of an outstanding
message is the distance of its ticket from `base`, the number of tickets at the last reset. -/
structure InOrder (s : State) (base : ℕ) : Prop where
  base_le : base + handed s ≤ s.history.delivered.length
  lastId : s.lastId = (s.history.tickets - base) % 2 ^ 64
  leastId : s.leastId = (s.history.delivered.length - handed s - base) % 2 ^ 64
  delivered : (deliveredCalls s).map s.history.ticket =
    (List.range s.history.delivered.length).map some
  ticket_lt : ∀ k n, s.history.ticket k = some n → n < s.history.tickets
  ticket_inj : ∀ k k' n, s.history.ticket k = some n → s.history.ticket k' = some n → k = k'
  ticket_surj : ∀ n < s.history.tickets, ∃ k, s.history.ticket k = some n
  unnumbered : ∀ k, (s.senders k).unnumbered = true ↔ s.history.ticket k = none
  messageId : ∀ k i n, Owns s k i → s.history.ticket k = some n →
    base ≤ n ∧ (s.header i).messageId = (n - base) % 2 ^ 64

theorem inOrder_initial (n : ℕ) : InOrder (initial n) 0 := by
  constructor <;> simp [initial, handed, activeSlot, deliveredCalls, SendPc.unnumbered]

variable {dest : ℕ} {calls : ℕ → SendCall} {s t : State} {k base n : ℕ}

theorem InOrder.ticket_of_delivered (h : InOrder s base) (hk : k ∈ deliveredCalls s) :
    ∃ m < s.history.delivered.length, s.history.ticket k = some m := by
  have hm : s.history.ticket k ∈ (deliveredCalls s).map s.history.ticket := List.mem_map_of_mem hk
  rw [h.delivered, List.mem_map] at hm
  obtain ⟨m, hm, he⟩ := hm
  exact ⟨m, List.mem_range.mp hm, he.symm⟩

theorem InOrder.delivered_of_lt (h : InOrder s base) {m : ℕ} (hk : s.history.ticket k = some m)
    (hm : m < s.history.delivered.length) : k ∈ deliveredCalls s := by
  have hs : some m ∈ (List.range s.history.delivered.length).map some :=
    List.mem_map_of_mem (List.mem_range.mpr hm)
  rw [← h.delivered, List.mem_map] at hs
  obtain ⟨k', hk', he⟩ := hs
  rw [h.ticket_inj k k' m hk he]
  exact hk'

theorem InOrder.owns_of_ticket (h : InOrder s base) (hc : Consistent calls n s) {m : ℕ}
    (hk : s.history.ticket k = some m) (hd : k ∉ deliveredCalls s) : ∃ i, Owns s k i := by
  have hdone : s.history.dispatched k = false := by
    by_contra hne
    exact hd ((hc.delivery.mem k).mpr (Or.inl (by simpa using hne)))
  have hcall := hc.owned.call k
  cases hst : (s.senders k).stage with
  | early =>
    have hu : (s.senders k).unnumbered = true := by
      cases hpc : s.senders k <;> simp_all [SendPc.stage, SendPc.unnumbered]
    rw [(h.unnumbered k).mp hu] at hk
    cases hk
  | filling i => exact ⟨i, (hcall.filling i hst).1⟩
  | posted =>
    obtain ⟨i, hi⟩ := hcall.posted hst
    exact ⟨i, hi, hdone⟩

/-- The tickets given out and not delivered are at most as many as there are slots. -/
theorem InOrder.outstanding_le (h : InOrder s base) (hc : Consistent calls n s) :
    s.history.tickets ≤ s.history.delivered.length + n := by
  classical
  by_contra hlt
  have hex (j : ℕ) (hj : j < n + 1) :
      ∃ i k, i < n ∧ Owns s k i ∧ s.history.ticket k = some (s.history.delivered.length + j) := by
    obtain ⟨k, hk⟩ := h.ticket_surj (s.history.delivered.length + j) (by omega)
    have hd : k ∉ deliveredCalls s := by
      intro hd
      obtain ⟨m, hm, he⟩ := h.ticket_of_delivered hd
      rw [hk] at he
      cases he
      omega
    obtain ⟨i, hi⟩ := h.owns_of_ticket hc hk hd
    exact ⟨i, k, hc.length ▸ (hc.owned.owner k i hi).1, hi, hk⟩
  choose! f g hf using hex
  obtain ⟨a, ha, b, hb, hab, he⟩ := Finset.exists_ne_map_eq_of_card_lt_of_maps_to
    (s := Finset.range (n + 1)) (t := Finset.range n) (f := f) (by simp)
    (fun j hj => Finset.mem_coe.mpr (Finset.mem_range.mpr (hf j (by simpa using hj)).1))
  rw [Finset.mem_range] at ha hb
  have hga := (hf a ha).2
  have hgb := (hf b hb).2
  rw [← he] at hgb
  rw [hc.owned.owns_unique hgb.1 hga.1, hga.2] at hgb
  have := Option.some.inj hgb.2
  omega

theorem InOrder.congr (h : InOrder s base) (hlast : t.lastId = s.lastId)
    (hleast : t.leastId = s.leastId) (hd : t.history.delivered = s.history.delivered)
    (htk : t.history.tickets = s.history.tickets) (ht : t.history.ticket = s.history.ticket)
    (hh : handed t = handed s)
    (hu : ∀ k, (t.senders k).unnumbered = (s.senders k).unnumbered)
    (hid : ∀ k i m, Owns t k i → s.history.ticket k = some m →
      Owns s k i ∧ (t.header i).messageId = (s.header i).messageId) : InOrder t base := by
  constructor
  · rw [hh, hd]
    exact h.base_le
  · rw [hlast, htk]
    exact h.lastId
  · rw [hleast, hh, hd]
    exact h.leastId
  · rw [deliveredCalls, hd, ht]
    exact h.delivered
  · rw [ht, htk]
    exact h.ticket_lt
  · rw [ht]
    exact h.ticket_inj
  · rw [ht, htk]
    exact h.ticket_surj
  · intro k
    rw [hu, ht]
    exact h.unnumbered k
  · intro k i m hk hm
    rw [ht] at hm
    obtain ⟨hk', he⟩ := hid k i m hk hm
    rw [he]
    exact h.messageId k i m hk' hm

theorem RecvPc.ne_of_seeking {pc : RecvPc} (h : pc.seeking = true) :
    pc ≠ .clearCurrent ∧ pc ≠ .incLeast := by
  cases pc <;> simp_all [RecvPc.seeking]

theorem handed_of_active (ha : activeSlot t = activeSlot s)
    (ht : t.receiver ≠ .clearCurrent ∧ t.receiver ≠ .incLeast)
    (hs : s.receiver ≠ .clearCurrent ∧ s.receiver ≠ .incLeast) : handed t = handed s := by
  have hplain (u : State) (hu : u.receiver ≠ .clearCurrent ∧ u.receiver ≠ .incLeast) :
      handed u = if (activeSlot u).isSome then 1 else 0 := by
    rw [handed]
    split <;> simp_all
  rw [hplain t ht, hplain s hs, ha]

theorem handed_congr (hr : t.receiver = s.receiver) (hc : t.currentMessage = s.currentMessage) :
    handed t = handed s := by
  rw [handed, handed, activeSlot, activeSlot, hr, hc]

theorem InOrder.base_le_tickets (h : InOrder s base) : base ≤ s.history.tickets := by
  have hb := h.base_le
  by_cases hz : s.history.delivered.length = 0
  · omega
  · have hm : some (s.history.delivered.length - 1) ∈ (deliveredCalls s).map s.history.ticket := by
      rw [h.delivered]
      exact List.mem_map_of_mem (List.mem_range.mpr (by omega))
    obtain ⟨k', _, hk'⟩ := List.mem_map.mp hm
    have := h.ticket_lt k' _ hk'
    omega

theorem InOrder.takeId {i : ℕ} (h : InOrder s base) (hc : Consistent calls n s)
    (hpc : s.senders k = .takeId i) (hf : SendFrame s t k)
    (hpc' : t.senders k = .count i) (hlast : t.lastId = increment64 s.lastId)
    (hleast : t.leastId = s.leastId) (htk : t.history.tickets = s.history.tickets + 1)
    (ht : t.history.ticket = Function.update s.history.ticket k (some s.history.tickets))
    (hid : (t.header i).messageId = s.lastId)
    (hother : ∀ j, j ≠ i → t.header j = s.header j) : InOrder t base := by
  have hdel : t.history.delivered = s.history.delivered := hf.delivered
  have hh : handed t = handed s := handed_congr hf.receiver hf.current
  have hnone : s.history.ticket k = none := (h.unnumbered k).mp (by rw [hpc]; rfl)
  have hnew : k ∉ deliveredCalls s := by
    intro hk
    obtain ⟨m, _, hm⟩ := h.ticket_of_delivered hk
    rw [hnone] at hm
    cases hm
  have htk' (k' : ℕ) (he : k' ≠ k) : t.history.ticket k' = s.history.ticket k' := by
    rw [ht, Function.update_of_ne he]
  have htkk : t.history.ticket k = some s.history.tickets := by rw [ht, Function.update_self]
  have hold (k' m : ℕ) (hk' : t.history.ticket k' = some m) :
      k' = k ∧ m = s.history.tickets ∨ k' ≠ k ∧ s.history.ticket k' = some m := by
    by_cases he : k' = k
    · rw [he, htkk] at hk'
      exact Or.inl ⟨he, (Option.some.inj hk').symm⟩
    · exact Or.inr ⟨he, by rw [← htk' k' he, hk']⟩
  have howner := ((hc.owned.call k).filling i (by rw [hpc]; rfl)).1
  constructor
  · rw [hh, hdel]
    exact h.base_le
  · rw [hlast, htk, h.lastId, increment64]
    have := h.base_le_tickets
    omega
  · rw [hleast, hh, hdel]
    exact h.leastId
  · rw [deliveredCalls, hdel, ← h.delivered]
    apply List.map_congr_left
    intro k' hk'
    exact htk' k' (fun he => hnew (he ▸ hk'))
  · intro k' m hk'
    rw [htk]
    rcases hold k' m hk' with ⟨-, rfl⟩ | ⟨-, hm⟩
    · omega
    · exact Nat.lt_succ_of_lt (h.ticket_lt k' m hm)
  · intro k₁ k₂ m h₁ h₂
    rcases hold k₁ m h₁ with ⟨rfl, rfl⟩ | ⟨-, h₁⟩ <;> rcases hold k₂ _ h₂ with ⟨rfl, he⟩ | ⟨-, h₂⟩
    · rfl
    · exact absurd (h.ticket_lt k₂ _ h₂) (Nat.lt_irrefl _)
    · exact absurd (he ▸ h.ticket_lt k₁ m h₁) (Nat.lt_irrefl _)
    · exact h.ticket_inj k₁ k₂ m h₁ h₂
  · intro m hm
    rw [htk] at hm
    by_cases he : m = s.history.tickets
    · exact ⟨k, by rw [htkk, he]⟩
    · obtain ⟨k', hk'⟩ := h.ticket_surj m (by omega)
      have hne : k' ≠ k := by
        rintro rfl
        rw [hnone] at hk'
        cases hk'
      exact ⟨k', by rw [htk' k' hne, hk']⟩
  · intro k'
    by_cases he : k' = k
    · rw [he, hpc', htkk]
      simp [SendPc.unnumbered]
    · rw [hf.others k' he, htk' k' he]
      exact h.unnumbered k'
  · intro k' j m hk' hm
    have hown : Owns s k' j := (hf.owns k' j).mp hk'
    rcases hold k' m hm with ⟨rfl, rfl⟩ | ⟨he, hm'⟩
    · have hji : j = i := by
        have hj := hown.1
        rw [howner.1] at hj
        exact (Option.some.inj hj).symm
      rw [hji, hid]
      exact ⟨h.base_le_tickets, h.lastId⟩
    · have hji : j ≠ i := by
        rintro rfl
        exact he (hc.owned.owns_unique hown howner)
      rw [hother j hji]
      exact h.messageId k' j m hown hm'

theorem InOrder.claim {i : ℕ} (h : InOrder s base) (hpc : s.senders k = .claim i) :
    InOrder (claimSlot s k i) base := by
  refine h.congr (by rfl) (by rfl) (by rfl) (by rfl) (by rfl) (by rfl) ?_ ?_
  · intro k'
    rw [senders_claimSlot]
    split_ifs with he
    · rw [he, hpc]
      rfl
    · rfl
  · intro k' j m hk' hm
    have he : k' ≠ k := by
      rintro rfl
      rw [(h.unnumbered k').mp (by rw [hpc]; rfl)] at hm
      cases hm
    have hown : Owns s k' j := by
      obtain ⟨hj, hd⟩ := hk'
      exact ⟨(Function.update_of_ne he _ _).symm.trans hj, hd⟩
    refine ⟨hown, ?_⟩
    rw [header_claimSlot]
    split_ifs with hji
    · rw [hji]
    · rfl

theorem SendPc.unnumbered_of_early {pc : SendPc} (h : pc.stage = .early) :
    pc.unnumbered = true := by
  cases pc <;> first | rfl | cases h

theorem InOrder.send (h : InOrder s base) (hc : Consistent calls n s)
    (hs : ipcSendMessage dest calls s k = some t) : InOrder t base := by
  have hstep := ipcSendMessage_cases hs
  rcases hstep.frame with hf | ⟨i, hpc, hset, rfl⟩
  swap
  · exact h.claim hpc
  -- every step but taking a number leaves all numbers alone
  have hkeep (hlast : t.lastId = s.lastId) (hleast : t.leastId = s.leastId)
      (htk : t.history.tickets = s.history.tickets) (ht : t.history.ticket = s.history.ticket)
      (hu : (t.senders k).unnumbered = (s.senders k).unnumbered)
      (hid : ∀ j, (t.header j).messageId = (s.header j).messageId) : InOrder t base := by
    refine h.congr hlast hleast hf.delivered htk ht (handed_congr hf.receiver hf.current) ?_
      (fun k' j m hk' _ => ⟨(hf.owns k' j).mp hk', hid j⟩)
    intro k'
    by_cases he : k' = k
    · rw [he, hu]
    · rw [hf.others k' he]
  cases hstep with
  | spin => exact h
  | search pc hpc hpc' =>
    refine hkeep rfl rfl rfl rfl ?_ (fun _ => rfl)
    rw [senders_setPc, SendPc.unnumbered_of_early hpc', SendPc.unnumbered_of_early hpc]
  | claim i hpc => exact h.claim hpc
  | takeId i hpc =>
    refine h.takeId hc hpc hf (by simp) rfl rfl rfl rfl ?_ ?_
    · change ((s.setHeader i _).header i).messageId = _
      rw [State.header_setHeader, if_pos rfl]
    · intro j hj
      change (s.setHeader i _).header j = _
      rw [State.header_setHeader, if_neg hj]
  | fill i hpc =>
    refine hkeep rfl rfl rfl rfl (by simp [hpc, SendPc.unnumbered]) ?_
    intro j
    change ((s.setMessage i _).messages j).header.messageId = _
    rw [State.messages_setMessage]
    split_ifs with hji
    · rw [hji]
      rfl
    · rfl
  | pend i hpc =>
    refine hkeep rfl rfl rfl rfl (by simp [hpc, SendPc.unnumbered]) ?_
    intro j
    change ((s.setHeader i _).header j).messageId = _
    rw [State.header_setHeader]
    split_ifs with hji
    · rw [hji]
    · rfl
  | hint i hpc =>
    refine hkeep rfl rfl rfl rfl ?_ (fun _ => rfl)
    simp only [senders_setPc, hpc]
    split_ifs <;> rfl
  | lock i hpc | count i hpc | wait i hpc =>
    exact hkeep rfl rfl rfl rfl (by simp [hpc, SendPc.unnumbered]) (fun _ => rfl)

theorem selectedMessage_due {i : ℕ} (hr : s.receiver = .select)
    (hg : keepsOrder s .receive = true) (hi : selectedMessage s = some i) :
    (s.header i).messageId = s.leastId := by
  rw [selectedMessage] at hi
  cases hh : hinted s with
  | some j =>
    rw [hh] at hi
    cases hi
    exact (hinted_some hh).2
  | none =>
    rw [hh] at hi
    simp only [keepsOrder, hr, hh, hi] at hg
    exact beq_iff_eq.mp hg

theorem InOrder.acquire {i : ℕ} (h : InOrder s base) (hc : Consistent calls n s) (hn : n < 2 ^ 32)
    (hr : s.receiver = .select) (hi : (s.header i).pending = true)
    (hdue : (s.header i).messageId = s.leastId) : InOrder (acquire s i) base := by
  obtain ⟨k, hk, hkp⟩ := hc.owned.posted_of_pending hi
  have hact : activeSlot s = none := by rw [activeSlot, hr]
  have hh : handed s = 0 := by simp only [handed, hr, hact]; rfl
  have hnew : k ∉ deliveredCalls s := by
    rw [hc.delivery.mem k, hk.2]
    rintro (hd | ⟨j, _, hj⟩)
    · cases hd
    · rw [hact] at hj
      cases hj
  have hdel : (Ipc.acquire s i).history.delivered =
      s.history.delivered ++ [(k, (s.messages i).body)] := by
    simp [Ipc.acquire, (hc.owned.owner k i hk).2.2]
  have hlen : (Ipc.acquire s i).history.delivered.length = s.history.delivered.length + 1 := by
    rw [hdel, List.length_append, List.length_singleton]
  have hh' : handed (Ipc.acquire s i) = 1 := rfl
  have hticket : s.history.ticket k = some s.history.delivered.length := by
    cases hm : s.history.ticket k with
    | none =>
      have hu := (h.unnumbered k).mpr hm
      cases hpc : s.senders k <;> simp_all [SendPc.stage, SendPc.unnumbered]
    | some m =>
      have hle := h.outstanding_le hc
      have hlt := h.ticket_lt k m hm
      have hge : s.history.delivered.length ≤ m := by
        by_contra hlt'
        exact hnew (h.delivered_of_lt hm (by omega))
      obtain ⟨hb, hid⟩ := h.messageId k i m hk hm
      rw [hdue, h.leastId, hh] at hid
      have hb' := h.base_le
      congr 1
      omega
  constructor
  · have hb := h.base_le
    omega
  · exact h.lastId
  · rw [hlen, hh']
    have hl := h.leastId
    rw [hh] at hl
    exact hl
  · rw [hlen, List.range_succ, List.map_append, ← h.delivered, deliveredCalls, hdel,
      List.map_append, List.map_append]
    congr 1
    simp only [List.map_cons, List.map_nil, List.cons.injEq, and_true]
    exact hticket
  · exact h.ticket_lt
  · exact h.ticket_inj
  · exact h.ticket_surj
  · exact h.unnumbered
  · exact h.messageId

theorem InOrder.reset (h : InOrder s base) (hc : Consistent calls n s) (hr : s.receiver = .reset)
    (hg : keepsOrder s .receive = true) :
    InOrder { s with receiver := .waitPending, accessLocked := false, lastId := 0, leastId := 0 }
      s.history.tickets := by
  have hnone (k i m : ℕ) (hk : Owns s k i) : s.history.ticket k ≠ some m := by
    intro hm
    obtain ⟨hlt, hset, hholder⟩ := hc.owned.owner k i hk
    simp only [keepsOrder, hr, List.all_eq_true, List.mem_range] at hg
    have hi := hg i hlt
    simp [numbered, hset, hholder, hm] at hi
  have hall : s.history.delivered.length = s.history.tickets := by
    rcases Nat.lt_trichotomy s.history.delivered.length s.history.tickets with hlt | he | hgt
    · obtain ⟨k, hk⟩ := h.ticket_surj _ hlt
      have hd : k ∉ deliveredCalls s := by
        intro hd
        obtain ⟨m, hm, he⟩ := h.ticket_of_delivered hd
        rw [hk] at he
        cases he
        omega
      obtain ⟨i, hi⟩ := h.owns_of_ticket hc hk hd
      exact absurd hk (hnone k i _ hi)
    · exact he
    · have hm : some s.history.tickets ∈ (deliveredCalls s).map s.history.ticket := by
        rw [h.delivered]
        exact List.mem_map_of_mem (List.mem_range.mpr hgt)
      obtain ⟨k, _, hk⟩ := List.mem_map.mp hm
      exact absurd (h.ticket_lt k _ hk) (Nat.lt_irrefl _)
  constructor
  · change s.history.tickets + 0 ≤ s.history.delivered.length
    omega
  · change 0 = (s.history.tickets - s.history.tickets) % 2 ^ 64
    omega
  · change 0 = (s.history.delivered.length - 0 - s.history.tickets) % 2 ^ 64
    omega
  · exact h.delivered
  · exact h.ticket_lt
  · exact h.ticket_inj
  · exact h.ticket_surj
  · exact h.unnumbered
  · intro k i m hk hm
    exact absurd hm (hnone k i m hk)

theorem InOrder.incLeast (h : InOrder s base) (hr : s.receiver = .incLeast) :
    InOrder { s with leastId := increment64 s.leastId, receiver := .decPending } base := by
  have hh : handed s = 1 := by simp only [handed, hr]
  have hb := h.base_le
  have hl := h.leastId
  rw [hh] at hb hl
  refine ⟨?_, h.lastId, ?_, h.delivered, h.ticket_lt, h.ticket_inj, h.ticket_surj, h.unnumbered,
    h.messageId⟩
  · change base + 0 ≤ s.history.delivered.length
    omega
  · change increment64 s.leastId = (s.history.delivered.length - 0 - base) % 2 ^ 64
    rw [hl, increment64]
    omega

theorem InOrder.clearPending {i : ℕ} (h : InOrder s base) (hr : s.receiver = .clearPending i) :
    InOrder (unpendSlot s i) base := by
  refine h.congr (by rfl) (by rfl) (by rfl) (by rfl) (by rfl) ?_ (fun _ => rfl) ?_
  · simp only [handed, activeSlot, hr]
    rfl
  · intro k j m hk _
    refine ⟨hk, ?_⟩
    rw [header_unpendSlot]
    split_ifs with hji
    · rw [hji]
    · rfl

theorem InOrder.release {i : ℕ} (h : InOrder s base) (hc : Consistent calls n s)
    (hr : s.receiver = .clearSet i) : InOrder (releaseSlot s i) base := by
  have hcur := hc.owned.slot_current i (by rw [hr]; rfl)
  obtain ⟨k₀, hk₀, _⟩ := hc.owned.active i (by rw [activeSlot, hr]; exact hcur)
  refine h.congr (by rfl) (by rfl) (by rfl) (by rfl) (by rfl) ?_ (fun _ => rfl) ?_
  · simp only [handed, activeSlot, hr, hcur]
    rfl
  · intro k j m hk _
    obtain ⟨hj, hd⟩ := hk
    rw [dispatched_releaseSlot (hc.owned.owner k₀ i hk₀).2.2] at hd
    split_ifs at hd
    refine ⟨⟨hj, hd⟩, ?_⟩
    rw [header_releaseSlot]
    split_ifs with hji
    · rw [hji]
    · rfl

theorem InOrder.receive (h : InOrder s base) (hc : Consistent calls n s) (hn : n < 2 ^ 32)
    (hg : keepsOrder s .receive = true) (hs : ipcReceive s = some t) :
    ∃ base', InOrder t base' := by
  have hkeep (hlast : t.lastId = s.lastId) (hleast : t.leastId = s.leastId)
      (hh : handed t = handed s) (hf : RecvFrame s t)
      (hd : t.history.delivered = s.history.delivered)
      (htk : t.history.tickets = s.history.tickets) (ht : t.history.ticket = s.history.ticket) :
      ∃ base', InOrder t base' :=
    ⟨base, h.congr hlast hleast hd htk ht hh (fun k => by rw [hf.senders])
      (fun k i _ hk _ => ⟨(hf.owns k i).mp hk, by rw [hf.header]⟩)⟩
  cases ipcReceive_cases hs with
  | spin => exact ⟨base, h⟩
  | seek pc locked hint hpc hpc' hact =>
    have hh : handed { s with receiver := pc } = handed s :=
      handed_of_active hact (RecvPc.ne_of_seeking hpc') (RecvPc.ne_of_seeking hpc)
    exact hkeep rfl rfl hh ⟨rfl, rfl, rfl, rfl, rfl, rfl⟩ rfl rfl rfl
  | reset hpc => exact ⟨_, h.reset hc hpc hg⟩
  | take i hpc hi =>
    exact ⟨base, h.acquire hc hn hpc (selectedMessage_pending hi) (selectedMessage_due hpc hg hi)⟩
  | clearPending i hpc => exact ⟨base, h.clearPending hpc⟩
  | clearSet i hpc => exact ⟨base, h.release hc hpc⟩
  | clearCurrent hpc =>
    exact hkeep rfl rfl (by simp [handed, hpc]) ⟨rfl, rfl, rfl, rfl, rfl, rfl⟩ rfl rfl rfl
  | incLeast hpc => exact ⟨base, h.incLeast hpc⟩
  | decPending hpc =>
    have hcur := hc.owned.empty_current (by rw [hpc]; rfl)
    exact hkeep rfl rfl (by simp [handed, activeSlot, hpc, hcur])
      ⟨rfl, rfl, rfl, rfl, rfl, rfl⟩ rfl rfl rfl

theorem InOrder.step {a : Action} (h : InOrder s base) (hc : Consistent calls n s) (hn : n < 2 ^ 32)
    (hg : keepsOrder s a = true) (hs : step dest calls s a = some t) :
    ∃ base', InOrder t base' := by
  cases a with
  | send k => exact ⟨base, h.send hc hs⟩
  | receive => exact h.receive hc hn hg hs
  | setStatus v =>
    obtain ⟨f, rfl⟩ := ipcSetStatus_eq hs
    exact ⟨base, h.congr rfl rfl rfl rfl rfl rfl (fun _ => rfl) (fun _ _ _ hk _ => ⟨hk, rfl⟩)⟩

/-- Every state reached by steps none of which is one of the two that go wrong. -/
def ReachableInOrder (dest : ℕ) (calls : ℕ → SendCall) (maxMessages : ℕ) (s : State) : Prop :=
  Runs.Reaches (step dest calls) (fun s a => keepsOrder s a = true) (initial maxMessages) s

theorem ReachableInOrder.inOrder (hn : n < 2 ^ 32) (hs : ReachableInOrder dest calls n s) :
    Consistent calls n s ∧ ∃ base, InOrder s base := by
  apply Runs.Reaches.invariant (fun s a t hi hg hst => ?_) hs
  · exact ⟨⟨owned_initial calls n, delivery_initial calls n, counted_initial n, rfl⟩, 0,
      inOrder_initial n⟩
  · obtain ⟨hc, base, h⟩ := hi
    exact ⟨hc.step hst, h.step hc hn hg hst⟩

/-- The message of the call `k` is outstanding and its `MessageId` is `m`. -/
def CarriesId (s : State) (k m : ℕ) : Prop :=
  ∃ i, Owns s k i ∧ (s.history.ticket k).isSome ∧ (s.header i).messageId = m

/-- The messages returned so far are those that took their `MessageId` first, in that order, and
outstanding messages have different numbers. -/
structure OrderKept (s : State) : Prop where
  tickets : (deliveredCalls s).map s.history.ticket =
    (List.range s.history.delivered.length).map some
  ids : ∀ k k' m, CarriesId s k m → CarriesId s k' m → k = k'

theorem InOrder.carriesId_inj (h : InOrder s base) (hc : Consistent calls n s) (hn : n < 2 ^ 32)
    {k k' m : ℕ} (hk : CarriesId s k m) (hk' : CarriesId s k' m) : k = k' := by
  obtain ⟨i, hi, ht, hid⟩ := hk
  obtain ⟨i', hi', ht', hid'⟩ := hk'
  obtain ⟨a, ha⟩ := Option.isSome_iff_exists.mp ht
  obtain ⟨b, hb⟩ := Option.isSome_iff_exists.mp ht'
  have hrecent {k i a : ℕ} (hi : Owns s k i) (ha : s.history.ticket k = some a) :
      s.history.delivered.length ≤ a + 1 := by
    by_cases hd : k ∈ deliveredCalls s
    · rcases (hc.delivery.mem k).mp hd with hdone | hact
      · rw [hi.2] at hdone
        cases hdone
      · have hlast := congrArg (Option.map s.history.ticket) (hc.delivery.last k hact)
        rw [← List.getLast?_map, h.delivered, Option.map_some, ha, List.getLast?_map,
          Option.map_eq_some_iff] at hlast
        obtain ⟨m, hm, he⟩ := hlast
        rw [Option.some.inj he, List.getLast?_range] at hm
        split_ifs at hm
        have := Option.some.inj hm
        omega
    · by_contra hlt
      exact hd (h.delivered_of_lt ha (by omega))
  have hle := h.outstanding_le hc
  have hda := hrecent hi ha
  have hdb := hrecent hi' hb
  have hla := h.ticket_lt k a ha
  have hlb := h.ticket_lt k' b hb
  obtain ⟨hba, hia⟩ := h.messageId k i a hi ha
  obtain ⟨hbb, hib⟩ := h.messageId k' i' b hi' hb
  rw [hid] at hia
  rw [hid'] at hib
  have hab : a = b := by omega
  exact h.ticket_inj k k' a ha (hab ▸ hb)

/-- In every interleaving whose steps never reset the counters while a message holds a number, and
never fall back on a pending slot whose number is not due, the order is kept. -/
theorem ipc_order_kept (dest : ℕ) (calls : ℕ → SendCall) (maxMessages : ℕ)
    (hmax : maxMessages < 2 ^ 32) (s : State) (hs : ReachableInOrder dest calls maxMessages s) :
    OrderKept s := by
  obtain ⟨hc, base, h⟩ := hs.inOrder hmax
  exact ⟨h.delivered, fun k k' m hk hk' => h.carriesId_inj hc hmax hk hk'⟩

def oneCall : ℕ → SendCall := fun _ => ⟨1, none, true, ⟨7, 0, 0⟩⟩

def orderedRun : List Action :=
  List.replicate 9 (Action.send 0) ++ List.replicate 10 (Action.send 1) ++
    List.replicate 14 Action.receive

theorem ipc_order_kept_two_calls : ∃ s, ReachableInOrder 0 oneCall 50 s ∧
    deliveredCalls s = [0, 1] ∧ OrderKept s := by
  have hrun : (Runs.guardedRun (step 0 oneCall) (fun s a => keepsOrder s a = true) (initial 50)
      orderedRun).map deliveredCalls = some [0, 1] := by decide
  obtain ⟨s, hs, hd⟩ := Option.map_eq_some_iff.mp hrun
  have hr : ReachableInOrder 0 oneCall 50 s := Runs.reaches_of_guardedRun _ hs
  exact ⟨s, hr, hd, ipc_order_kept 0 oneCall 50 (by decide) s hr⟩

/-- Calls executed one after another: two sends, a receive and its dispatch, a send that takes the
slot just released, and a receive that returns it before the second message. -/
def overtakingRun : List Action :=
  List.replicate 9 (Action.send 0) ++ List.replicate 10 (Action.send 1) ++
    List.replicate 10 Action.receive ++
    List.replicate 9 (Action.send 2) ++ List.replicate 4 Action.receive

/-- A reset between the moments in which a call takes its number and counts itself. -/
def resettingRun : List Action :=
  List.replicate 5 (Action.send 0) ++ List.replicate 4 Action.receive ++ List.replicate 6
    (Action.send 1)

theorem ipc_order_broken :
    (∃ s, Reachable 0 oneCall 50 s ∧ ¬ OrderKept s ∧
      (deliveredCalls s).map s.history.ticket = [some 0, some 2]) ∧
    (∃ s, Reachable 0 oneCall 50 s ∧ ¬ OrderKept s ∧ CarriesId s 0 0 ∧ CarriesId s 1 0) := by
  constructor
  · have hrun : (Runs.guardedRun (step 0 oneCall) Runs.anyStep (initial 50) overtakingRun).map
        (fun s => ((deliveredCalls s).map s.history.ticket, s.history.delivered.length)) =
        some ([some 0, some 2], 2) := by decide
    obtain ⟨s, hs, hd⟩ := Option.map_eq_some_iff.mp hrun
    obtain ⟨ht, hl⟩ := Prod.mk.inj hd
    refine ⟨s, Runs.reaches_of_guardedRun _ hs, ?_, ht⟩
    intro hk
    have he := hk.tickets
    rw [ht, hl] at he
    revert he
    decide
  · have hrun : (Runs.guardedRun (step 0 oneCall) Runs.anyStep (initial 50) resettingRun).map
        (fun s => (([0, 1].map s.history.slotOf, [0, 1].map s.history.dispatched),
          [0, 1].map s.history.ticket, [0, 1].map (fun i => (s.header i).messageId))) =
        some (([some 0, some 1], [false, false]), [some 0, some 1], [0, 0]) := by decide
    obtain ⟨s, hs, hd⟩ := Option.map_eq_some_iff.mp hrun
    simp only [List.map_cons, List.map_nil, Prod.mk.injEq, List.cons.injEq, and_true] at hd
    obtain ⟨⟨⟨hs₀, hs₁⟩, hd₀, hd₁⟩, ⟨ht₀, ht₁⟩, hm₀, hm₁⟩ := hd
    have h₀ : CarriesId s 0 0 := ⟨0, ⟨hs₀, hd₀⟩, by rw [ht₀]; rfl, hm₀⟩
    have h₁ : CarriesId s 1 0 := ⟨1, ⟨hs₁, hd₁⟩, by rw [ht₁]; rfl, hm₁⟩
    refine ⟨s, Runs.reaches_of_guardedRun _ hs, ?_, h₀, h₁⟩
    intro hk
    exact absurd (hk.ids 0 1 0 h₀ h₁) (by decide)

end DevOs.Ipc
