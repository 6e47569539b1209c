import DevOs.Ipc.Delivery

/-!
# Every sent message is returned

The receiver alone, cycling through `IpcGetMessage` and `IpcMessageDispatch`, returns every message
that was made pending: the pending slots, and after them the place of the receiver in its cycle,
decrease with every step as long as some sent message is not returned.
-/

namespace DevOs.Ipc

variable {dest : ℕ} {calls : ℕ → SendCall} {s t : State} {k n : ℕ}

def pendingSlots (s : State) : Finset ℕ :=
  {i ∈ Finset.range s.maxMessages | (s.header i).pending = true}

/-- How many steps the receiver is at most away from clearing the next `Header.Pending`. -/
def RecvPc.stepsToClear (current : Bool) : RecvPc → ℕ
  | .clearSet _ => 11
  | .clearCurrent => 10
  | .incLeast => 9
  | .decPending => 8
  | .enter => 7
  | .testEmpty => 6
  | .lockReset => 5
  | .reset => 4
  | .waitPending => 3
  | .select => 2
  | .dispatch => if current then 1 else 8
  | .clearPending _ => 0

def backlog (s : State) : ℕ :=
  12 * (pendingSlots s).card + s.receiver.stepsToClear s.currentMessage.isSome

theorem Consistent.pendingMessages_ne_zero (h : Consistent calls n s) (hn : n < 2 ^ 32)
    (hl : s.receiver.late = 0) (hk : Sent s k) {i : ℕ} (hi : Owns s k i) :
    s.pendingMessages ≠ 0 := by
  obtain ⟨hlt, hset, _⟩ := h.owned.owner k i hi
  have hmem : i ∈ countedSlots s := by
    refine mem_countedSlots.mpr ⟨hlt, hset, fun k' hk' => ?_⟩
    have he := h.owned.owns_unique ((h.owned.call k').owns_of_uncounted hk') hi
    rw [he] at hk'
    have hst : (s.senders k).stage = .posted := hk
    cases hpc : s.senders k <;> simp_all [SendPc.uncounted, SendPc.stage]
  have hpos : 0 < (countedSlots s).card := Finset.card_pos.mpr ⟨i, hmem⟩
  have hcard : (countedSlots s).card ≤ n := by
    rw [← h.length, ← Finset.card_range s.maxMessages]
    exact Finset.card_le_card (fun j hj => Finset.mem_range.mpr (mem_countedSlots.mp hj).1)
  have hp : s.pendingMessages = ((countedSlots s).card + s.receiver.late) % 2 ^ 32 := h.counted
  rw [hp, hl, Nat.add_zero, Nat.mod_eq_of_lt (by omega)]
  omega

theorem pendingSlots_congr (hmax : t.maxMessages = s.maxMessages)
    (hm : t.messages = s.messages) : pendingSlots t = pendingSlots s := by
  ext i
  rw [pendingSlots, pendingSlots, Finset.mem_filter, Finset.mem_filter, State.header, State.header,
    hmax, hm]

theorem card_pendingSlots_unpend {i : ℕ} (hlt : i < s.maxMessages)
    (hp : (s.header i).pending = true) :
    (pendingSlots (unpendSlot s i)).card + 1 = (pendingSlots s).card := by
  have he : pendingSlots (unpendSlot s i) = (pendingSlots s).erase i := by
    ext j
    rw [Finset.mem_erase, pendingSlots, pendingSlots, Finset.mem_filter, Finset.mem_filter,
      header_unpendSlot]
    change j ∈ Finset.range s.maxMessages ∧ _ ↔ _
    by_cases hji : j = i <;> simp [hji]
  rw [he]
  exact Finset.card_erase_add_one (Finset.mem_filter.mpr ⟨Finset.mem_range.mpr hlt, hp⟩)

/-- While a sent message is not returned, the receiver has a step, and the step makes progress. -/
theorem Consistent.receive_progress (h : Consistent calls n s) (hn : n < 2 ^ 32) (hk : Sent s k)
    (hd : k ∉ deliveredCalls s) :
    ∃ t, ipcReceive s = some t ∧ t.senders = s.senders ∧ backlog t < backlog s := by
  obtain ⟨i, hi, hpend, -⟩ := (h.sent_cases hk).resolve_left hd
  have hcount (hl : s.receiver.late = 0) := h.pendingMessages_ne_zero hn hl hk hi
  have hkeep (t : State) (hc : pendingSlots t = pendingSlots s)
      (hlt : t.receiver.stepsToClear t.currentMessage.isSome <
        s.receiver.stepsToClear s.currentMessage.isSome) : backlog t < backlog s := by
    rw [backlog, backlog, hc]
    omega
  cases hr : s.receiver with
  | clearPending j =>
    obtain ⟨k₀, hk₀, hp₀⟩ := h.owned.active j (by
      rw [activeSlot, hr]
      exact h.owned.slot_current j (by rw [hr]; rfl))
    have hpj : (s.header j).pending = true := by
      rcases (h.owned.call k₀).pending hp₀ j hk₀ with hp | hc
      · exact hp
      · rw [hr] at hc
        cases hc
    have hcard := card_pendingSlots_unpend (h.owned.owner k₀ j hk₀).1 hpj
    have hclear : (unpendSlot s j).receiver.stepsToClear (unpendSlot s j).currentMessage.isSome =
      11 := rfl
    refine ⟨unpendSlot s j, by simp only [ipcReceive, hr], rfl, ?_⟩
    rw [backlog, backlog, hclear]
    omega
  | clearSet j =>
    refine ⟨releaseSlot s j, by simp only [ipcReceive, hr], rfl, hkeep _ ?_ ?_⟩
    · ext l
      rw [pendingSlots, pendingSlots, Finset.mem_filter, Finset.mem_filter, header_releaseSlot]
      change l ∈ Finset.range s.maxMessages ∧ _ ↔ _
      by_cases hl : l = j <;> simp [hl]
    · rw [hr]
      exact Nat.lt_succ_self 10
  | clearCurrent =>
    exact ⟨{ s with currentMessage := none, receiver := .incLeast }, by simp only [ipcReceive, hr],
      rfl, hkeep _ rfl (by simp [hr, RecvPc.stepsToClear])⟩
  | incLeast =>
    exact ⟨{ s with leastId := increment64 s.leastId, receiver := .decPending },
      by simp only [ipcReceive, hr], rfl, hkeep _ rfl (by simp [hr, RecvPc.stepsToClear])⟩
  | decPending =>
    refine ⟨{ s with pendingMessages := syncDecrement32 s.pendingMessages, receiver := .enter },
      by simp only [ipcReceive, hr], rfl, hkeep _ (pendingSlots_congr rfl rfl) ?_⟩
    rw [hr]
    exact Nat.lt_succ_self 7
  | enter =>
    by_cases hc : s.currentMessage.isSome = true
    · exact ⟨{ s with receiver := .dispatch }, by simp only [ipcReceive, hr, if_pos hc], rfl,
        hkeep _ rfl (by simp [hr, hc, RecvPc.stepsToClear])⟩
    · exact ⟨{ s with receiver := .testEmpty }, by simp only [ipcReceive, hr, if_neg hc], rfl,
        hkeep _ rfl (by simp [hr, RecvPc.stepsToClear])⟩
  | testEmpty =>
    exact ⟨{ s with receiver := .waitPending },
      by simp only [ipcReceive, hr, if_neg (hcount (by rw [hr]; rfl))], rfl,
      hkeep _ rfl (by simp [hr, RecvPc.stepsToClear])⟩
  | lockReset =>
    by_cases hl : s.accessLocked = true
    · exact ⟨{ s with receiver := .waitPending }, by simp only [ipcReceive, hr, if_pos hl], rfl,
        hkeep _ rfl (by simp [hr, RecvPc.stepsToClear])⟩
    · exact ⟨{ s with receiver := .reset, accessLocked := true },
        by simp only [ipcReceive, hr, if_neg hl], rfl,
        hkeep _ rfl (by simp [hr, RecvPc.stepsToClear])⟩
  | reset =>
    exact ⟨{ s with receiver := .waitPending, accessLocked := false, lastId := 0, leastId := 0 },
      by simp only [ipcReceive, hr], rfl, hkeep _ rfl (by simp [hr, RecvPc.stepsToClear])⟩
  | waitPending =>
    exact ⟨{ s with receiver := .select },
      by simp only [ipcReceive, hr, if_neg (hcount (by rw [hr]; rfl))], rfl,
      hkeep _ rfl (by simp [hr, RecvPc.stepsToClear])⟩
  | select =>
    cases hsel : selectedMessage s with
    | some j =>
      exact ⟨acquire s j, by simp only [ipcReceive, hr, hsel], rfl,
        hkeep _ rfl (by simp [hr, acquire, RecvPc.stepsToClear])⟩
    | none =>
      rw [selectedMessage_none hsel i (h.owned.owner k i hi).1] at hpend
      cases hpend
  | dispatch =>
    cases hc : s.currentMessage with
    | none =>
      exact ⟨{ s with receiver := .enter }, by simp only [ipcReceive, hr, hc], rfl,
        hkeep _ rfl (by simp [hr, hc, RecvPc.stepsToClear])⟩
    | some j =>
      exact ⟨{ s with receiver := .clearPending j },
        by simp only [ipcReceive, hr, hc, if_neg (hcount (by rw [hr]; rfl))], rfl,
        hkeep _ rfl (by simp [hr, hc, RecvPc.stepsToClear])⟩

def receiverOnly : State → Action → Prop := fun _ a => a = .receive

/-- The receiver returns every sent message without any further step of the calls. -/
theorem Consistent.eventually_delivered (dest : ℕ) (h : Consistent calls n s) (hn : n < 2 ^ 32)
    (hk : Sent s k) :
    ∃ t, Runs.Reaches (Ipc.step dest calls) receiverOnly s t ∧ k ∈ deliveredCalls t := by
  induction hb : backlog s using Nat.strong_induction_on generalizing s with
  | _ b ih =>
    by_cases hd : k ∈ deliveredCalls s
    · exact ⟨s, Runs.Reaches.refl s, hd⟩
    · obtain ⟨t, hst, hsend, hlt⟩ := h.receive_progress hn hk hd
      have hkt : Sent t k := by rw [Sent, hsend]; exact hk
      have hct : Consistent calls n t :=
        h.step (show Ipc.step dest calls s .receive = some t from hst)
      obtain ⟨u, hu, hdu⟩ := ih (backlog t) (hb ▸ hlt) hct hkt rfl
      exact ⟨u, Runs.Reaches.head (a := .receive) rfl hst hu, hdu⟩

/-- In every state of every interleaving: no message is returned twice, every returned body is the
one its call sent, every sent message is either returned or waits unmodified in its slot, from which
the receiver gets it in finitely many steps of its own, two calls never own one slot, and between
calls `PendingMessages` is the number of set slots. -/
theorem ipc_delivery_exactly_once (dest : ℕ) (calls : ℕ → SendCall) (maxMessages : ℕ)
    (hmax : maxMessages < 2 ^ 32) (s : State) (hs : Reachable dest calls maxMessages s) :
    (deliveredCalls s).Nodup ∧
    (∀ p ∈ s.history.delivered, Sent s p.1 ∧ p.2 = (calls p.1).body) ∧
    (∀ k, Sent s k → k ∉ deliveredCalls s → ∃ i < maxMessages, Owns s k i ∧
      (s.header i).pending = true ∧ (s.messages i).body = (calls k).body) ∧
    (∀ k, Sent s k → ∃ t, Runs.Reaches (step dest calls) receiverOnly s t ∧ k ∈ deliveredCalls t) ∧
    (∀ k k' i, Owns s k i → Owns s k' i → k = k') ∧
    (Quiet s → s.pendingMessages = (setSlots s).card) := by
  have h := hs.consistent
  have hrest : ∀ k, Sent s k → k ∉ deliveredCalls s → ∃ i < maxMessages, Owns s k i ∧
      (s.header i).pending = true ∧ (s.messages i).body = (calls k).body := by
    intro k hk hd
    rcases h.sent_cases hk with hdel | ⟨i, hown, hp, hb⟩
    · exact absurd hdel hd
    · exact ⟨i, h.length ▸ (h.owned.owner k i hown).1, hown, hp, hb⟩
  refine ⟨h.delivery.nodup, ?_, hrest, fun k hk => h.eventually_delivered dest hmax hk,
    fun k k' i hk hk' => h.owned.owns_unique hk hk', h.quiet_pending hmax⟩
  intro p hp
  exact ⟨h.sent_of_delivered (List.mem_map_of_mem hp), h.delivery.body p hp⟩

def twoCalls : ℕ → SendCall := fun k => ⟨k + 1, none, k = 0, ⟨7 + k, 0, 0⟩⟩

/-- Both calls run in turn: they look at the same free slot and meet at the lock. -/
def overlappingSends : List Action :=
  (List.replicate 6 [Action.send 0, .send 1]).flatten ++ List.replicate 3 (.send 0) ++
    List.replicate 6 (.send 1)

theorem ipc_delivery_exactly_once_two_calls : ∃ s, Reachable 0 twoCalls 50 s ∧
    (s.history.delivered, s.senders 0, s.senders 1) =
      ([(0, ⟨7, 0, 0⟩), (1, ⟨8, 0, 0⟩)], .returned kernelSok, .returned kernelSokNoStatus) ∧
    (deliveredCalls s).Nodup ∧ (∀ k k' i, Owns s k i → Owns s k' i → k = k') := by
  have hrun : (Runs.guardedRun (step 0 twoCalls) Runs.anyStep (initial 50)
      (overlappingSends ++ List.replicate 18 .receive ++ [.send 1])).map
      (fun s => (s.history.delivered, s.senders 0, s.senders 1)) =
      some ([(0, ⟨7, 0, 0⟩), (1, ⟨8, 0, 0⟩)], .returned kernelSok, .returned kernelSokNoStatus) :=
      by
    decide
  obtain ⟨s, hs, hd⟩ := Option.map_eq_some_iff.mp hrun
  have hr : Reachable 0 twoCalls 50 s := Runs.reaches_of_guardedRun _ hs
  obtain ⟨hnodup, -, -, -, howner, -⟩ := ipc_delivery_exactly_once 0 twoCalls 50 (by decide) s hr
  exact ⟨s, hr, hd, hnodup, howner⟩

end DevOs.Ipc
