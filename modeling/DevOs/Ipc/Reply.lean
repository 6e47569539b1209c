import DevOs.Ipc.Envelope

/-!
# Replies of synchronous sends

A synchronous `IpcSendMessage` polls `Header.Pending` of its slot and returns the local `SyncStatus`
that `IpcSetStatus` reaches through `Header.Status`. An asynchronous send leaves that pointer alone,
so a slot it reuses may still designate the status of an earlier synchronous call. The record
`Replies` notes beside a run which messages were dispatched, the last status set while each message
was current, and whether a status was ever stored for another call than the one whose message is
current. Replies are right in every run that never sets the status of an asynchronous message whose
slot still has a `Status`.
-/

namespace DevOs.Ipc

/-- The last status that `IpcSetStatus` was given for the message of each call while that message
was current, the calls whose `Header.Pending` was cleared by `IpcMessageDispatch`, and whether a
status was stored through a pointer that is not that of the current message. -/
structure Replies where
  reply : ℕ → ℕ
  acknowledged : ℕ → Bool
  astray : Bool

def noReplies : Replies := ⟨fun _ => kernelSokNoStatus, fun _ => false, false⟩

/-- The record of a status stored while the message of the call `k` is current in the slot with the
header `h`. -/
def Replies.store (r : Replies) (k v : ℕ) (h : MsgHeader) : Replies :=
  { r with
    reply := Function.update r.reply k v
    astray := r.astray || (h.status.isSome && h.status ≠ some k) }

def Replies.acknowledge (r : Replies) (k : ℕ) : Replies :=
  { r with acknowledged := Function.update r.acknowledged k true }

def noteReplies (s : State) (a : Action) (r : Replies) : Replies :=
  match a with
  | .setStatus v =>
    match s.currentMessage with
    | some i =>
      if s.pendingMessages = 0 then r
      else match s.history.holder i with
        | some k => r.store k v (s.header i)
        | none => r
    | none => r
  | .receive =>
    match s.receiver with
    | .clearPending i =>
      match s.history.holder i with
      | some k => r.acknowledge k
      | none => r
    | _ => r
  | .send _ => r

/-- `IpcSetStatus` is not called for an asynchronous message whose slot has a `Status`. -/
def setsOwnStatus (calls : ℕ → SendCall) (s : State) : Action → Bool
  | .setStatus _ =>
    match s.currentMessage with
    | some i =>
      match s.history.holder i with
      | some k => !(calls k).async || (s.header i).status = none
      | none => true
    | none => true
  | _ => true

/-- What is promised to synchronous senders. -/
structure RepliesKept (calls : ℕ → SendCall) (s : State) (r : Replies) : Prop where
  returned : ∀ k v, (calls k).async = false → s.senders k = .returned v →
    r.acknowledged k = true ∧ v = r.reply k
  own : r.astray = false

variable {dest : ℕ} {calls : ℕ → SendCall} {s t : State} {k : ℕ} {r : Replies}

/-- What holds of the queue and of the record between two steps. -/
structure Replied (dest : ℕ) (calls : ℕ → SendCall) (s : State) (r : Replies) : Prop where
  owned : Owned calls s
  written : AllWritten dest calls s
  slot : ∀ k i, s.senders k = .hint i ∨ s.senders k = .wait i → s.history.slotOf k = some i
  acknowledged : ∀ k, r.acknowledged k = true ↔
    s.history.dispatched k = true ∨ ∃ i, s.receiver = .clearSet i ∧ s.history.holder i = some k
  status : ∀ k, (calls k).async = false → s.syncStatus k = r.reply k
  kept : RepliesKept calls s r

theorem replied_initial (dest : ℕ) (calls : ℕ → SendCall) (n : ℕ) :
    Replied dest calls (initial n) noReplies := by
  refine ⟨owned_initial calls n, ?_, ?_, ?_, ?_, ⟨?_, rfl⟩⟩
  · intro k i hf
    cases hf
  · intro k i h
    rcases h with h | h <;> cases h
  · intro k
    simp [noReplies, initial]
  · intro k _
    rfl
  · intro k v _ h
    cases h

theorem ipcSendMessage_syncStatus (hs : ipcSendMessage dest calls s k = some t) :
    t.syncStatus = s.syncStatus := by
  cases ipcSendMessage_cases hs <;> rfl

theorem ipcSendMessage_holder (hs : ipcSendMessage dest calls s k = some t) (i : ℕ)
    (hset : (s.header i).set = true) : t.history.holder i = s.history.holder i := by
  rcases (ipcSendMessage_cases hs).frame with hf | ⟨j, _, hfree, rfl⟩
  · rw [hf.holder]
  · apply Function.update_of_ne
    rintro rfl
    rw [hset] at hfree
    cases hfree

theorem ipcSendMessage_control (hs : ipcSendMessage dest calls s k = some t) :
    t.receiver = s.receiver ∧ t.history.dispatched = s.history.dispatched ∧
      ∀ k', k' ≠ k → t.senders k' = s.senders k' := by
  rcases (ipcSendMessage_cases hs).frame with hf | ⟨j, _, _, rfl⟩
  · exact ⟨hf.receiver, hf.dispatched, hf.others⟩
  · exact ⟨rfl, rfl, fun k' hk' => Function.update_of_ne hk' _ _⟩

theorem ipcSendMessage_posted (hs : ipcSendMessage dest calls s k = some t) :
    (∀ i, t.senders k = .hint i → s.senders k = .pend i) ∧
    (∀ i, t.senders k = .wait i → s.senders k = .hint i ∨ s.senders k = .wait i) ∧
    (∀ v, t.senders k = .returned v → (calls k).async = true ∨
      ∃ i, s.senders k = .wait i ∧ (s.header i).pending = false ∧ v = s.syncStatus k) := by
  cases ipcSendMessage_cases hs with
  | spin hpc =>
    refine ⟨?_, fun i hi => Or.inr hi, ?_⟩
    · intro i hi
      rw [hi] at hpc
      cases hpc
    · intro v hv
      rw [hv] at hpc
      cases hpc
  | search pc hpc hpc' =>
    rw [senders_setPc]
    refine ⟨?_, ?_, ?_⟩ <;>
      rintro _ rfl <;> cases hpc'
  | claim i => simp [senders_claimSlot]
  | lock | takeId | count | fill => simp
  | pend i hpc => simp [hpc]
  | hint i hpc => cases hasync : (calls k).async <;> simp [hpc]
  | wait i hpc hpend => simp [hpc, hpend]

theorem Replied.send (h : Replied dest calls s r) (hs : ipcSendMessage dest calls s k = some t) :
    Replied dest calls t r := by
  obtain ⟨hrecv, hdone, hothers⟩ := ipcSendMessage_control hs
  obtain ⟨hhint, hwait, hret⟩ := ipcSendMessage_posted hs
  have hsync := ipcSendMessage_syncStatus hs
  have hslotOf (k' i : ℕ) (hk : s.history.slotOf k' = some i) : t.history.slotOf k' = some i := by
    rcases (ipcSendMessage_cases hs).frame with hf | ⟨j, hpc, _, rfl⟩
    · rw [hf.slotOf, hk]
    · have hne : k' ≠ k := by
        rintro rfl
        rw [((h.owned.call k').early (by rw [hpc]; rfl)).1] at hk
        cases hk
      exact (Function.update_of_ne hne _ _).trans hk
  refine ⟨h.owned.send hs, h.written.step (a := .send k) h.owned hs, ?_, ?_, ?_,
    ⟨?_, h.kept.own⟩⟩
  · intro k' i hi
    by_cases he : k' = k
    · subst he
      rcases hi with hi | hi
      · exact hslotOf k' i ((h.owned.call k').filling i (by rw [hhint i hi]; rfl)).1.1
      · exact hslotOf k' i (h.slot k' i (hwait i hi))
    · rw [hothers k' he] at hi
      exact hslotOf k' i (h.slot k' i hi)
  · intro k'
    rw [h.acknowledged k', hrecv, hdone]
    refine or_congr_right (exists_congr fun i => and_congr_right fun hr => ?_)
    obtain ⟨k'', hown, _⟩ := h.owned.active i (by
      rw [activeSlot, hr]
      exact h.owned.slot_current i (by rw [hr]; rfl))
    rw [ipcSendMessage_holder hs i (h.owned.owner k'' i hown).2.1]
  · intro k' hk'
    rw [hsync]
    exact h.status k' hk'
  · intro k' v hasync hv
    by_cases he : k' = k
    · subst he
      rcases hret v hv with ha | ⟨i, hpc, hpend, rfl⟩
      · rw [hasync] at ha
        cases ha
      · refine ⟨?_, h.status k' hasync⟩
        rw [h.acknowledged]
        by_cases hd : s.history.dispatched k' = true
        · exact Or.inl hd
        · have hown : Owns s k' i := ⟨h.slot k' i (Or.inr hpc), Bool.eq_false_iff.mpr hd⟩
          rcases (h.owned.call k').pending (by rw [hpc]; rfl) i hown with hp | hr
          · rw [hpend] at hp
            cases hp
          · exact Or.inr ⟨i, hr, (h.owned.owner k' i hown).2.2⟩
    · rw [hothers k' he] at hv
      exact h.kept.returned k' v hasync hv

theorem Replied.of_recvFrame (h : Replied dest calls s r) (hf : RecvFrame s t)
    (ho : Owned calls t) (hw : AllWritten dest calls t) (hsync : t.syncStatus = s.syncStatus)
    (hs : ∀ i, s.receiver ≠ .clearSet i) (ht : ∀ i, t.receiver ≠ .clearSet i) :
    Replied dest calls t r := by
  refine ⟨ho, hw, ?_, ?_, ?_, ⟨?_, h.kept.own⟩⟩
  · rw [hf.senders, hf.slotOf]
    exact h.slot
  · intro k
    rw [h.acknowledged k, hf.dispatched]
    exact or_congr_right ⟨fun ⟨i, hi, _⟩ => absurd hi (hs i), fun ⟨i, hi, _⟩ => absurd hi (ht i)⟩
  · rw [hsync]
    exact h.status
  · rw [hf.senders]
    exact h.kept.returned

theorem Replied.clearPending {i : ℕ} (h : Replied dest calls s r)
    (hr : s.receiver = .clearPending i) (hk : s.history.holder i = some k) :
    Replied dest calls (unpendSlot s i) (r.acknowledge k) := by
  have hs : step dest calls s .receive = some (unpendSlot s i) := by
    simp only [step, ipcReceive, hr]
  refine ⟨h.owned.step hs, h.written.step h.owned hs, h.slot, ?_, h.status, ⟨?_, h.kept.own⟩⟩
  · intro k'
    change Function.update r.acknowledged k true k' = true ↔
      s.history.dispatched k' = true ∨ ∃ j, RecvPc.clearSet i = .clearSet j ∧
        s.history.holder j = some k'
    have hno : ¬ ∃ j, s.receiver = .clearSet j ∧ s.history.holder j = some k' := by
      rintro ⟨j, hj, _⟩
      rw [hr] at hj
      cases hj
    have hold := h.acknowledged k'
    rw [or_iff_left hno] at hold
    rw [Function.update_apply]
    split_ifs with he
    · rw [he]
      exact ⟨fun _ => Or.inr ⟨i, rfl, hk⟩, fun _ => rfl⟩
    · rw [hold]
      refine (or_iff_left ?_).symm
      rintro ⟨j, hj, hh⟩
      cases hj
      rw [hk] at hh
      exact he (Option.some.inj hh).symm
  · intro k' v hasync hv
    obtain ⟨ha, hreply⟩ := h.kept.returned k' v hasync hv
    refine ⟨?_, hreply⟩
    change Function.update r.acknowledged k true k' = true
    rw [Function.update_apply]
    split_ifs
    · rfl
    · exact ha

theorem Replied.release {i : ℕ} (h : Replied dest calls s r) (hr : s.receiver = .clearSet i)
    (hk : s.history.holder i = some k) : Replied dest calls (releaseSlot s i) r := by
  have hs : step dest calls s .receive = some (releaseSlot s i) := by
    simp only [step, ipcReceive, hr]
  refine ⟨h.owned.step hs, h.written.step h.owned hs, h.slot, ?_, h.status,
    ⟨h.kept.returned, h.kept.own⟩⟩
  intro k'
  have hno : ¬ ∃ j, (releaseSlot s i).receiver = .clearSet j ∧
      (releaseSlot s i).history.holder j = some k' := by
    rintro ⟨j, hj, _⟩
    cases hj
  rw [or_iff_left hno, dispatched_releaseSlot hk, h.acknowledged k']
  split_ifs with he
  · rw [he]
    exact ⟨fun _ => rfl, fun _ => Or.inr ⟨i, hr, hk⟩⟩
  · refine or_iff_left ?_
    rintro ⟨j, hj, hh⟩
    rw [hr] at hj
    cases hj
    rw [hk] at hh
    exact he (Option.some.inj hh).symm

theorem Owned.holder_of_slot (h : Owned calls s) {i : ℕ} (hr : s.receiver.slot = some i) :
    ∃ k, s.history.holder i = some k := by
  have ha : activeSlot s = some i := by
    rw [← h.slot_current i hr, activeSlot]
    cases hc : s.receiver <;> rw [hc] at hr <;> first | rfl | cases hr
  obtain ⟨k, hown, _⟩ := h.active i ha
  exact ⟨k, (h.owner k i hown).2.2⟩

theorem Replied.receive (h : Replied dest calls s r) (hs : ipcReceive s = some t) :
    Replied dest calls t (noteReplies s .receive r) := by
  have ho : Owned calls t := h.owned.receive hs
  have hw : AllWritten dest calls t := h.written.step (a := .receive) h.owned hs
  cases hr : s.receiver with
  | clearPending i =>
    obtain ⟨k, hk⟩ := h.owned.holder_of_slot (i := i) (by rw [hr]; rfl)
    simp only [ipcReceive, hr] at hs
    cases hs
    simp only [noteReplies, hr, hk]
    exact h.clearPending hr hk
  | clearSet i =>
    obtain ⟨k, hk⟩ := h.owned.holder_of_slot (i := i) (by rw [hr]; rfl)
    simp only [ipcReceive, hr] at hs
    cases hs
    simp only [noteReplies, hr]
    exact h.release hr hk
  | _ =>
    simp only [noteReplies, hr]
    simp only [ipcReceive, hr] at hs
    repeat' split at hs
    all_goals
      cases hs
      exact h.of_recvFrame ⟨rfl, rfl, rfl, rfl, rfl, rfl⟩ ho hw rfl (by simp [hr])
        (by simp [hr, acquire])

/-- A message that is current between two calls of the receiver is not acknowledged. -/
theorem Replied.not_acknowledged {i : ℕ} (h : Replied dest calls s r) (hr : s.receiver = .dispatch)
    (hi : s.currentMessage = some i) (hk : s.history.holder i = some k) :
    r.acknowledged k = false := by
  have ha : activeSlot s = some i := by rw [activeSlot, hr, hi]
  obtain ⟨hown, _⟩ := h.owned.holder_of_active ha hk
  rw [← Bool.not_eq_true, h.acknowledged k, hown.2, hr]
  rintro (hd | ⟨j, hj, _⟩)
  · cases hd
  · cases hj

/-- A status is stored for the synchronous call whose message is current, or for none. -/
theorem Replied.store {i v : ℕ} (h : Replied dest calls s r) (hr : s.receiver = .dispatch)
    (hi : s.currentMessage = some i) (hk : s.history.holder i = some k) {f : ℕ → ℕ}
    (hf : ∀ k', (calls k').async = false → f k' = if k' = k then v else s.syncStatus k')
    (hown : (s.header i).status = none ∨ (s.header i).status = some k) :
    Replied dest calls { s with syncStatus := f } (r.store k v (s.header i)) := by
  have hset : Owned calls { s with syncStatus := f } := by
    refine ⟨?_, h.owned.owner, h.owned.owned, h.owned.set_of_pending, h.owned.active,
      h.owned.slot_current, h.owned.cleared, h.owned.empty_current⟩
    intro k'
    exact (h.owned.call k').frame rfl rfl rfl rfl (fun _ _ => rfl) (fun _ _ hr => hr)
  refine ⟨hset, h.written, h.slot, h.acknowledged, ?_, ⟨?_, ?_⟩⟩
  · intro k' hk'
    change f k' = Function.update r.reply k v k'
    rw [hf k' hk', Function.update_apply, h.status k' hk']
  · intro k' u hasync hu
    obtain ⟨ha, hreply⟩ := h.kept.returned k' u hasync hu
    have hne : k' ≠ k := by
      rintro rfl
      rw [h.not_acknowledged hr hi hk] at ha
      cases ha
    refine ⟨ha, hreply.trans ?_⟩
    exact (Function.update_of_ne hne _ _).symm
  · change (r.astray || _) = false
    rw [h.kept.own]
    rcases hown with hn | hn <;> simp [hn]

theorem Replied.setStatus {v : ℕ} (h : Replied dest calls s r)
    (hg : setsOwnStatus calls s (.setStatus v) = true) (hs : ipcSetStatus s v = some t) :
    Replied dest calls t (noteReplies s (.setStatus v) r) := by
  unfold ipcSetStatus at hs
  split at hs
  · rename_i i hr hi
    have ha : activeSlot s = some i := by rw [activeSlot, hr, hi]
    obtain ⟨k, hown, hp⟩ := h.owned.active i ha
    have hk := (h.owned.owner k i hown).2.2
    have hw := h.written k i (SendPc.filled_of_posted hp) hown
    simp only [noteReplies, hi, hk]
    split_ifs at hs ⊢ with h0
    · cases hs
      exact h
    · simp only [setsOwnStatus, hi, hk, Bool.or_eq_true, Bool.not_eq_true', decide_eq_true_eq] at hg
      cases hasync : (calls k).async with
      | false =>
        have hst := hw.status hasync
        simp only [hst] at hs
        cases hs
        exact h.store hr hi hk (fun k' _ => Function.update_apply ..) (Or.inr hst)
      | true =>
        have hst : (s.header i).status = none := by
          rcases hg with hg | hg
          · rw [hasync] at hg
            cases hg
          · exact hg
        simp only [hst] at hs
        cases hs
        refine h.store hr hi hk (f := s.syncStatus) ?_ (Or.inl hst)
        intro k' hk'
        have hne : k' ≠ k := by
          rintro rfl
          rw [hasync] at hk'
          cases hk'
        rw [if_neg hne]
  · rename_i hi
    cases hs
    simp only [noteReplies, hi]
    exact h
  · cases hs

theorem Replied.step {a : Action} (h : Replied dest calls s r) (hg : setsOwnStatus calls s a = true)
    (hs : Ipc.step dest calls s a = some t) : Replied dest calls t (noteReplies s a r) := by
  cases a with
  | send k => exact h.send hs
  | receive => exact h.receive hs
  | setStatus v => exact h.setStatus hg hs

def RepliedRun (dest : ℕ) (calls : ℕ → SendCall) (guard : State → Action → Prop) (maxMessages : ℕ)
    (s : State) (r : Replies) : Prop :=
  Runs.Reaches (Runs.watched (Ipc.step dest calls) noteReplies) (fun p a => guard p.1 a)
    (initial maxMessages, noReplies) (s, r)

/-- In every interleaving in which `IpcSetStatus` is never called for an asynchronous message whose
slot still has a `Status`, a synchronous send returns after its message was dispatched, with the
last status set for it, and no status is stored for another message. -/
theorem ipc_replies_own (dest : ℕ) (calls : ℕ → SendCall) (maxMessages : ℕ) (s : State)
    (r : Replies) (hr : RepliedRun dest calls
      (fun s a => setsOwnStatus calls s a = true) maxMessages s r) :
    RepliesKept calls s r := by
  have h : Replied dest calls s r := by
    refine Runs.Reaches.invariant (I := fun p => Replied dest calls p.1 p.2) ?_ hr
      (replied_initial dest calls maxMessages)
    rintro ⟨s, r⟩ a ⟨t, r'⟩ hp hg hst
    obtain ⟨hst, rfl⟩ := Runs.watched_eq_some.mp hst
    exact hp.step hg hst
  exact h.kept

/-- A synchronous call is answered twice, a second one reuses its slot and is not answered. -/
theorem ipc_replies_own_two_calls : ∃ s r,
    RepliedRun 0 mixedCalls (fun s a => setsOwnStatus mixedCalls s a = true) 50 s r ∧
      s.senders 0 = .returned 22 ∧ s.senders 3 = .returned kernelSokNoStatus ∧
      RepliesKept mixedCalls s r := by
  have hrun : (Runs.guardedRun (Runs.watched (step 0 mixedCalls) noteReplies)
      (fun p a => setsOwnStatus mixedCalls p.1 a = true) (initial 50, noReplies)
      (handOver 0 ++ [.setStatus 11, .setStatus 22] ++ List.replicate 6 .receive ++ [.send 0] ++
        roundTrip 3 ++ [.send 3])).map (fun p => (p.1.senders 0, p.1.senders 3)) =
      some (.returned 22, .returned kernelSokNoStatus) := by decide
  obtain ⟨p, hp, hd⟩ := Option.map_eq_some_iff.mp hrun
  obtain ⟨h0, h3⟩ := Prod.mk.inj hd
  have hr : RepliedRun 0 mixedCalls (fun s a => setsOwnStatus mixedCalls s a = true) 50 p.1 p.2 :=
    Runs.reaches_of_guardedRun _ hp
  exact ⟨p.1, p.2, hr, h0, h3, ipc_replies_own 0 mixedCalls 50 p.1 p.2 hr⟩

/-- The status set for an asynchronous message reaches the synchronous call that had its slot before
and has not polled since: nothing was stored for that call, and it returns 77. -/
theorem ipc_replies_astray : ∃ s r, RepliedRun 0 mixedCalls Runs.anyStep 50 s r ∧
    s.senders 0 = .returned 77 ∧ r.reply 0 = kernelSokNoStatus ∧ r.astray = true ∧
    ¬ RepliesKept mixedCalls s r := by
  have hrun : (Runs.guardedRun (Runs.watched (step 0 mixedCalls) noteReplies)
      (fun p a => Runs.anyStep p.1 a) (initial 50, noReplies)
      (roundTrip 0 ++ handOver 1 ++ [.setStatus 77] ++ List.replicate 6 .receive ++ [.send 0])).map
        (fun p => (p.1.senders 0, p.2.reply 0, p.2.astray)) =
      some (.returned 77, kernelSokNoStatus, true) := by decide
  obtain ⟨p, hp, hd⟩ := Option.map_eq_some_iff.mp hrun
  obtain ⟨h0, hreply, hastray⟩ : p.1.senders 0 = .returned 77 ∧ p.2.reply 0 = kernelSokNoStatus ∧
      p.2.astray = true := by simpa only [Prod.mk.injEq] using hd
  refine ⟨p.1, p.2, Runs.reaches_of_guardedRun _ hp, h0, hreply, hastray, ?_⟩
  intro hk
  have hv := (hk.returned 0 77 rfl h0).2
  rw [hreply] at hv
  cases hv

end DevOs.Ipc
