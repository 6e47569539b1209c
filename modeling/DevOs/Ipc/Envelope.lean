import DevOs.Ipc.Delivery
import DevOs.Ipc.Progress

/-!
# The envelope of a delivered message

`IpcSendMessage` writes `Status` only for a synchronous send, `Server` only for a server client and
`Source` only for an ordinary one, and no step clears these fields when a slot is released. The
record `Origins` notes beside a run which call wrote each field last and which header each call
found in its slot. A message that is in the hands of the receiver carries its own envelope exactly
when its sender is an ordinary client that found no `Server`, and for an asynchronous send no
`Status`, in the slot.
-/

namespace DevOs.Ipc

def SendPc.filled : SendPc → Bool
  | .pend _ | .hint _ | .wait _ | .returned _ => true
  | _ => false

def MsgHeader.pointers (h : MsgHeader) : Option ℕ × Option ℕ × Option ℕ × Option ℕ :=
  (h.source, h.server, h.destination, h.status)

variable {dest : ℕ} {calls : ℕ → SendCall} {s t : State} {k : ℕ}

/-- What every step but the one that writes body and header leaves alone. -/
structure PointersKept (s t : State) : Prop where
  pointers : ∀ i, (t.header i).pointers = (s.header i).pointers
  filled : ∀ k, (t.senders k).filled = (s.senders k).filled
  owns : ∀ k i, (t.senders k).filled = true → Owns t k i → Owns s k i

theorem pointersKept_refl (s : State) : PointersKept s s :=
  ⟨fun _ => rfl, fun _ => rfl, fun _ _ _ h => h⟩

theorem SendFrame.pointersKept (hf : SendFrame s t k)
    (hp : ∀ i, (t.header i).pointers = (s.header i).pointers)
    (hk : (t.senders k).filled = (s.senders k).filled) : PointersKept s t := by
  refine ⟨hp, ?_, fun k' i _ ho => (hf.owns k' i).mp ho⟩
  intro k'
  by_cases he : k' = k
  · rw [he, hk]
  · rw [hf.others k' he]

theorem RecvFrame.pointersKept (hf : RecvFrame s t) : PointersKept s t :=
  ⟨fun i => by rw [hf.header], fun k => by rw [hf.senders],
    fun k i _ ho => (hf.owns k i).mp ho⟩

theorem pointers_setHeader {i : ℕ} {h : MsgHeader} (hh : h.pointers = (s.header i).pointers)
    (j : ℕ) :
    ((s.setHeader i h).header j).pointers = (s.header j).pointers := by
  rw [State.header_setHeader]
  split_ifs with hj
  · rw [hj, hh]
  · rfl

theorem pointersKept_claimSlot {i : ℕ} (hpc : s.senders k = .claim i) :
    PointersKept s (claimSlot s k i) := by
  refine ⟨pointers_setHeader rfl, ?_, ?_⟩
  · intro k'
    rw [senders_claimSlot]
    split_ifs with he
    · rw [he, hpc]
      rfl
    · rfl
  · intro k' j hk' ho
    rw [senders_claimSlot] at hk'
    split_ifs at hk' with he
    · cases hk'
    · exact ⟨(Function.update_of_ne he _ _).symm.trans ho.1, ho.2⟩

/-- The state after the call `k` wrote body and header of the slot `i`. -/
def filledState (dest : ℕ) (calls : ℕ → SendCall) (s : State) (k i : ℕ) : State :=
  (s.setMessage i (fillMessage dest k (calls k) (s.messages i))).setPc k (.pend i)

theorem SendPc.filled_of_early {pc : SendPc} (h : pc.stage = .early) : pc.filled = false := by
  cases pc <;> first | rfl | cases h

theorem ipcSendMessage_pointers (hs : ipcSendMessage dest calls s k = some t) :
    PointersKept s t ∨ ∃ i, s.senders k = .fill i ∧ t = filledState dest calls s k i := by
  have hstep := ipcSendMessage_cases hs
  rcases hstep.frame with hf | ⟨i, hpc, _, rfl⟩
  swap
  · exact Or.inl (pointersKept_claimSlot hpc)
  cases hstep with
  | spin => exact Or.inl (pointersKept_refl s)
  | search pc hpc hpc' =>
    exact Or.inl (hf.pointersKept (fun _ => rfl) (by
      rw [senders_setPc, SendPc.filled_of_early hpc', SendPc.filled_of_early hpc]))
  | claim i hpc => exact Or.inl (pointersKept_claimSlot hpc)
  | fill i hpc => exact Or.inr ⟨i, hpc, rfl⟩
  | lock i hpc | count i hpc | wait i hpc =>
    exact Or.inl (hf.pointersKept (fun _ => rfl) (by simp [SendPc.filled, hpc]))
  | takeId i hpc | pend i hpc =>
    exact Or.inl (hf.pointersKept (pointers_setHeader rfl) (by simp [SendPc.filled, hpc]))
  | hint i hpc =>
    refine Or.inl (hf.pointersKept (fun _ => rfl) ?_)
    simp only [senders_setPc, hpc]
    split_ifs <;> rfl

theorem pointersKept_unpendSlot {i : ℕ} : PointersKept s (unpendSlot s i) :=
  ⟨pointers_setHeader rfl, fun _ => rfl, fun _ _ _ h => h⟩

theorem pointersKept_releaseSlot {i : ℕ} : PointersKept s (releaseSlot s i) := by
  refine ⟨pointers_setHeader rfl, fun _ => rfl, ?_⟩
  rintro k j _ ⟨hslot, hdone⟩
  refine ⟨hslot, ?_⟩
  cases hh : s.history.holder i with
  | none =>
    simp only [releaseSlot, hh] at hdone
    exact hdone
  | some k' =>
    rw [dispatched_releaseSlot hh] at hdone
    split_ifs at hdone
    exact hdone

theorem ipcReceive_pointers (hs : ipcReceive s = some t) : PointersKept s t := by
  cases ipcReceive_cases hs with
  | clearPending i => exact pointersKept_unpendSlot
  | clearSet i => exact pointersKept_releaseSlot
  | spin | seek | reset | take | clearCurrent | incLeast | decPending =>
    exact RecvFrame.pointersKept ⟨rfl, rfl, rfl, rfl, rfl, rfl⟩

/-- A step writes the body and header of the slot its call has claimed, or leaves every pointer
alone. -/
theorem step_pointers {a : Action} (hs : step dest calls s a = some t) : PointersKept s t ∨
    ∃ k i, a = .send k ∧ s.senders k = .fill i ∧ t = filledState dest calls s k i := by
  cases a with
  | send k =>
    rcases ipcSendMessage_pointers hs with h | ⟨i, hpc, ht⟩
    · exact Or.inl h
    · exact Or.inr ⟨k, i, rfl, hpc, ht⟩
  | receive => exact Or.inl (ipcReceive_pointers hs)
  | setStatus v =>
    obtain ⟨f, rfl⟩ := ipcSetStatus_eq hs
    exact Or.inl ⟨fun _ => rfl, fun _ => rfl, fun _ _ _ h => h⟩

/-- What the call `k` itself has written. -/
structure Written (dest k : ℕ) (c : SendCall) (h : MsgHeader) : Prop where
  source : c.server = none → h.source = some c.source
  server : c.server ≠ none → h.server = c.server
  destination : h.destination = some dest
  status : c.async = false → h.status = some k

theorem written_fillMessage (dest k : ℕ) (c : SendCall) (m : MsgObject) :
    Written dest k c (fillMessage dest k c m).header := by
  constructor
  · intro hc
    simp only [fillMessage, hc]
  · intro hc
    obtain ⟨v, hv⟩ := Option.ne_none_iff_exists'.mp hc
    simp only [fillMessage, hv]
  · rfl
  · intro hc
    simp only [fillMessage, hc, Bool.false_eq_true, if_false]

theorem Written.congr {c : SendCall} {h h' : MsgHeader} (hw : Written dest k c h)
    (hp : h'.pointers = h.pointers) : Written dest k c h' := by
  obtain ⟨h1, h2, h3, h4⟩ : h'.source = h.source ∧ h'.server = h.server ∧
      h'.destination = h.destination ∧ h'.status = h.status := by
    simpa only [MsgHeader.pointers, Prod.mk.injEq] using hp
  exact ⟨fun hc => h1.trans (hw.source hc), fun hc => h2.trans (hw.server hc),
    h3.trans hw.destination, fun hc => h4.trans (hw.status hc)⟩

def AllWritten (dest : ℕ) (calls : ℕ → SendCall) (s : State) : Prop :=
  ∀ k i, (s.senders k).filled = true → Owns s k i → Written dest k (calls k) (s.header i)

theorem header_filledState (dest : ℕ) (calls : ℕ → SendCall) (s : State) (k i j : ℕ) :
    (filledState dest calls s k i).header j =
      if j = i then (fillMessage dest k (calls k) (s.messages i)).header else s.header j := by
  change ((s.setMessage i _).messages j).header = _
  rw [State.messages_setMessage]
  split_ifs <;> rfl

theorem filled_filledState {i k' j : ℕ} (ho : Owned calls s) (hpc : s.senders k = .fill i)
    (hf : ((filledState dest calls s k i).senders k').filled = true)
    (hown : Owns (filledState dest calls s k i) k' j) :
    (k' = k ∧ j = i) ∨ (k' ≠ k ∧ j ≠ i ∧ (s.senders k').filled = true ∧ Owns s k' j) := by
  have hk : Owns s k i := ((ho.call k).filling i (by rw [hpc]; rfl)).1
  have hown' : Owns s k' j := hown
  by_cases he : k' = k
  · refine Or.inl ⟨he, ?_⟩
    have hj := hown'.1
    rw [he, hk.1] at hj
    exact (Option.some.inj hj).symm
  · refine Or.inr ⟨he, ?_, ?_, hown'⟩
    · rintro rfl
      exact he (ho.owns_unique hown' hk)
    · have hs : (filledState dest calls s k i).senders k' = s.senders k' :=
        Function.update_of_ne he _ _
      rwa [hs] at hf

theorem AllWritten.step {a : Action} (h : AllWritten dest calls s) (ho : Owned calls s)
    (hs : Ipc.step dest calls s a = some t) : AllWritten dest calls t := by
  intro k' j hf hown
  rcases step_pointers hs with hp | ⟨k, i, _, hpc, rfl⟩
  · exact (h k' j (hp.filled k' ▸ hf) (hp.owns k' j hf hown)).congr (hp.pointers j)
  · rw [header_filledState]
    rcases filled_filledState ho hpc hf hown with ⟨rfl, rfl⟩ | ⟨_, hj, hf', hown'⟩
    · rw [if_pos rfl]
      exact written_fillMessage ..
    · rw [if_neg hj]
      exact h k' j hf' hown'

/-- Which call wrote `Source`, `Server` and `Status` of each slot last, and the header that each
call found in the slot it filled. -/
structure Origins where
  source : ℕ → Option ℕ
  server : ℕ → Option ℕ
  status : ℕ → Option ℕ
  found : ℕ → MsgHeader

def noOrigins : Origins :=
  ⟨fun _ => none, fun _ => none, fun _ => none, fun _ => ⟨false, false, 0, none, none, none, none⟩⟩

/-- The record of the step that writes the header of the slot `i` for the call `k`. -/
def Origins.fill (c : SendCall) (k i : ℕ) (h : MsgHeader) (o : Origins) : Origins where
  source := if c.server = none then Function.update o.source i (some k) else o.source
  server := if c.server = none then o.server else Function.update o.server i (some k)
  status := if c.async then o.status else Function.update o.status i (some k)
  found := Function.update o.found k h

def noteOrigins (calls : ℕ → SendCall) (s : State) (a : Action) (o : Origins) : Origins :=
  match a with
  | .send k =>
    match s.senders k with
    | .fill i => o.fill (calls k) k i (s.header i)
    | _ => o
  | _ => o

theorem noteOrigins_of_kept {a : Action} (hs : step dest calls s a = some t)
    (hp : PointersKept s t) (o : Origins) : noteOrigins calls s a o = o := by
  cases a with
  | send k =>
    cases hpc : s.senders k with
    | fill i =>
      have ht : t = filledState dest calls s k i := by
        simp only [step, ipcSendMessage, hpc, Option.some.injEq] at hs
        exact hs.symm
      have hk := hp.filled k
      rw [ht, hpc, filledState, senders_setPc] at hk
      cases hk
    | _ => simp only [noteOrigins, hpc]
  | receive => rfl
  | setStatus v => rfl

/-- What the record says of a call that has filled the slot it owns. -/
structure OriginOk (calls : ℕ → SendCall) (s : State) (o : Origins) (k i : ℕ) : Prop where
  source : o.source i = some k ↔ (calls k).server = none
  server : o.server i = some k ↔ (calls k).server ≠ none
  status : o.status i = some k ↔ (calls k).async = false
  found_server : (calls k).server = none → (s.header i).server = (o.found k).server
  found_status : (calls k).async = true → (s.header i).status = (o.found k).status

/-- What holds of the queue and of the record between two steps. -/
structure Traced (dest : ℕ) (calls : ℕ → SendCall) (s : State) (o : Origins) : Prop where
  owned : Owned calls s
  written : AllWritten dest calls s
  past : ∀ k, (s.senders k).filled = false → ∀ i,
    o.source i ≠ some k ∧ o.server i ≠ some k ∧ o.status i ≠ some k
  origin : ∀ k i, (s.senders k).filled = true → Owns s k i → OriginOk calls s o k i

theorem traced_initial (dest : ℕ) (calls : ℕ → SendCall) (n : ℕ) :
    Traced dest calls (initial n) noOrigins := by
  refine ⟨owned_initial calls n, ?_, ?_, ?_⟩
  · intro k i hf
    cases hf
  · intro k _ i
    simp [noOrigins]
  · intro k i hf
    cases hf

theorem OriginOk.congr {o : Origins} {i : ℕ} (h : OriginOk calls s o k i)
    (hp : (t.header i).pointers = (s.header i).pointers) : OriginOk calls t o k i := by
  have hsrv : (t.header i).server = (s.header i).server := congrArg (·.2.1) hp
  have hsta : (t.header i).status = (s.header i).status := congrArg (·.2.2.2) hp
  exact ⟨h.source, h.server, h.status, fun hc => hsrv.trans (h.found_server hc),
    fun hc => hsta.trans (h.found_status hc)⟩

theorem originOk_fill {o : Origins} {i : ℕ}
    (hpast : o.source i ≠ some k ∧ o.server i ≠ some k ∧ o.status i ≠ some k) :
    OriginOk calls (filledState dest calls s k i) (o.fill (calls k) k i (s.header i)) k i := by
  obtain ⟨h1, h2, h3⟩ := hpast
  have hh : (filledState dest calls s k i).header i =
      (fillMessage dest k (calls k) (s.messages i)).header := by
    rw [header_filledState, if_pos rfl]
  constructor
  · by_cases hc : (calls k).server = none <;> simp [Origins.fill, hc, h1]
  · by_cases hc : (calls k).server = none <;> simp [Origins.fill, hc, h2]
  · by_cases hc : (calls k).async = true <;> simp [Origins.fill, hc, h3]
  · intro hc
    rw [hh]
    simp only [fillMessage, hc, Origins.fill, Function.update_self]
    rfl
  · intro hc
    rw [hh]
    simp only [fillMessage, hc, Origins.fill, Function.update_self, if_true]
    rfl

theorem OriginOk.fill {o : Origins} {k' i j : ℕ} (h : OriginOk calls s o k' j) (hk : k' ≠ k)
    (hj : j ≠ i) :
    OriginOk calls (filledState dest calls s k i) (o.fill (calls k) k i (s.header i)) k' j := by
  have hh : (filledState dest calls s k i).header j = s.header j := by
    rw [header_filledState, if_neg hj]
  have hfound : (o.fill (calls k) k i (s.header i)).found k' = o.found k' :=
    Function.update_of_ne hk _ _
  constructor
  · rw [← h.source, Origins.fill]
    split_ifs <;> simp [hj]
  · rw [← h.server, Origins.fill]
    split_ifs <;> simp [hj]
  · rw [← h.status, Origins.fill]
    split_ifs <;> simp [hj]
  · rw [hh, hfound]
    exact h.found_server
  · rw [hh, hfound]
    exact h.found_status

theorem update_some_ne {f : ℕ → Option ℕ} {k' i j : ℕ} (hk : k' ≠ k) (h : f j ≠ some k') :
    Function.update f i (some k) j ≠ some k' := by
  rw [Function.update_apply]
  split_ifs
  · intro he
    exact hk (Option.some.inj he).symm
  · exact h

/-- The step that fills a slot for `k` writes no field on behalf of another call. -/
theorem Origins.fill_ne {o : Origins} {c : SendCall} {hd : MsgHeader} {k' i j : ℕ} (hk : k' ≠ k)
    (h : o.source j ≠ some k' ∧ o.server j ≠ some k' ∧ o.status j ≠ some k') :
    (o.fill c k i hd).source j ≠ some k' ∧ (o.fill c k i hd).server j ≠ some k' ∧
      (o.fill c k i hd).status j ≠ some k' := by
  obtain ⟨h1, h2, h3⟩ := h
  simp only [Origins.fill]
  refine ⟨?_, ?_, ?_⟩
  · split_ifs
    · exact update_some_ne hk h1
    · exact h1
  · split_ifs
    · exact h2
    · exact update_some_ne hk h2
  · split_ifs
    · exact h3
    · exact update_some_ne hk h3

theorem Traced.step {a : Action} {o : Origins} (h : Traced dest calls s o)
    (hs : Ipc.step dest calls s a = some t) : Traced dest calls t (noteOrigins calls s a o) := by
  refine ⟨h.owned.step hs, h.written.step h.owned hs, ?_, ?_⟩
  · intro k' hk' j
    rcases step_pointers hs with hp | ⟨k, i, rfl, hpc, rfl⟩
    · rw [noteOrigins_of_kept hs hp]
      exact h.past k' (hp.filled k' ▸ hk') j
    · have hne : k' ≠ k := by
        rintro rfl
        rw [filledState, senders_setPc] at hk'
        cases hk'
      have hk : (s.senders k').filled = false := by
        have he : (filledState dest calls s k i).senders k' = s.senders k' :=
          Function.update_of_ne hne _ _
        rwa [he] at hk'
      simp only [noteOrigins, hpc]
      exact Origins.fill_ne hne (h.past k' hk j)
  · intro k' j hf hown
    rcases step_pointers hs with hp | ⟨k, i, rfl, hpc, rfl⟩
    · rw [noteOrigins_of_kept hs hp]
      exact (h.origin k' j (hp.filled k' ▸ hf) (hp.owns k' j hf hown)).congr (hp.pointers j)
    · have hnote : noteOrigins calls s (.send k) o = o.fill (calls k) k i (s.header i) := by
        simp only [noteOrigins, hpc]
      rw [hnote]
      rcases filled_filledState h.owned hpc hf hown with ⟨rfl, rfl⟩ | ⟨hk, hj, hf', hown'⟩
      · exact originOk_fill (h.past k' (by rw [hpc]; rfl) j)
      · exact (h.origin k' j hf' hown').fill hk hj

def ipcQueryMessageHeader (s : State) : Option MsgHeader := s.currentMessage.map s.header

/-- The client whose thread or process `IpcMessageDispatch` and `IpcGetMessagePacket` read, and
`none` where they dereference a null `Source`. -/
def messageSource (s : State) : Option ℕ := s.currentMessage.bind fun i => (s.header i).source

/-- `IpcGetMessagePacket`. `userMode` tells the clients of user mode processes, and `resolve` is
`KeResolvePhysicalAddress` in the process of a client. -/
def ipcGetMessagePacket (userMode : ℕ → Bool) (resolve : ℕ → ℕ → ℕ) (s : State) : Option ℕ :=
  s.currentMessage.bind fun i => (messageSource s).map fun c =>
    if userMode c then resolve c (s.messages i).body.data else (s.messages i).body.data

/-- The header describes the send `c` of the call `k` only, and its `Source` is not null. -/
structure Envelope (k : ℕ) (c : SendCall) (o : Origins) (i : ℕ) (h : MsgHeader) : Prop where
  source : c.server = none → h.source = some c.source
  server : h.server = c.server
  status : h.status.isSome = true ↔ c.async = false
  own_source : h.source.isSome = true → o.source i = some k
  own_server : h.server.isSome = true → o.server i = some k
  own_status : h.status.isSome = true → o.status i = some k
  source_set : h.source.isSome = true

/-- An ordinary sender finds no `Server` in its slot, and no `Status` if it does not write one. -/
def cleanSlot (c : SendCall) (found : MsgHeader) : Bool :=
  c.server = none && found.server = none && (!c.async || found.status = none)

theorem cleanSlot_eq_true {c : SendCall} {found : MsgHeader} : cleanSlot c found = true ↔
    c.server = none ∧ found.server = none ∧ (c.async = true → found.status = none) := by
  cases hc : c.async <;> simp [cleanSlot, hc, and_assoc]

def fillsClean (calls : ℕ → SendCall) (s : State) : Action → Bool
  | .send k =>
    match s.senders k with
    | .fill i => cleanSlot (calls k) (s.header i)
    | _ => true
  | _ => true

theorem SendPc.filled_of_posted {pc : SendPc} (h : pc.stage = .posted) : pc.filled = true := by
  cases pc <;> cases h <;> rfl

/-- The message in the hands of the receiver was posted by the holder of its slot. -/
theorem Owned.holder_of_active (h : Owned calls s) {i : ℕ} (ha : activeSlot s = some i)
    (hk : s.history.holder i = some k) : Owns s k i ∧ (s.senders k).stage = .posted := by
  obtain ⟨k', hown, hp⟩ := h.active i ha
  have he := (h.owner k' i hown).2.2
  rw [hk] at he
  cases he
  exact ⟨hown, hp⟩

theorem current_of_activeSlot {i : ℕ} (ha : activeSlot s = some i) : s.currentMessage = some i := by
  rw [activeSlot] at ha
  split at ha
  all_goals first | exact ha | cases ha

theorem Traced.envelope_iff {o : Origins} {i : ℕ} (h : Traced dest calls s o)
    (ha : activeSlot s = some i) (hk : s.history.holder i = some k) :
    Envelope k (calls k) o i (s.header i) ↔ cleanSlot (calls k) (o.found k) = true := by
  obtain ⟨hown, hp⟩ := h.owned.holder_of_active ha hk
  have hf := SendPc.filled_of_posted hp
  have ho := h.origin k i hf hown
  have hw := h.written k i hf hown
  rw [cleanSlot_eq_true]
  constructor
  · intro he
    have hc : (calls k).server = none := ho.source.mp (he.own_source he.source_set)
    refine ⟨hc, ?_, ?_⟩
    · rw [← ho.found_server hc, he.server, hc]
    · intro hasync
      rw [← ho.found_status hasync, ← Option.not_isSome_iff_eq_none, he.status, hasync]
      exact Bool.noConfusion
  · rintro ⟨hc, hsrv, hsta⟩
    have hserver : (s.header i).server = none := (ho.found_server hc).trans hsrv
    have hstatus (hasync : (calls k).async = true) : (s.header i).status = none :=
      (ho.found_status hasync).trans (hsta hasync)
    refine ⟨hw.source, hserver.trans hc.symm, ⟨?_, ?_⟩, fun _ => ho.source.mpr hc, ?_, ?_, ?_⟩
    · intro hsome
      by_contra hasync
      rw [hstatus (by simpa using hasync)] at hsome
      cases hsome
    · intro hasync
      rw [hw.status hasync]
      rfl
    · intro hsome
      rw [hserver] at hsome
      cases hsome
    · intro hsome
      apply ho.status.mpr
      by_contra hasync
      rw [hstatus (by simpa using hasync)] at hsome
      cases hsome
    · rw [hw.source hc]
      rfl

def TracedRun (dest : ℕ) (calls : ℕ → SendCall) (guard : State → Action → Prop) (maxMessages : ℕ)
    (s : State) (o : Origins) : Prop :=
  Runs.Reaches (Runs.watched (step dest calls) (noteOrigins calls)) (fun p a => guard p.1 a)
    (initial maxMessages, noOrigins) (s, o)

theorem TracedRun.invariant {guard : State → Action → Prop} {n : ℕ} {o : Origins}
    {P : State → Origins → Prop} (hr : TracedRun dest calls guard n s o)
    (h0 : P (initial n) noOrigins)
    (hstep : ∀ s a t o, P s o → guard s a → step dest calls s a = some t →
      P t (noteOrigins calls s a o)) : P s o := by
  refine Runs.Reaches.invariant (I := fun p => P p.1 p.2) ?_ hr h0
  rintro ⟨s, o⟩ a ⟨t, o'⟩ hp hg hst
  obtain ⟨hst, rfl⟩ := Runs.watched_eq_some.mp hst
  exact hstep s a t o hp hg hst

theorem TracedRun.traced {guard : State → Action → Prop} {n : ℕ} {o : Origins}
    (hr : TracedRun dest calls guard n s o) : Traced dest calls s o :=
  hr.invariant (traced_initial dest calls n) (fun _ _ _ _ h _ hst => h.step hst)

/-- In a run whose sends all find clean slots, the record says so of every filled slot. -/
theorem TracedRun.found_clean {n : ℕ} {o : Origins}
    (hr : TracedRun dest calls (fun s a => fillsClean calls s a = true) n s o) (k : ℕ)
    (hk : (s.senders k).filled = true) : cleanSlot (calls k) (o.found k) = true := by
  refine hr.invariant (P := fun s o => ∀ k, (s.senders k).filled = true →
    cleanSlot (calls k) (o.found k) = true) (fun k hk => by cases hk) ?_ k hk
  intro s a t o h hg hst k' hk'
  rcases step_pointers hst with hp | ⟨k, i, rfl, hpc, rfl⟩
  · rw [noteOrigins_of_kept hst hp]
    exact h k' (hp.filled k' ▸ hk')
  · simp only [noteOrigins, hpc, Origins.fill]
    by_cases he : k' = k
    · rw [he, Function.update_self]
      simpa only [fillsClean, hpc] using hg
    · rw [Function.update_of_ne he]
      have hs : (filledState dest calls s k i).senders k' = s.senders k' :=
        Function.update_of_ne he _ _
      exact h k' (hs ▸ hk')

/-- In every run whose sends are all by ordinary clients that find no `Server` in their slot, and no
`Status` when they are asynchronous, every message in the hands of the receiver carries its own
envelope. In every run at all, a message carries its own envelope exactly when its send was such. -/
theorem ipc_envelope_own (dest : ℕ) (calls : ℕ → SendCall) (userMode : ℕ → Bool)
    (resolve : ℕ → ℕ → ℕ) (maxMessages : ℕ) :
    (∀ s o, TracedRun dest calls (fun s a => fillsClean calls s a = true) maxMessages s o →
      ∀ i k, activeSlot s = some i → s.history.holder i = some k →
        Envelope k (calls k) o i (s.header i) ∧
        ipcQueryMessageHeader s = some (s.header i) ∧
        messageSource s = some (calls k).source ∧
        ipcGetMessagePacket userMode resolve s =
          some (if userMode (calls k).source then resolve (calls k).source (calls k).body.data
            else (calls k).body.data)) ∧
    (∀ s o, TracedRun dest calls Runs.anyStep maxMessages s o →
      ∀ i k, activeSlot s = some i → s.history.holder i = some k →
        (Envelope k (calls k) o i (s.header i) ↔ cleanSlot (calls k) (o.found k) = true)) := by
  constructor
  · intro s o hr i k ha hk
    obtain ⟨hown, hp⟩ := hr.traced.owned.holder_of_active ha hk
    have hf := SendPc.filled_of_posted hp
    have hcur := current_of_activeSlot ha
    have hclean := hr.found_clean k hf
    have hsource := (hr.traced.written k i hf hown).source (cleanSlot_eq_true.mp hclean).1
    have hmsg : messageSource s = some (calls k).source := by
      rw [messageSource, hcur, Option.bind_some, hsource]
    refine ⟨(hr.traced.envelope_iff ha hk).mpr hclean, ?_, hmsg, ?_⟩
    · rw [ipcQueryMessageHeader, hcur, Option.map_some]
    · rw [ipcGetMessagePacket, hcur, Option.bind_some, hmsg, Option.map_some,
        (hr.traced.owned.call k).body hp i hown]
  · intro s o hr i k ha hk
    exact hr.traced.envelope_iff ha hk

def mixedCalls : ℕ → SendCall
  | 0 => ⟨1, none, false, ⟨7, 0x1000, 8⟩⟩
  | 1 => ⟨2, none, true, ⟨8, 0x2000, 8⟩⟩
  | 2 => ⟨3, some 9, true, ⟨9, 0x3000, 8⟩⟩
  | _ => ⟨4, none, false, ⟨10, 0x4000, 8⟩⟩

/-- The call `k` posts, and the receiver returns and dispatches its message. -/
def roundTrip (k : ℕ) : List Action := List.replicate 9 (.send k) ++ List.replicate 10 .receive

/-- The call `k` posts, and the receiver returns its message. -/
def handOver (k : ℕ) : List Action := List.replicate 9 (.send k) ++ List.replicate 4 .receive

theorem tracedRun_of_guardedRun {guard : State → Action → Prop} [∀ s a, Decidable (guard s a)]
    {n : ℕ} {as : List Action} {p : State × Origins}
    (h : Runs.guardedRun (Runs.watched (step dest calls) (noteOrigins calls))
      (fun p a => guard p.1 a) (initial n, noOrigins) as = some p) :
    TracedRun dest calls guard n p.1 p.2 := Runs.reaches_of_guardedRun as h

/-- A synchronous send that reuses the slot of another one. -/
theorem ipc_envelope_own_reused_slot : ∃ s o,
    TracedRun 0 mixedCalls (fun s a => fillsClean mixedCalls s a = true) 50 s o ∧
      activeSlot s = some 0 ∧ (o.found 3).status = some 0 ∧
      Envelope 3 (mixedCalls 3) o 0 (s.header 0) := by
  have hrun : (Runs.guardedRun (Runs.watched (step 0 mixedCalls) (noteOrigins mixedCalls))
      (fun p a => fillsClean mixedCalls p.1 a = true) (initial 50, noOrigins)
      (roundTrip 0 ++ handOver 3)).map
        (fun p => (activeSlot p.1, p.1.history.holder 0, (p.2.found 3).status)) =
      some (some 0, some 3, some 0) := by decide
  obtain ⟨p, hp, hd⟩ := Option.map_eq_some_iff.mp hrun
  obtain ⟨ha, hh, hf⟩ : activeSlot p.1 = some 0 ∧ p.1.history.holder 0 = some 3 ∧
      (p.2.found 3).status = some 0 := by simpa only [Prod.mk.injEq] using hd
  have hr : TracedRun 0 mixedCalls (fun s a => fillsClean mixedCalls s a = true) 50 p.1 p.2 :=
    tracedRun_of_guardedRun hp
  exact ⟨p.1, p.2, hr, ha, hf,
    ((ipc_envelope_own 0 mixedCalls (fun _ => false) (fun _ a => a) 50).1 p.1 p.2 hr 0 3 ha hh).1⟩

/-- An asynchronous message with the `Status` of the synchronous call before it, an ordinary message
with the `Server` of the server client before it, and a message of a server client whose null
`Source` is dereferenced. -/
theorem ipc_envelope_stale :
    (∃ s o, TracedRun 0 mixedCalls Runs.anyStep 50 s o ∧ activeSlot s = some 0 ∧
      s.history.holder 0 = some 1 ∧ (mixedCalls 1).async = true ∧ (s.header 0).status = some 0 ∧
      ¬ Envelope 1 (mixedCalls 1) o 0 (s.header 0)) ∧
    (∃ s o, TracedRun 0 mixedCalls Runs.anyStep 50 s o ∧ activeSlot s = some 0 ∧
      s.history.holder 0 = some 1 ∧ (mixedCalls 1).server = none ∧ (s.header 0).server = some 9 ∧
      ¬ Envelope 1 (mixedCalls 1) o 0 (s.header 0)) ∧
    (∃ s o, TracedRun 0 mixedCalls Runs.anyStep 50 s o ∧ activeSlot s = some 0 ∧
      s.history.holder 0 = some 2 ∧ messageSource s = none ∧
      ¬ Envelope 2 (mixedCalls 2) o 0 (s.header 0)) := by
  refine ⟨?_, ?_, ?_⟩
  · have hrun : (Runs.guardedRun (Runs.watched (step 0 mixedCalls) (noteOrigins mixedCalls))
        (fun p a => Runs.anyStep p.1 a) (initial 50, noOrigins) (roundTrip 0 ++ handOver 1)).map
          (fun p => (activeSlot p.1, p.1.history.holder 0, (p.1.header 0).status)) =
        some (some 0, some 1, some 0) := by decide
    obtain ⟨p, hp, hd⟩ := Option.map_eq_some_iff.mp hrun
    obtain ⟨ha, hh, hst⟩ : activeSlot p.1 = some 0 ∧ p.1.history.holder 0 = some 1 ∧
        (p.1.header 0).status = some 0 := by simpa only [Prod.mk.injEq] using hd
    refine ⟨p.1, p.2, tracedRun_of_guardedRun hp, ha, hh, rfl, hst, ?_⟩
    intro he
    have hsync := he.status.mp (by rw [hst]; rfl)
    cases hsync
  · have hrun : (Runs.guardedRun (Runs.watched (step 0 mixedCalls) (noteOrigins mixedCalls))
        (fun p a => Runs.anyStep p.1 a) (initial 50, noOrigins) (roundTrip 2 ++ handOver 1)).map
          (fun p => (activeSlot p.1, p.1.history.holder 0, (p.1.header 0).server)) =
        some (some 0, some 1, some 9) := by decide
    obtain ⟨p, hp, hd⟩ := Option.map_eq_some_iff.mp hrun
    obtain ⟨ha, hh, hsrv⟩ : activeSlot p.1 = some 0 ∧ p.1.history.holder 0 = some 1 ∧
        (p.1.header 0).server = some 9 := by simpa only [Prod.mk.injEq] using hd
    refine ⟨p.1, p.2, tracedRun_of_guardedRun hp, ha, hh, rfl, hsrv, ?_⟩
    intro he
    have hserver := he.server
    rw [hsrv] at hserver
    cases hserver
  · have hrun : (Runs.guardedRun (Runs.watched (step 0 mixedCalls) (noteOrigins mixedCalls))
        (fun p a => Runs.anyStep p.1 a) (initial 50, noOrigins) (handOver 2)).map
          (fun p => (activeSlot p.1, p.1.history.holder 0, (p.1.header 0).source,
          messageSource p.1)) =
        some (some 0, some 2, none, none) := by decide
    obtain ⟨p, hp, hd⟩ := Option.map_eq_some_iff.mp hrun
    obtain ⟨ha, hh, hsrc, hm⟩ : activeSlot p.1 = some 0 ∧ p.1.history.holder 0 = some 2 ∧
        (p.1.header 0).source = none ∧ messageSource p.1 = none := by
      simpa only [Prod.mk.injEq] using hd
    refine ⟨p.1, p.2, tracedRun_of_guardedRun hp, ha, hh, hm, ?_⟩
    intro he
    have hset := he.source_set
    rw [hsrc] at hset
    cases hset

end DevOs.Ipc
