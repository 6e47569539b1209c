import DevOs.Lib.Choice
import DevOs.Scheduler.Model

/-!
# What a scan of the waiting queues finds

Both scans go through the non-null slots of a chain in order, until the counter in `rdi` is used up.
`meet` is what one thread does to the registers and `looked` the list of the threads a scan meets.
The choice is the first thread of smallest priority number among those it meets and admits, and the
second scan counts the ready ones. The sleep test loads the time into `rdi`, so the list may end
before the threads of the chain do.
-/

namespace DevOs.Scheduler

open Choice

/-- The flags in `mask` that are set. -/
def Thread.has (th : Thread) (mask : BitVec 64) : Bool := th.state &&& mask != 0

def admits (xmm4 xmm13 : ℕ) (th : Thread) : Bool :=
  decide (th.readyAt ≤ xmm4) && th.has (thsRunnable ||| thsAlive) &&
    !th.has (thsManual ||| thsIdle) &&
    (!th.has thsSleep || decide (th.sleepUntil ≤ xmm13)) && (!th.has thsIoWait || th.has thsIoPin)

def sleepTested (xmm4 : ℕ) (th : Thread) : Bool :=
  decide (th.readyAt ≤ xmm4) && th.has (thsRunnable ||| thsAlive) &&
    !th.has (thsManual ||| thsIdle) &&
    th.has thsSleep

/-- The memory after the tests of the thread `t`. -/
def wake (xmm4 xmm13 : ℕ) (m : ℕ → Thread) (t : ℕ) : ℕ → Thread :=
  let m' :=
    if sleepTested xmm4 (m t) ∧ (m t).sleepUntil ≤ xmm13 then clearState m t thsSleep else m
  if admits xmm4 xmm13 (m t) ∧ (m t).has thsIoWait then clearState m' t (thsIoWait ||| thsIoPin)
  else m'

/-- The registers after the thread `t` was met. `counts` tells the scan that counts ready
threads. -/
def meet (counts : Bool) (xmm4 xmm13 : ℕ) (s : Scan) (t : ℕ) : Scan :=
  let th := s.threads t
  let beats := decide (th.threadPriority < s.r11)
  { threads := if beats then wake xmm4 xmm13 s.threads t else s.threads
    rdi := if beats && sleepTested xmm4 th then xmm13 else s.rdi - 1
    r11 := if beats && admits xmm4 xmm13 th then th.threadPriority else s.r11
    rbx := if beats && admits xmm4 xmm13 th then some t else s.rbx
    r9 := if counts && decide (th.readyAt ≤ xmm4) then (s.r9 + 1) % 2 ^ 64 else s.r9 }

variable {counts : Bool} {xmm4 xmm13 : ℕ} {s : Scan} {t : ℕ}

theorem clearState_self (m : ℕ → Thread) (t : ℕ) (mask : BitVec 64) :
    clearState m t mask t = { m t with state := (m t).state &&& ~~~mask } := Function.update_self ..

theorem clearState_of_ne (m : ℕ → Thread) {t t' : ℕ} (h : t' ≠ t) (mask : BitVec 64) :
    clearState m t mask t' = m t' := Function.update_of_ne h ..

theorem wake_fields (m : ℕ → Thread) (t t' : ℕ) :
    wake xmm4 xmm13 m t t' = { m t' with state := (wake xmm4 xmm13 m t t').state } := by
  by_cases h : t' = t
  · subst h
    simp only [wake]
    split_ifs <;> simp [clearState_self]
  · simp only [wake]
    split_ifs <;> simp [clearState_of_ne _ h]

theorem has_clear_of_disjoint {th : Thread} {mask other : BitVec 64}
    (h : ~~~mask &&& other = other) :
    ({ th with state := th.state &&& ~~~mask } : Thread).has other = th.has other := by
  simp only [Thread.has, BitVec.and_assoc, h]

theorem has_clear_self {th : Thread} {mask other : BitVec 64} (h : ~~~mask &&& other = 0) :
    ({ th with state := th.state &&& ~~~mask } : Thread).has other = false := by
  simp [Thread.has, BitVec.and_assoc, h]

theorem admits_clear_sleep {th : Thread} (hs : th.sleepUntil ≤ xmm13) :
    admits xmm4 xmm13 { th with state := th.state &&& ~~~thsSleep } = admits xmm4 xmm13 th := by
  have h1 : ~~~thsSleep &&& (thsRunnable ||| thsAlive) = thsRunnable ||| thsAlive := by decide
  have h2 : ~~~thsSleep &&& (thsManual ||| thsIdle) = thsManual ||| thsIdle := by decide
  have h3 : ~~~thsSleep &&& thsIoWait = thsIoWait := by decide
  have h4 : ~~~thsSleep &&& thsIoPin = thsIoPin := by decide
  have h5 : ~~~thsSleep &&& thsSleep = 0 := by decide
  simp only [admits, has_clear_of_disjoint h1, has_clear_of_disjoint h2, has_clear_of_disjoint h3,
    has_clear_of_disjoint h4, has_clear_self h5, hs, decide_true, Bool.not_false, Bool.or_true]

theorem admits_clear_io {th : Thread} (ha : admits xmm4 xmm13 th = true) :
    admits xmm4 xmm13 { th with state := th.state &&& ~~~(thsIoWait ||| thsIoPin) } = true := by
  have h1 : ~~~(thsIoWait ||| thsIoPin) &&& (thsRunnable ||| thsAlive) =
      thsRunnable ||| thsAlive := by
    decide
  have h2 : ~~~(thsIoWait ||| thsIoPin) &&& (thsManual ||| thsIdle) = thsManual ||| thsIdle := by
    decide
  have h3 : ~~~(thsIoWait ||| thsIoPin) &&& thsSleep = thsSleep := by decide
  have h4 : ~~~(thsIoWait ||| thsIoPin) &&& thsIoWait = 0 := by decide
  simp only [admits, Bool.and_eq_true] at ha
  obtain ⟨⟨⟨⟨hr, hm⟩, hi⟩, hs⟩, _⟩ := ha
  simp only [admits, has_clear_of_disjoint h1, has_clear_of_disjoint h2, has_clear_of_disjoint h3,
    has_clear_self h4, hr, hm, hi, hs]
  rfl

theorem admits_wake (m : ℕ → Thread) (t t' : ℕ) :
    admits xmm4 xmm13 (wake xmm4 xmm13 m t t') = admits xmm4 xmm13 (m t') := by
  by_cases h : t' = t
  · subst h
    simp only [wake]
    split_ifs with ha hs hs
    · rw [clearState_self, clearState_self, admits_clear_io, ha.1]
      rw [admits_clear_sleep hs.2, ha.1]
    · rw [clearState_self, admits_clear_io ha.1, ha.1]
    · rw [clearState_self, admits_clear_sleep hs.2]
    · rfl
  · simp only [wake]
    split_ifs <;> simp [clearState_of_ne _ h]

theorem stateTest_eq (hr : (s.threads t).readyAt ≤ xmm4) :
    stateTest xmm13 t s =
      (if (s.threads t).has (thsRunnable ||| thsAlive) = false then .masked
        else if admits xmm4 xmm13 (s.threads t) then .accepted else .refused,
      { s with
        threads := wake xmm4 xmm13 s.threads t
        rdi := if sleepTested xmm4 (s.threads t) then xmm13 else s.rdi }) := by
  simp only [stateTest, ioWaitTest, wake, admits, sleepTested, Thread.has, hr]
  by_cases h1 : (s.threads t).state &&& (thsRunnable ||| thsAlive) = 0#64
  · simp [h1]
  by_cases h2 : (s.threads t).state &&& (thsManual ||| thsIdle) = 0#64
  swap
  · simp [h1, h2]
  by_cases h3 : (s.threads t).state &&& thsSleep = 0#64
  · by_cases h4 : (s.threads t).state &&& thsIoWait = 0#64
    · simp [h1, h2, h3, h4]
    · by_cases h5 : (s.threads t).state &&& thsIoPin = 0#64 <;> simp [h1, h2, h3, h4, h5]
  · by_cases h6 : (s.threads t).sleepUntil ≤ xmm13
    · have h6' : ¬ xmm13 < (s.threads t).sleepUntil := by omega
      by_cases h4 : (s.threads t).state &&& thsIoWait = 0#64
      · simp [h1, h2, h3, h4, h6, h6']
      · by_cases h5 : (s.threads t).state &&& thsIoPin = 0#64 <;> simp [h1, h2, h3, h4, h5, h6, h6']
    · have h6' : xmm13 < (s.threads t).sleepUntil := by omega
      simp [h1, h2, h3, h6, h6']

theorem wake_of_not_ready {m : ℕ → Thread} (hr : ¬ (m t).readyAt ≤ xmm4) :
    wake xmm4 xmm13 m t = m := by
  simp [wake, admits, sleepTested, hr]

theorem admits_has_mask {th : Thread} (ha : admits xmm4 xmm13 th = true) :
    th.has (thsRunnable ||| thsAlive) = true := by
  simp only [admits, Bool.and_eq_true] at ha
  exact ha.1.1.1.2

def meetAll (counts : Bool) (xmm4 xmm13 : ℕ) : List ℕ → Scan → Scan
  | [], s => s
  | t :: ts, s => if s.rdi = 0 then s else meetAll counts xmm4 xmm13 ts (meet counts xmm4 xmm13 s t)

def looked (counts : Bool) (xmm4 xmm13 : ℕ) : List ℕ → Scan → List ℕ
  | [], _ => []
  | t :: ts, s =>
    if s.rdi = 0 then [] else t :: looked counts xmm4 xmm13 ts (meet counts xmm4 xmm13 s t)

/-- What a slot of a scan does. The scan is left where the counter is used up, or at a thread that
no other can beat. -/
structure SlotMeets (counts : Bool) (xmm4 xmm13 : ℕ) (g : Option ℕ → Scan → Bool × Scan) :
    Prop where
  spent : ∀ slot s, s.rdi = 0 → g slot s = (true, s)
  null : ∀ s, s.rdi ≠ 0 → g none s = (false, s)
  thread : ∀ t s, s.rdi ≠ 0 → ∃ e, g (some t) s = (e, meet counts xmm4 xmm13 s t) ∧
    (e = true → (meet counts xmm4 xmm13 s t).rdi = 0 ∨
      counts = false ∧ (meet counts xmm4 xmm13 s t).r11 = 0)

theorem highestSlot_meets {masked : Scan → Bool} (hm : ∀ s, masked s = true → s.rdi = 0) :
    SlotMeets false xmm4 xmm13 (highestSlot masked xmm4 xmm13) := by
  refine ⟨fun slot s h => by simp only [highestSlot, if_pos h],
    fun s h => by simp only [highestSlot, if_neg h], ?_⟩
  intro t s h
  simp only [highestSlot, if_neg h]
  by_cases hp : s.r11 ≤ (s.threads t).threadPriority
  · refine ⟨false, ?_, fun he => by cases he⟩
    simp only [if_pos hp, meet, Nat.not_lt.mpr hp, decide_false, Bool.false_and, Bool.false_eq_true,
      if_false]
  have hp' : (s.threads t).threadPriority < s.r11 := Nat.lt_of_not_le hp
  by_cases hr : (s.threads t).readyAt ≤ xmm4
  swap
  · refine ⟨false, ?_, fun he => by cases he⟩
    simp only [if_neg hp, if_pos (Nat.lt_of_not_le hr), meet, wake_of_not_ready hr, ite_self]
    simp [sleepTested, admits, hr]
  have hr' : ¬ xmm4 < (s.threads t).readyAt := Nat.not_lt.mpr hr
  simp only [if_neg hp, if_neg hr']
  rw [stateTest_eq (s := { s with rdi := s.rdi - 1 }) hr]
  by_cases hk : (s.threads t).has (thsRunnable ||| thsAlive) = false
  · have hna : admits xmm4 xmm13 (s.threads t) = false := by
      rw [← Bool.not_eq_true]
      intro ha
      rw [admits_has_mask ha] at hk
      cases hk
    simp only [if_pos hk, meet, hp', hna, decide_true, Bool.true_and, Bool.false_and,
      Bool.and_false, Bool.false_eq_true, if_true, if_false]
    exact ⟨_, rfl, fun he => Or.inl (hm _ he)⟩
  · cases hadm : admits xmm4 xmm13 (s.threads t) with
    | false =>
      simp only [if_neg hk, meet, hp', hadm, decide_true, Bool.true_and, Bool.false_and,
        Bool.false_eq_true, if_true, if_false]
      exact ⟨_, rfl, fun he => by cases he⟩
    | true =>
      have hprio : (wake xmm4 xmm13 s.threads t t).threadPriority =
          (s.threads t).threadPriority := by
        rw [wake_fields]
      simp only [if_neg hk, meet, hp', hadm, decide_true, Bool.true_and, Bool.false_and,
        Bool.false_eq_true, if_true, if_false, Scan.choose, hprio]
      exact ⟨_, rfl, fun he => Or.inr ⟨trivial, of_decide_eq_true he⟩⟩

theorem fullSlot_meets : SlotMeets true xmm4 xmm13 (fullSlot xmm4 xmm13) := by
  refine ⟨fun slot s h => by simp only [fullSlot, if_pos h],
    fun s h => by simp only [fullSlot, if_neg h], ?_⟩
  intro t s h
  simp only [fullSlot, if_neg h]
  refine ⟨false, ?_, fun he => by cases he⟩
  by_cases hr : (s.threads t).readyAt ≤ xmm4
  swap
  · simp only [if_pos (Nat.lt_of_not_le hr), meet, wake_of_not_ready hr, ite_self]
    simp [sleepTested, admits, hr]
  have hr' : ¬ xmm4 < (s.threads t).readyAt := Nat.not_lt.mpr hr
  by_cases hp : s.r11 ≤ (s.threads t).threadPriority
  · simp only [if_neg hr', if_pos hp, meet, Nat.not_lt.mpr hp, hr, decide_false, decide_true,
      Bool.false_and, Bool.and_self, Bool.false_eq_true, if_false, if_true]
  have hp' : (s.threads t).threadPriority < s.r11 := Nat.lt_of_not_le hp
  simp only [if_neg hp, if_neg hr']
  rw [stateTest_eq (s := { s with rdi := s.rdi - 1, r9 := (s.r9 + 1) % 2 ^ 64 }) hr]
  by_cases hk : (s.threads t).has (thsRunnable ||| thsAlive) = false
  · have hna : admits xmm4 xmm13 (s.threads t) = false := by
      rw [← Bool.not_eq_true]
      intro ha
      rw [admits_has_mask ha] at hk
      cases hk
    simp only [if_pos hk, meet, hp', hr, hna, decide_true, Bool.true_and, Bool.and_false,
      Bool.false_eq_true, if_true, if_false]
  · cases hadm : admits xmm4 xmm13 (s.threads t) with
    | false =>
      simp only [if_neg hk, meet, hp', hr, hadm, decide_true, Bool.true_and, Bool.and_false,
        Bool.false_eq_true, if_true, if_false]
    | true =>
      have hprio : (wake xmm4 xmm13 s.threads t t).threadPriority =
          (s.threads t).threadPriority := by
        rw [wake_fields]
      simp only [if_neg hk, meet, hp', hr, hadm, decide_true, Bool.true_and, if_true,
        Scan.choose, hprio]

def Scan.result (s : Scan) : (ℕ → Thread) × ℕ × Option ℕ × ℕ := (s.threads, s.r11, s.rbx, s.r9)

theorem meetAll_spent (ts : List ℕ) (h : s.rdi = 0) : meetAll counts xmm4 xmm13 ts s = s := by
  cases ts with
  | nil => rfl
  | cons t ts => rw [meetAll, if_pos h]

theorem meetAll_append (ts us : List ℕ) : meetAll counts xmm4 xmm13 (ts ++ us) s =
    meetAll counts xmm4 xmm13 us (meetAll counts xmm4 xmm13 ts s) := by
  induction ts generalizing s with
  | nil => rfl
  | cons t ts ih =>
    rw [List.cons_append, meetAll, meetAll]
    split_ifs with h
    · rw [meetAll_spent us h]
    · exact ih

/-- Once the highest priority is found, further threads change nothing but the counter. -/
theorem meetAll_unbeatable (ts : List ℕ) (h : s.r11 = 0) :
    (meetAll false xmm4 xmm13 ts s).result = s.result := by
  induction ts generalizing s with
  | nil => rfl
  | cons t ts ih =>
    rw [meetAll]
    split_ifs
    · rfl
    · have hm : (meet false xmm4 xmm13 s t).result = s.result := by
        simp [Scan.result, meet, h]
      rw [ih (by simp [meet, h]), hm]

/-- After one slot the scan goes on, or is left where meeting more threads would change nothing. -/
theorem SlotMeets.slot {g : Option ℕ → Scan → Bool × Scan} (hg : SlotMeets counts xmm4 xmm13 g)
    (slot : Option ℕ) (s : Scan) :
    ((g slot s).1 = false → ∀ ts, meetAll counts xmm4 xmm13 (slot.toList ++ ts) s =
      meetAll counts xmm4 xmm13 ts (g slot s).2) ∧
    ((g slot s).1 = true → ∀ ts, (meetAll counts xmm4 xmm13 (slot.toList ++ ts) s).result =
      (g slot s).2.result) := by
  by_cases hs : s.rdi = 0
  · rw [hg.spent slot s hs]
    exact ⟨fun h => (by cases h), fun _ ts => by rw [meetAll_spent _ hs]⟩
  cases slot with
  | none =>
    rw [hg.null s hs]
    exact ⟨fun _ ts => rfl, fun h => (by cases h)⟩
  | some t =>
    obtain ⟨e, he, hexit⟩ := hg.thread t s hs
    rw [he]
    have hstep (ts : List ℕ) : meetAll counts xmm4 xmm13 ((some t).toList ++ ts) s =
        meetAll counts xmm4 xmm13 ts (meet counts xmm4 xmm13 s t) := by
      rw [Option.toList_some, List.singleton_append, meetAll, if_neg hs]
    refine ⟨fun _ ts => hstep ts, fun htrue ts => ?_⟩
    rw [hstep]
    rcases hexit htrue with h0 | ⟨rfl, h0⟩
    · rw [meetAll_spent ts h0]
    · exact meetAll_unbeatable ts h0

/-- The loop over one queue meets the threads of its slots, or is left where meeting more threads
would change nothing. -/
theorem pairLoop_meets {g₁ g₂ : Option ℕ → Scan → Bool × Scan} (h₁ : SlotMeets counts xmm4 xmm13 g₁)
    (h₂ : SlotMeets counts xmm4 xmm13 g₂) : ∀ (slots : List (Option ℕ)) (s : Scan),
    slots.length % 2 = 0 →
    ((pairLoop g₁ g₂ slots s).1 = false →
      (pairLoop g₁ g₂ slots s).2 = meetAll counts xmm4 xmm13 (slots.filterMap id) s) ∧
    ((pairLoop g₁ g₂ slots s).1 = true → ∀ us,
      (meetAll counts xmm4 xmm13 (slots.filterMap id ++ us) s).result =
        (pairLoop g₁ g₂ slots s).2.result)
  | [], s, _ => ⟨fun _ => rfl, fun h => by cases h⟩
  | [_], _, h => by cases h
  | a :: b :: slots, s, hlen => by
    have hfm : (a :: b :: slots).filterMap id = a.toList ++ (b.toList ++ slots.filterMap id) := by
      cases a <;> cases b <;> rfl
    rw [pairLoop, hfm]
    obtain ⟨hgo, hstop⟩ := h₁.slot a s
    cases hfirst : g₁ a s with
    | mk e s₁ =>
      rw [hfirst] at hgo hstop
      cases e with
      | true =>
        refine ⟨fun h => (by cases h), fun _ us => ?_⟩
        rw [List.append_assoc]
        exact hstop rfl _
      | false =>
        obtain ⟨hgo₂, hstop₂⟩ := h₂.slot b s₁
        cases hsecond : g₂ b s₁ with
        | mk e s₂ =>
          rw [hsecond] at hgo₂ hstop₂
          cases e with
          | true =>
            simp only [hsecond]
            refine ⟨fun h => (by cases h), fun _ us => ?_⟩
            rw [List.append_assoc, hgo rfl, List.append_assoc]
            exact hstop₂ rfl _
          | false =>
            simp only [hsecond]
            have hlen' : slots.length % 2 = 0 := by
              rw [List.length_cons, List.length_cons] at hlen
              omega
            obtain ⟨hgo₃, hstop₃⟩ := pairLoop_meets h₁ h₂ slots s₂ hlen'
            refine ⟨fun h => ?_, fun h us => ?_⟩
            · rw [hgo rfl, hgo₂ rfl]
              exact hgo₃ h
            · rw [List.append_assoc, hgo rfl, List.append_assoc, hgo₂ rfl]
              exact hstop₃ h us

def QueueChain.queued (q : QueueChain) : List ℕ :=
  q.queues.flatMap fun w => (List.ofFn w.threads).filterMap id

theorem chainLoop_meets {g₁ g₂ : Option ℕ → Scan → Bool × Scan}
    (h₁ : SlotMeets counts xmm4 xmm13 g₁) (h₂ : SlotMeets counts xmm4 xmm13 g₂)
    (ws : List WaitingQueue) :
    (chainLoop (pairLoop g₁ g₂) ws s).result = (meetAll counts xmm4 xmm13
      (ws.flatMap fun w => (List.ofFn w.threads).filterMap id) s).result := by
  induction ws generalizing s with
  | nil => rfl
  | cons w ws ih =>
    obtain ⟨hgo, hstop⟩ := pairLoop_meets h₁ h₂ (List.ofFn w.threads) s (by rw [List.length_ofFn])
    rw [chainLoop, List.flatMap_cons]
    cases hbody : pairLoop g₁ g₂ (List.ofFn w.threads) s with
    | mk e s₁ =>
      rw [hbody] at hgo hstop
      cases e with
      | true => exact (hstop rfl _).symm
      | false =>
        rw [meetAll_append, ← hgo rfl]
        exact ih

theorem sseHighestPriorityThreadScan_meets (q : QueueChain) :
    (sseHighestPriorityThreadScan xmm4 xmm13 q s).threads =
      (meetAll false xmm4 xmm13 q.queued s).threads ∧
    (sseHighestPriorityThreadScan xmm4 xmm13 q s).rbx =
      (meetAll false xmm4 xmm13 q.queued s).rbx := by
  have h₁ : SlotMeets false xmm4 xmm13 (highestFirstSlot xmm4 xmm13) :=
    highestSlot_meets fun _ h => Bool.noConfusion h
  have h₂ : SlotMeets false xmm4 xmm13 (highestSecondSlot xmm4 xmm13) :=
    highestSlot_meets fun _ h => of_decide_eq_true h
  have h := chainLoop_meets (s := s) h₁ h₂ q.queues
  simp only [Scan.result, Prod.mk.injEq] at h
  exact ⟨h.1, h.2.2.1⟩

theorem sseFullScan_meets (q : QueueChain) :
    (sseFullScan xmm4 xmm13 q s).threads = (meetAll true xmm4 xmm13 q.queued s).threads ∧
    (sseFullScan xmm4 xmm13 q s).rbx = (meetAll true xmm4 xmm13 q.queued s).rbx ∧
    (sseFullScan xmm4 xmm13 q s).r9 = (meetAll true xmm4 xmm13 q.queued s).r9 := by
  have h₁ : SlotMeets true xmm4 xmm13 (fullSlot xmm4 xmm13) := fullSlot_meets
  have h := chainLoop_meets (s := s) h₁ h₁ q.queues
  simp only [Scan.result, Prod.mk.injEq] at h
  exact ⟨h.1, h.2.2⟩

theorem meet_fields (t' : ℕ) : (meet counts xmm4 xmm13 s t).threads t' =
    { s.threads t' with state := ((meet counts xmm4 xmm13 s t).threads t').state } := by
  simp only [meet]
  split_ifs
  · exact wake_fields ..
  · rfl

theorem meet_admits (t' : ℕ) : admits xmm4 xmm13 ((meet counts xmm4 xmm13 s t).threads t') =
    admits xmm4 xmm13 (s.threads t') := by
  simp only [meet]
  split_ifs
  · exact admits_wake ..
  · rfl

theorem meetAll_fields (ts : List ℕ) (t' : ℕ) : (meetAll counts xmm4 xmm13 ts s).threads t' =
    { s.threads t' with state := ((meetAll counts xmm4 xmm13 ts s).threads t').state } := by
  induction ts generalizing s with
  | nil => rfl
  | cons t ts ih =>
    rw [meetAll]
    split_ifs
    · rfl
    · rw [ih, meet_fields]

theorem meetAll_admits (ts : List ℕ) (t' : ℕ) :
    admits xmm4 xmm13 ((meetAll counts xmm4 xmm13 ts s).threads t') =
      admits xmm4 xmm13 (s.threads t') := by
  induction ts generalizing s with
  | nil => rfl
  | cons t ts ih =>
    rw [meetAll]
    split_ifs
    · rfl
    · rw [ih, meet_admits]

def priorities (m : ℕ → Thread) (t : ℕ) : ℕ := (m t).threadPriority

def admitted (xmm4 xmm13 : ℕ) (m : ℕ → Thread) (t : ℕ) : Bool := admits xmm4 xmm13 (m t)

theorem priorities_meet :
    priorities (meet counts xmm4 xmm13 s t).threads = priorities s.threads := by
  funext t'
  rw [priorities, meet_fields, priorities]

theorem admitted_meet : admitted xmm4 xmm13 (meet counts xmm4 xmm13 s t).threads =
    admitted xmm4 xmm13 s.threads := funext fun _ => meet_admits _

/-- The choice of a scan: the first thread of smallest priority number, below the bound it started
with, among those it meets and admits, or else the candidate it started with. -/
theorem meetAll_rbx (ts : List ℕ) : (meetAll counts xmm4 xmm13 ts s).rbx =
    (firstMin (below (admitted xmm4 xmm13 s.threads) (priorities s.threads) s.r11)
      (priorities s.threads) (looked counts xmm4 xmm13 ts s)).or s.rbx := by
  induction ts generalizing s with
  | nil => rfl
  | cons t ts ih =>
    rw [meetAll, looked]
    split_ifs with hs
    · rfl
    rw [ih, priorities_meet, admitted_meet]
    by_cases hc : admitted xmm4 xmm13 s.threads t = true ∧ priorities s.threads t < s.r11
    · have hc' : (decide ((s.threads t).threadPriority < s.r11) &&
          admits xmm4 xmm13 (s.threads t)) = true :=
        Bool.and_eq_true_iff.mpr ⟨decide_eq_true hc.2, hc.1⟩
      have hr11 : (meet counts xmm4 xmm13 s t).r11 = priorities s.threads t := if_pos hc'
      have hrbx : (meet counts xmm4 xmm13 s t).rbx = some t := if_pos hc'
      rw [hr11, hrbx, firstMin_below_cons_pos hc.1 hc.2]
      cases firstMin _ _ (looked counts xmm4 xmm13 ts (meet counts xmm4 xmm13 s t)) <;> rfl
    · have hc' : ¬ (decide ((s.threads t).threadPriority < s.r11) &&
          admits xmm4 xmm13 (s.threads t)) = true := by
        rw [Bool.and_eq_true_iff]
        rintro ⟨hp, ha⟩
        exact hc ⟨ha, of_decide_eq_true hp⟩
      have hr11 : (meet counts xmm4 xmm13 s t).r11 = s.r11 := if_neg hc'
      have hrbx : (meet counts xmm4 xmm13 s t).rbx = s.rbx := if_neg hc'
      rw [hr11, hrbx, firstMin_below_cons_neg]
      by_contra hn
      rw [not_or, Bool.not_eq_false, Nat.not_le] at hn
      exact hc hn

/-- The thread is ready at the clock `xmm4`. -/
def readyBy (xmm4 : ℕ) (threads : ℕ → Thread) (t : ℕ) : Bool := (threads t).readyAt ≤ xmm4

theorem readyBy_meet :
    readyBy xmm4 (meet counts xmm4 xmm13 s t).threads = readyBy xmm4 s.threads := by
  funext t'
  rw [readyBy, meet_fields, readyBy]

theorem meetAll_r9 (xmm4 xmm13 : ℕ) (s : Scan) (ts : List ℕ) :
    (meetAll true xmm4 xmm13 ts s).r9 % 2 ^ 64 =
    (s.r9 + (looked true xmm4 xmm13 ts s).countP (readyBy xmm4 s.threads)) % 2 ^ 64 := by
  induction ts generalizing s with
  | nil => rfl
  | cons t ts ih =>
    rw [meetAll, looked]
    split_ifs with hs
    · rfl
    have hr9 : (meet true xmm4 xmm13 s t).r9 =
        if readyBy xmm4 s.threads t then (s.r9 + 1) % 2 ^ 64 else s.r9 := by
      simp only [meet, Bool.true_and]
      rfl
    rw [ih, readyBy_meet, List.countP_cons, hr9]
    split_ifs
    · omega
    · rw [Nat.add_zero]

theorem meetAll_r9_lt (counts : Bool) (xmm4 xmm13 : ℕ) (ts : List ℕ) (h : s.r9 < 2 ^ 64) :
    (meetAll counts xmm4 xmm13 ts s).r9 < 2 ^ 64 := by
  induction ts generalizing s with
  | nil => exact h
  | cons t ts ih =>
    rw [meetAll]
    split_ifs
    · exact h
    · apply ih
      simp only [meet]
      split_ifs
      · exact Nat.mod_lt _ (by decide)
      · exact h

theorem looked_initial (ts : List ℕ) : looked counts xmm4 xmm13 ts s <+: ts := by
  induction ts generalizing s with
  | nil => exact List.prefix_refl []
  | cons t ts ih =>
    rw [looked]
    split_ifs
    · exact List.nil_prefix
    · exact List.prefix_cons_inj t |>.mpr ih

end DevOs.Scheduler
