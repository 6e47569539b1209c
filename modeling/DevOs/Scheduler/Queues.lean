import DevOs.Lib.Runs
import DevOs.Lib.Slots
import DevOs.Scheduler.Accounting
import Mathlib.Order.Interval.Finset.Nat

/-!
# Waiting queues

`SetThreadPriority` takes a free slot for the thread in the chain of its class before it gives up
the slot that the thread had, and `SetPriorityClass` does so for every thread of a process. In every
run of such calls each thread has one slot, in the chain of its class, and the queues count their
threads. `TotalThreads` is right as long as no process with queued threads changes its class, since
the counter that goes down is that of the new class.
-/

namespace DevOs.Scheduler

open Slots

def threadPriorityMin : ℤ := 0x25F
def threadPriorityMax : ℤ := 0x265
def priorityClassMin : ℤ := 0x17E
def priorityClassMax : ℤ := 0x184

namespace WaitingQueue

/-- A queue that `SZeroMemory` has cleared. -/
def zero : WaitingQueue := ⟨fun _ => none, 0⟩

def put (q : WaitingQueue) (i : Fin 0x200) (t : ℕ) : WaitingQueue :=
  ⟨Function.update q.threads i (some t), (q.numThreads + 1) % 2 ^ 32⟩

/-- `NumThreads` goes down and the slot becomes null. -/
def clear (q : WaitingQueue) (i : ℕ) : WaitingQueue :=
  ⟨if h : i < 0x200 then Function.update q.threads ⟨i, h⟩ none else q.threads,
    (q.numThreads + (2 ^ 32 - 1)) % 2 ^ 32⟩

/-- The slot that the loop of `SetThreadPriority` takes in this queue. -/
def room (q : WaitingQueue) : Option (Fin 0x200) :=
  if q.numThreads < 0x200 then firstFree q.threads else none

end WaitingQueue

/-- The loop of `SetThreadPriority`: the queues after it, the place of the one that takes the
thread, and the slot. A queue is allocated behind the last one when none has room. -/
def takeSlot (t : ℕ) : List WaitingQueue → List WaitingQueue × ℕ × Fin 0x200
  | [] => ([WaitingQueue.zero.put 0 t], 0, 0)
  | q :: qs =>
    match q.room with
    | some i => (q.put i t :: qs, 0, i)
    | none => (q :: (takeSlot t qs).1, (takeSlot t qs).2.1 + 1, (takeSlot t qs).2.2)

namespace QueueChain

def setQueues (q : QueueChain) : List WaitingQueue → QueueChain
  | [] => q
  | first :: next => ⟨first, next⟩

def take (q : QueueChain) (t : ℕ) : QueueChain × ℕ × Fin 0x200 :=
  (q.setQueues (takeSlot t q.queues).1, (takeSlot t q.queues).2)

/-- The slot `i` of the queue at the place `k` is given up. -/
def giveUp (q : QueueChain) (k i : ℕ) : QueueChain :=
  q.setQueues (q.queues.modify k fun w => w.clear i)

end QueueChain

/-- Why a call fails: `KERNEL_SERR_INVALID_PARAMETER`, or `SET_SOD_PROCESS_MANAGEMENT` stops the
system. -/
inductive PriorityError where
  | invalidParameter
  | sodProcessManagement
deriving DecidableEq, Repr

namespace Cpu

/-- `TotalThreads` and `NumReadyThreads` of the class go down. -/
def uncount (p : Cpu) (c : PriorityClass) : Cpu :=
  { p with
    totalThreads := Function.update p.totalThreads c ((p.totalThreads c + (2 ^ 64 - 1)) % 2 ^ 64)
    numReadyThreads :=
      Function.update p.numReadyThreads c ((p.numReadyThreads c + (2 ^ 64 - 1)) % 2 ^ 64) }

/-- The thread takes a slot in the chain of the class `c`. -/
def enqueue (p : Cpu) (c : PriorityClass) (t threadPriority : ℕ) : Cpu :=
  let r := (p.threadQueues c).take t
  { p.setThread t { p.threads t with
      threadPriority := threadPriority
      threadWaitingQueueIndex := r.2.2
      waitingQueue := some (c, r.2.1) } with
    threadQueues := Function.update p.threadQueues c r.1
    totalThreads := Function.update p.totalThreads c ((p.totalThreads c + 1) % 2 ^ 64)
    numReadyThreads := Function.update p.numReadyThreads c ((p.numReadyThreads c + 1) % 2 ^ 64) }

def dequeue (p : Cpu) (c : PriorityClass) (k i : ℕ) : Cpu :=
  { p with threadQueues := Function.update p.threadQueues c ((p.threadQueues c).giveUp k i) }

def setThreadPriority (p : Cpu) (t : ℕ) (priority : ℤ) : Except PriorityError Cpu :=
  if t = 0 ∨ priority < threadPriorityMin ∨
    threadPriorityMax < priority then .error .invalidParameter
  else
    let c := p.classOf t
    let threadPriority := (priority - threadPriorityMin).toNat
    match (p.threads t).waitingQueue with
    | some (d, k) =>
      .ok (((p.uncount c).enqueue c t threadPriority).dequeue d k
        (p.threads t).threadWaitingQueueIndex)
    | none => .ok (p.enqueue c t threadPriority)

/-- The loop of `SetPriorityClass` over the threads of the process. -/
def resetPriorities (p : Cpu) : List ℕ → Except PriorityError Cpu
  | [] => .ok p
  | t :: ts =>
    match p.setThreadPriority t ((p.threads t).threadPriority + threadPriorityMin) with
    | .ok p' => p'.resetPriorities ts
    | .error _ => .error .sodProcessManagement

def setClass (p : Cpu) (q : ℕ) (c : PriorityClass) : Cpu :=
  { p with processes := Function.update p.processes q { p.processes q with priorityClass := c } }

def setPriorityClass (p : Cpu) (q : ℕ) (priorityClass : ℤ) : Except PriorityError Cpu :=
  if priorityClass < priorityClassMin ∨
    priorityClassMax < priorityClass then .error .invalidParameter
  else
    let p := p.setClass q (Fin.ofNat 7 (priorityClass - priorityClassMin).toNat)
    p.resetPriorities (p.processes q).threads

end Cpu

/-- `NumThreads` is the number of slots that are not null. -/
def WaitingQueue.Counted (q : WaitingQueue) : Prop := q.numThreads = (contents q.threads).length

instance (q : WaitingQueue) : Decidable q.Counted := inferInstanceAs (Decidable (_ = _))

/-- The slot `i` of the queue at the place `k`. -/
def slotAt (qs : List WaitingQueue) (k : ℕ) (i : Fin 0x200) : Option ℕ :=
  qs[k]?.bind fun q => q.threads i

def threadsIn (qs : List WaitingQueue) : List ℕ := qs.flatMap fun q => contents q.threads

variable {p p' : Cpu} {q : WaitingQueue} {qs : List WaitingQueue} {t k : ℕ} {i : Fin 0x200}
  {c : PriorityClass}

theorem WaitingQueue.numThreads_le (hq : q.Counted) : q.numThreads ≤ 0x200 :=
  hq.trans_le (length_contents_le q.threads)

theorem WaitingQueue.counted_put (hq : q.Counted) (hi : q.threads i = none) :
    (q.put i t).Counted := by
  have hle := numThreads_le hq
  have hlen := (contents_put hi t).length_eq
  rw [List.length_cons] at hlen
  rw [Counted] at hq
  simp only [Counted, put, hlen]
  omega

theorem WaitingQueue.counted_clear (hq : q.Counted) (hi : q.threads i = some t) :
    (q.clear i).Counted := by
  have hle := numThreads_le hq
  have hlen := (contents_clear hi).length_eq
  rw [List.length_cons] at hlen
  rw [Counted] at hq
  simp only [Counted, clear, dif_pos i.isLt, Fin.eta]
  omega

theorem WaitingQueue.room_eq_some (h : q.room = some i) : q.threads i = none := by
  rw [room] at h
  split_ifs at h
  exact firstFree_eq_some h

theorem slotAt_cons_zero : slotAt (q :: qs) 0 i = q.threads i := rfl

theorem slotAt_cons_succ : slotAt (q :: qs) (k + 1) i = slotAt qs k i := rfl

theorem slotAt_nil : slotAt [] k i = none := rfl

theorem slotAt_takeSlot (t : ℕ) (qs : List WaitingQueue) (j : ℕ) (x : Fin 0x200) :
    slotAt (takeSlot t qs).1 j x =
      if j = (takeSlot t qs).2.1 ∧ x = (takeSlot t qs).2.2 then some t else slotAt qs j x := by
  induction qs generalizing j with
  | nil =>
    cases j with
    | zero =>
      rw [slotAt_nil, takeSlot, slotAt_cons_zero]
      simp [WaitingQueue.put, WaitingQueue.zero, Function.update_apply]
    | succ j => simp [takeSlot, slotAt]
  | cons q qs ih =>
    rw [takeSlot]
    cases hroom : q.room with
    | some i =>
      cases j with
      | zero => simp [slotAt_cons_zero, WaitingQueue.put, Function.update_apply]
      | succ j => simp [slotAt_cons_succ]
    | none =>
      cases j with
      | zero => simp [slotAt_cons_zero]
      | succ j =>
        simp only [slotAt_cons_succ, Nat.add_right_cancel_iff]
        exact ih j

theorem takeSlot_free (t : ℕ) (qs : List WaitingQueue) :
    slotAt qs (takeSlot t qs).2.1 (takeSlot t qs).2.2 = none := by
  induction qs with
  | nil => rfl
  | cons q qs ih =>
    rw [takeSlot]
    cases hroom : q.room with
    | some i => exact WaitingQueue.room_eq_some hroom
    | none => exact ih

theorem takeSlot_counted (t : ℕ) (h : ∀ q ∈ qs, q.Counted) :
    ∀ q ∈ (takeSlot t qs).1, q.Counted := by
  induction qs with
  | nil =>
    intro q hq
    obtain rfl := List.mem_singleton.mp hq
    exact WaitingQueue.counted_put (by
      rw [WaitingQueue.Counted, WaitingQueue.zero, contents_none]; rfl) rfl
  | cons q qs ih =>
    rw [takeSlot]
    have hq := h q List.mem_cons_self
    have hqs := fun w hw => h w (List.mem_cons_of_mem q hw)
    cases hroom : q.room with
    | some i =>
      intro w hw
      rcases List.mem_cons.mp hw with rfl | hw
      · exact WaitingQueue.counted_put hq (WaitingQueue.room_eq_some hroom)
      · exact hqs w hw
    | none =>
      intro w hw
      rcases List.mem_cons.mp hw with rfl | hw
      · exact hq
      · exact ih hqs w hw

theorem takeSlot_threadsIn (t : ℕ) (qs : List WaitingQueue) :
    (threadsIn (takeSlot t qs).1).Perm (t :: threadsIn qs) := by
  induction qs with
  | nil =>
    have h := contents_put (f := WaitingQueue.zero.threads) (i := 0) rfl t
    have hnone : contents WaitingQueue.zero.threads = [] := contents_none
    rw [hnone] at h
    simpa [takeSlot, threadsIn, WaitingQueue.put] using h
  | cons q qs ih =>
    rw [takeSlot]
    cases hroom : q.room with
    | some i =>
      have h := contents_put (WaitingQueue.room_eq_some hroom) t
      exact h.append_right (threadsIn qs)
    | none =>
      calc contents q.threads ++ threadsIn (takeSlot t qs).1
        _ |>.Perm (contents q.threads ++ (t :: threadsIn qs)) := ih.append_left _
        _ |>.Perm (t :: (contents q.threads ++ threadsIn qs)) := List.perm_middle

theorem slotAt_clear (qs : List WaitingQueue) (k i j : ℕ) (x : Fin 0x200) :
    slotAt (qs.modify k fun w => w.clear i) j x = if j = k ∧
    x.val = i then none else slotAt qs j x := by
  rw [slotAt, List.getElem?_modify, slotAt]
  by_cases hj : j = k
  · subst hj
    cases hq : qs[j]? with
    | none => simp
    | some q =>
      simp only [if_true, true_and, Option.map_eq_map, Option.map_some, Option.bind_some,
        WaitingQueue.clear]
      split_ifs with hi hx hx
      · rw [Function.update_apply, if_pos (Fin.ext hx)]
      · exact Function.update_of_ne (fun h => hx (congrArg Fin.val h)) _ _
      · exact absurd (hx ▸ x.isLt) hi
      · rfl
  · simp only [if_neg (Ne.symm hj), if_neg fun h : j = k ∧ x.val = i => hj h.1]
    cases qs[j]? <;> rfl

theorem clear_counted (h : ∀ q ∈ qs, q.Counted) (hslot : slotAt qs k i = some t) :
    ∀ q ∈ qs.modify k fun w => w.clear i, q.Counted := by
  induction qs generalizing k with
  | nil => cases hslot
  | cons q qs ih =>
    have hq := h q List.mem_cons_self
    have hqs := fun w hw => h w (List.mem_cons_of_mem q hw)
    cases k with
    | zero =>
      intro w hw
      rcases List.mem_cons.mp hw with rfl | hw
      · exact WaitingQueue.counted_clear hq hslot
      · exact hqs w hw
    | succ k =>
      intro w hw
      rcases List.mem_cons.mp hw with rfl | hw
      · exact hq
      · exact ih hqs hslot w hw

theorem clear_threadsIn (hslot : slotAt qs k i = some t) :
    (threadsIn qs).Perm (t :: threadsIn (qs.modify k fun w => w.clear i)) := by
  induction qs generalizing k with
  | nil => cases hslot
  | cons q qs ih =>
    cases k with
    | zero =>
      have h := contents_clear (f := q.threads) hslot
      have hclear : (q.clear i).threads = Function.update q.threads i none := dif_pos i.isLt
      rw [← hclear] at h
      exact h.append_right (threadsIn qs)
    | succ k =>
      have h := (ih hslot).append_left (contents q.threads)
      exact h.trans List.perm_middle

theorem takeSlot_ne_nil (t : ℕ) (qs : List WaitingQueue) : (takeSlot t qs).1 ≠ [] := by
  cases qs with
  | nil => exact List.cons_ne_nil _ _
  | cons q qs =>
    rw [takeSlot]
    cases q.room <;> exact List.cons_ne_nil _ _

theorem QueueChain.queues_setQueues (q : QueueChain) (hqs : qs ≠ []) :
    (q.setQueues qs).queues = qs := by
  cases qs with
  | nil => exact absurd rfl hqs
  | cons w ws => rfl

theorem QueueChain.queues_take (q : QueueChain) : (q.take t).1.queues = (takeSlot t q.queues).1 :=
  q.queues_setQueues (takeSlot_ne_nil t q.queues)

theorem QueueChain.queues_giveUp (q : QueueChain) (k i : ℕ) :
    (q.giveUp k i).queues = q.queues.modify k fun w => w.clear i := by
  refine q.queues_setQueues fun h => ?_
  have hlen := congrArg List.length h
  rw [List.length_modify] at hlen
  exact absurd hlen (by simp [queues])

/-- The slot `i` of the queue at the place `k` of the class `c`. -/
def Cpu.slot (p : Cpu) (c : PriorityClass) (k : ℕ) (i : Fin 0x200) : Option ℕ :=
  slotAt (p.threadQueues c).queues k i

theorem Cpu.queued_eq (p : Cpu) (c : PriorityClass) :
    p.queued c = threadsIn (p.threadQueues c).queues := rfl

/-- Each slot and the thread in it designate one another, and the queues count their threads. -/
structure Placed (p : Cpu) : Prop where
  own : ∀ c k i t, p.slot c k i = some t →
    (p.threads t).waitingQueue = some (c, k) ∧ (p.threads t).threadWaitingQueueIndex = i.val
  held : ∀ t c k, (p.threads t).waitingQueue = some (c, k) →
    ∃ i : Fin 0x200, (p.threads t).threadWaitingQueueIndex = i.val ∧ p.slot c k i = some t
  counted : ∀ c, ∀ q ∈ (p.threadQueues c).queues, q.Counted

theorem mem_queued : t ∈ p.queued c ↔ ∃ k i, p.slot c k i = some t := by
  rw [Cpu.queued_eq, threadsIn, List.mem_flatMap]
  constructor
  · rintro ⟨q, hq, ht⟩
    obtain ⟨k, hk⟩ := List.mem_iff_getElem?.mp hq
    obtain ⟨i, hi⟩ := mem_contents.mp ht
    refine ⟨k, i, ?_⟩
    rw [Cpu.slot, slotAt, hk]
    exact hi
  · rintro ⟨k, i, hi⟩
    obtain ⟨q, hk, hi⟩ := Option.bind_eq_some_iff.mp hi
    exact ⟨q, List.mem_of_getElem? hk, mem_contents.mpr ⟨i, hi⟩⟩

theorem Placed.nodup (h : Placed p) (c : PriorityClass) : (p.queued c).Nodup := by
  have hslot {q : WaitingQueue} {k : ℕ} {i : Fin 0x200} {t : ℕ}
      (hk : (p.threadQueues c).queues[k]? = some q) (hi : q.threads i = some t) : p.slot c k i =
      some t := by
    rw [Cpu.slot, slotAt, hk]
    exact hi
  rw [Cpu.queued_eq, threadsIn, List.nodup_flatMap]
  constructor
  · intro q hq
    obtain ⟨k, hk⟩ := List.mem_iff_getElem?.mp hq
    rw [contents_eq]
    refine (List.nodup_finRange _).filterMap fun i j t hi hj => ?_
    have h₁ := (h.own c k i t (hslot hk hi)).2
    have h₂ := (h.own c k j t (hslot hk hj)).2
    exact Fin.ext (h₁.symm.trans h₂)
  · rw [List.pairwise_iff_getElem]
    intro a b ha hb hab t hta htb
    obtain ⟨i, hi⟩ := mem_contents.mp hta
    obtain ⟨j, hj⟩ := mem_contents.mp htb
    have h₁ := (h.own c a i t (hslot (List.getElem?_eq_getElem ha) hi)).1
    have h₂ := (h.own c b j t (hslot (List.getElem?_eq_getElem hb) hj)).1
    rw [h₁] at h₂
    simp only [Option.some.injEq, Prod.mk.injEq, true_and] at h₂
    omega

theorem slot_enqueue (p : Cpu) (c d : PriorityClass) (t n j : ℕ) (x : Fin 0x200) :
    (p.enqueue c t n).slot d j x =
      if d = c ∧ j = ((p.threadQueues c).take t).2.1 ∧
      x = ((p.threadQueues c).take t).2.2 then some t
      else p.slot d j x := by
  by_cases hd : d = c
  · subst hd
    simp only [Cpu.slot, Cpu.enqueue, Function.update_self, QueueChain.queues_take, true_and]
    exact slotAt_takeSlot t _ j x
  · simp only [Cpu.slot, Cpu.enqueue, Function.update_of_ne hd, hd, false_and, if_false]

theorem slot_dequeue (p : Cpu) (c d : PriorityClass) (k i j : ℕ) (x : Fin 0x200) :
    (p.dequeue c k i).slot d j x = if d = c ∧ j = k ∧ x.val = i then none else p.slot d j x := by
  by_cases hd : d = c
  · subst hd
    simp only [Cpu.slot, Cpu.dequeue, Function.update_self, QueueChain.queues_giveUp, true_and]
    exact slotAt_clear _ k i j x
  · simp only [Cpu.slot, Cpu.dequeue, Function.update_of_ne hd, hd, false_and, if_false]

theorem enqueue_counted {n : ℕ} (h : ∀ d, ∀ q ∈ (p.threadQueues d).queues, q.Counted)
    (d : PriorityClass) :
    ∀ q ∈ ((p.enqueue c t n).threadQueues d).queues, q.Counted := by
  by_cases hd : d = c
  · subst hd
    simp only [Cpu.enqueue, Function.update_self, QueueChain.queues_take]
    exact takeSlot_counted t (h d)
  · simp only [Cpu.enqueue, Function.update_of_ne hd]
    exact h d

theorem dequeue_counted (h : ∀ d, ∀ q ∈ (p.threadQueues d).queues, q.Counted)
    (hslot : p.slot c k i = some t) (d : PriorityClass) :
    ∀ q ∈ ((p.dequeue c k i).threadQueues d).queues, q.Counted := by
  by_cases hd : d = c
  · subst hd
    simp only [Cpu.dequeue, Function.update_self, QueueChain.queues_giveUp]
    exact clear_counted (h d) hslot
  · simp only [Cpu.dequeue, Function.update_of_ne hd]
    exact h d

/-- What `SetThreadPriority` does to the slots: the thread gets a free one, and has no other. -/
structure Moved (p p' : Cpu) (t k : ℕ) (i : Fin 0x200) : Prop where
  free : p.slot (p.classOf t) k i = none
  slot : ∀ d j x, p'.slot d j x =
    if d = p.classOf t ∧ j = k ∧ x = i then some t
    else if p.slot d j x = some t then none else p.slot d j x
  waitingQueue : (p'.threads t).waitingQueue = some (p.classOf t, k)
  index : (p'.threads t).threadWaitingQueueIndex = i.val
  process : (p'.threads t).process = (p.threads t).process
  others : ∀ u, u ≠ t → p'.threads u = p.threads u
  processes : p'.processes = p.processes
  counted : ∀ d, ∀ q ∈ (p'.threadQueues d).queues, q.Counted

theorem setThreadPriority_moved {priority : ℤ} (h : Placed p)
    (hok : p.setThreadPriority t priority = .ok p') : ∃ k i, Moved p p' t k i := by
  unfold Cpu.setThreadPriority at hok
  split_ifs at hok with hinvalid
  have hfree := takeSlot_free t (p.threadQueues (p.classOf t)).queues
  refine ⟨((p.threadQueues (p.classOf t)).take t).2.1,
    ((p.threadQueues (p.classOf t)).take t).2.2, ?_⟩
  cases hprev : (p.threads t).waitingQueue with
  | none =>
    simp only [hprev, Except.ok.injEq] at hok
    subst hok
    have hnot (d : PriorityClass) (j : ℕ) (x : Fin 0x200) : p.slot d j x ≠ some t := by
      intro hs
      rw [(h.own d j x t hs).1] at hprev
      cases hprev
    refine ⟨hfree, fun d j x => ?_, ?_, ?_, ?_, fun u hu => ?_, rfl, enqueue_counted h.counted⟩
    · rw [slot_enqueue, if_neg (hnot d j x)]
    · simp [Cpu.enqueue, Cpu.setThread]
    · simp [Cpu.enqueue, Cpu.setThread]
    · simp [Cpu.enqueue, Cpu.setThread]
    · exact Function.update_of_ne hu _ _
  | some dk =>
    obtain ⟨d₀, k₀⟩ := dk
    simp only [hprev, Except.ok.injEq] at hok
    subst hok
    obtain ⟨i₀, hi₀, hslot₀⟩ := h.held t d₀ k₀ hprev
    have honly (d : PriorityClass) (j : ℕ) (x : Fin 0x200) :
        p.slot d j x = some t ↔ d = d₀ ∧ j = k₀ ∧
        x.val = (p.threads t).threadWaitingQueueIndex := by
      constructor
      · intro hs
        obtain ⟨hq, hx⟩ := h.own d j x t hs
        rw [hprev] at hq
        simp only [Option.some.injEq, Prod.mk.injEq] at hq
        exact ⟨hq.1.symm, hq.2.symm, hx.symm⟩
      · rintro ⟨rfl, rfl, hx⟩
        obtain rfl : x = i₀ := Fin.ext (hx.trans hi₀)
        exact hslot₀
    have hqueues : (p.uncount (p.classOf t)).threadQueues = p.threadQueues := rfl
    have hslots (d j x) : (p.uncount (p.classOf t)).slot d j x = p.slot d j x := rfl
    refine ⟨hfree, fun d j x => ?_, ?_, ?_, ?_, fun u hu => ?_, rfl, ?_⟩
    · rw [slot_dequeue, slot_enqueue, hqueues, hslots]
      simp only [← honly]
      split_ifs with hs hnew hnew
      · obtain ⟨rfl, rfl, rfl⟩ := hnew
        exact absurd (hfree.symm.trans hs) (by simp)
      · rfl
      · rfl
      · rfl
    · simp [Cpu.dequeue, Cpu.enqueue, Cpu.setThread, Cpu.uncount]
    · simp [Cpu.dequeue, Cpu.enqueue, Cpu.setThread, Cpu.uncount]
    · simp [Cpu.dequeue, Cpu.enqueue, Cpu.setThread, Cpu.uncount]
    · exact Function.update_of_ne hu _ _
    · rw [hi₀]
      refine dequeue_counted (t := t) (enqueue_counted h.counted) ?_
      rw [slot_enqueue]
      split_ifs
      · rfl
      · exact hslot₀

theorem Moved.placed (h : Placed p) (hm : Moved p p' t k i) : Placed p' := by
  refine ⟨fun d j x u hs => ?_, fun u d j hu => ?_, hm.counted⟩
  · rw [hm.slot] at hs
    split_ifs at hs with hnew hold
    · obtain ⟨rfl, rfl, rfl⟩ := hnew
      obtain rfl := Option.some.inj hs
      exact ⟨hm.waitingQueue, hm.index⟩
    · have hut : u ≠ t := fun he => hold (he ▸ hs)
      rw [hm.others u hut]
      exact h.own d j x u hs
  · by_cases hut : u = t
    · subst hut
      rw [hm.waitingQueue] at hu
      simp only [Option.some.injEq, Prod.mk.injEq] at hu
      obtain ⟨rfl, rfl⟩ := hu
      exact ⟨i, hm.index, by rw [hm.slot, if_pos ⟨rfl, rfl, rfl⟩]⟩
    · rw [hm.others u hut] at hu ⊢
      obtain ⟨x, hx, hs⟩ := h.held u d j hu
      refine ⟨x, hx, ?_⟩
      rw [hm.slot, if_neg, if_neg, hs]
      · rw [hs]
        exact fun he => hut (Option.some.inj he)
      · rintro ⟨rfl, rfl, rfl⟩
        rw [hm.free] at hs
        cases hs

/-- `TotalThreads` counts the queued threads of every class. -/
def Totals (p : Cpu) : Prop := ∀ c, p.totalThreads c = (p.queued c).length

def Cpu.ClassOk (p : Cpu) (t : ℕ) : Prop :=
  ∀ d k, (p.threads t).waitingQueue = some (d, k) → d = p.classOf t

theorem length_queued_enqueue (p : Cpu) (c d : PriorityClass) (t n : ℕ) :
    ((p.enqueue c t n).queued d).length = (p.queued d).length + if d = c then 1 else 0 := by
  rw [Cpu.queued_eq, Cpu.queued_eq]
  by_cases hd : d = c
  · subst hd
    simp only [Cpu.enqueue, Function.update_self, QueueChain.queues_take, if_true]
    exact (takeSlot_threadsIn t _).length_eq
  · simp only [Cpu.enqueue, Function.update_of_ne hd, if_neg hd, Nat.add_zero]

theorem length_queued_dequeue (hslot : p.slot c k i = some t) (d : PriorityClass) :
    (p.queued d).length = ((p.dequeue c k i).queued d).length + if d = c then 1 else 0 := by
  rw [Cpu.queued_eq, Cpu.queued_eq]
  by_cases hd : d = c
  · subst hd
    simp only [Cpu.dequeue, Function.update_self, QueueChain.queues_giveUp, if_true]
    exact (clear_threadsIn hslot).length_eq
  · simp only [Cpu.dequeue, Function.update_of_ne hd, if_neg hd, Nat.add_zero]

theorem setThreadPriority_totals {priority : ℤ} (h : Placed p) (hclass : p.ClassOk t)
    (ht : Totals p) (hok : p.setThreadPriority t priority = .ok p')
    (hlt : ∀ d, (p'.queued d).length < 2 ^ 64) :
    Totals p' := by
  unfold Cpu.setThreadPriority at hok
  split_ifs at hok with hinvalid
  intro d
  have hd := ht d
  have hltd := hlt d
  cases hprev : (p.threads t).waitingQueue with
  | none =>
    simp only [hprev, Except.ok.injEq] at hok
    subst hok
    rw [length_queued_enqueue] at hltd ⊢
    simp only [Cpu.enqueue, Function.update_apply]
    split_ifs at hltd ⊢ with hc
    · subst hc
      rw [Nat.mod_eq_of_lt (by omega)]
      omega
    · omega
  | some dk =>
    obtain ⟨d₀, k₀⟩ := dk
    obtain ⟨i₀, hi₀, hslot₀⟩ := h.held t d₀ k₀ hprev
    obtain rfl := hclass d₀ k₀ hprev
    simp only [hprev, Except.ok.injEq] at hok
    subst hok
    rw [hi₀] at hltd ⊢
    have hslot : ((p.uncount (p.classOf t)).enqueue (p.classOf t) t
        (priority - threadPriorityMin).toNat).slot (p.classOf t) k₀ i₀ = some t := by
      rw [slot_enqueue]
      split_ifs
      · rfl
      · exact hslot₀
    have hlen := length_queued_dequeue hslot d
    rw [length_queued_enqueue] at hlen
    have hsame : (p.uncount (p.classOf t)).queued d = p.queued d := rfl
    rw [hsame] at hlen
    have htotal : ((p.uncount (p.classOf t)).enqueue (p.classOf t) t
        (priority - threadPriorityMin).toNat).totalThreads d = if d = p.classOf t then
          ((p.totalThreads d + (2 ^ 64 - 1)) % 2 ^ 64 + 1) % 2 ^ 64 else p.totalThreads d := by
      simp only [Cpu.enqueue, Cpu.uncount, Function.update_apply, if_true]
      split_ifs with hc
      · rw [hc]
      · rfl
    refine htotal.trans ?_
    split_ifs at hlen ⊢ with hc
    · subst hc
      omega
    · omega

/-- The thread is in the list of its process, where `KeCreateThread` has put it. -/
def Cpu.linked (p : Cpu) (t : ℕ) : Prop := t ∈ (p.processes (p.threads t).process).threads

instance (p : Cpu) (t : ℕ) : Decidable (p.linked t) := inferInstanceAs (Decidable (_ ∈ _))

/-- The lists of the processes hold their own threads, by addresses of 64 bits, and every queued
thread is in one of them. -/
structure Linked (p : Cpu) : Prop where
  own : ∀ q, ∀ t ∈ (p.processes q).threads, 0 < t ∧ t < 2 ^ 64 ∧ (p.threads t).process = q
  queued : ∀ t, (p.threads t).waitingQueue ≠ none → p.linked t

theorem length_queued_lt (h : Placed p) (hl : Linked p) (c : PriorityClass) :
    (p.queued c).length < 2 ^ 64 := by
  have hsub : (p.queued c).toFinset ⊆ Finset.Ioo 0 (2 ^ 64) := by
    intro t ht
    obtain ⟨k, i, hs⟩ := mem_queued.mp (List.mem_toFinset.mp ht)
    have hq : (p.threads t).waitingQueue ≠ none := by
      rw [(h.own c k i t hs).1]
      exact Option.some_ne_none _
    obtain ⟨hpos, hlt, _⟩ := hl.own _ t (hl.queued t hq)
    exact Finset.mem_Ioo.mpr ⟨hpos, hlt⟩
  have hcard := Finset.card_le_card hsub
  rw [List.toFinset_card_of_nodup (h.nodup c), Nat.card_Ioo] at hcard
  omega

theorem Moved.classOf (hm : Moved p p' t k i) (u : ℕ) : p'.classOf u = p.classOf u := by
  rw [Cpu.classOf, Cpu.classOf, hm.processes]
  by_cases hu : u = t
  · rw [hu, hm.process]
  · rw [hm.others u hu]

theorem Moved.linked (hl : Linked p) (ht : p.linked t) (hm : Moved p p' t k i) : Linked p' := by
  have hproc (u : ℕ) : (p'.threads u).process = (p.threads u).process := by
    by_cases hu : u = t
    · rw [hu, hm.process]
    · rw [hm.others u hu]
  constructor
  · intro q u hu
    rw [hm.processes] at hu
    rw [hproc]
    exact hl.own q u hu
  · intro u hu
    rw [Cpu.linked, hm.processes, hproc]
    by_cases hut : u = t
    · exact hut ▸ ht
    · rw [hm.others u hut] at hu
      exact hl.queued u hu

theorem Moved.classOk (hm : Moved p p' t k i) {u : ℕ} (hu : u = t ∨ p.ClassOk u) :
    p'.ClassOk u := by
  intro d j hq
  rw [hm.classOf]
  by_cases hut : u = t
  · rw [hut, hm.waitingQueue] at hq
    rw [hut]
    simp only [Option.some.injEq, Prod.mk.injEq] at hq
    exact hq.1.symm
  · rw [hm.others u hut] at hq
    exact hu.resolve_left hut d j hq

theorem Moved.stays (hm : Moved p p' t k i) {u : ℕ}
    (hu : u = t ∨ (p.threads u).waitingQueue ≠ none) :
    (p'.threads u).waitingQueue ≠ none := by
  by_cases hut : u = t
  · rw [hut, hm.waitingQueue]
    exact Option.some_ne_none _
  · rw [hm.others u hut]
    exact hu.resolve_left hut

/-- What a call does to the bookkeeping when it sets the priorities of the threads `ts`. -/
structure Reset (p p' : Cpu) (ts : List ℕ) : Prop where
  placed : Placed p'
  linked : Linked p'
  processes : p'.processes = p.processes
  classOk : (∀ u, u ∉ ts → p.ClassOk u) → ∀ u, p'.ClassOk u
  stays : ∀ u, u ∈ ts ∨ (p.threads u).waitingQueue ≠ none → (p'.threads u).waitingQueue ≠ none
  totals : (∀ u, p.ClassOk u) → Totals p → Totals p'

theorem setThreadPriority_reset {priority : ℤ} (h : Placed p) (hl : Linked p) (ht : p.linked t)
    (hok : p.setThreadPriority t priority = .ok p') : Reset p p' [t] := by
  obtain ⟨k, i, hm⟩ := setThreadPriority_moved h hok
  have hplaced := hm.placed h
  have hlinked := hm.linked hl ht
  refine ⟨hplaced, hlinked, hm.processes, fun hc u => ?_, fun u hu => ?_, fun hc htot => ?_⟩
  · refine hm.classOk ?_
    by_cases hu : u = t
    · exact Or.inl hu
    · exact Or.inr (hc u fun hmem => hu (List.mem_singleton.mp hmem))
  · exact hm.stays (hu.imp_left List.mem_singleton.mp)
  · exact setThreadPriority_totals h (hc t) htot hok (length_queued_lt hplaced hlinked)

theorem resetPriorities_reset (ts : List ℕ) (h : Placed p) (hl : Linked p)
    (hts : ∀ t ∈ ts, ∃ q, t ∈ (p.processes q).threads) (hok : p.resetPriorities ts = .ok p') :
    Reset p p' ts := by
  induction ts generalizing p with
  | nil =>
    cases hok
    exact ⟨h, hl, rfl, fun hc u => hc u List.not_mem_nil,
      fun u hu => hu.resolve_left List.not_mem_nil, fun _ ht => ht⟩
  | cons t ts ih =>
    rw [Cpu.resetPriorities] at hok
    cases hset : p.setThreadPriority t ((p.threads t).threadPriority + threadPriorityMin) with
    | error e =>
      rw [hset] at hok
      cases hok
    | ok p₁ =>
      rw [hset] at hok
      have ht : p.linked t := by
        obtain ⟨q, hq⟩ := hts t List.mem_cons_self
        rw [Cpu.linked, (hl.own q t hq).2.2]
        exact hq
      have h₁ := setThreadPriority_reset h hl ht hset
      have h₂ := ih h₁.placed h₁.linked (fun u hu => by
        rw [h₁.processes]
        exact hts u (List.mem_cons_of_mem t hu)) hok
      refine ⟨h₂.placed, h₂.linked, h₂.processes.trans h₁.processes, fun hc => ?_, fun u hu => ?_,
        fun hc htot => ?_⟩
      · -- a thread not in `ts` is `t`, which is in its class by now, or was so before
        refine h₂.classOk fun u hu => ?_
        obtain ⟨k, i, hm⟩ := setThreadPriority_moved h hset
        refine hm.classOk ?_
        by_cases hut : u = t
        · exact Or.inl hut
        · exact Or.inr (hc u fun hmem => (List.mem_cons.mp hmem).elim hut hu)
      · rcases hu with hu | hu
        · rcases List.mem_cons.mp hu with rfl | hu
          · exact h₂.stays u (Or.inr (h₁.stays u (Or.inl (List.mem_singleton.mpr rfl))))
          · exact h₂.stays u (Or.inl hu)
        · exact h₂.stays u (Or.inr (h₁.stays u (Or.inr hu)))
      · exact h₂.totals (h₁.classOk fun u _ => hc u) (h₁.totals hc htot)

/-- The calls of a run. -/
inductive PriorityCall where
  | setThreadPriority (t : ℕ) (priority : ℤ)
  | setPriorityClass (q : ℕ) (priorityClass : ℤ)

def Cpu.call (p : Cpu) : PriorityCall → Except PriorityError Cpu
  | .setThreadPriority t priority => p.setThreadPriority t priority
  | .setPriorityClass q priorityClass => p.setPriorityClass q priorityClass

/-- A call with an invalid parameter changes nothing, and none returns when the system is
stopped. -/
def callStep (p : Cpu) (a : PriorityCall) : Option Cpu :=
  match p.call a with
  | .ok p' => some p'
  | .error .invalidParameter => some p
  | .error .sodProcessManagement => none

def Cpu.targets (p : Cpu) : PriorityCall → List ℕ
  | .setThreadPriority t _ => [t]
  | .setPriorityClass q _ => (p.processes q).threads

def noteTargets (p : Cpu) (a : PriorityCall) (set : List ℕ) : List ℕ :=
  match p.call a with
  | .ok _ => p.targets a ++ set
  | .error _ => set

/-- The thread is null or was created by `KeCreateThread`. -/
def Cpu.linkedCall (p : Cpu) : PriorityCall → Prop
  | .setThreadPriority t _ => t = 0 ∨ p.linked t
  | .setPriorityClass _ _ => True

def Cpu.keepsClass (p : Cpu) : PriorityCall → Prop
  | .setThreadPriority _ _ => True
  | .setPriorityClass q priorityClass =>
    priorityClass < priorityClassMin ∨ priorityClassMax < priorityClass ∨
      priorityClass = (p.processes q).priorityClass.val + priorityClassMin ∨
      ∀ t ∈ (p.processes q).threads, (p.threads t).waitingQueue = none

instance (p : Cpu) : (a : PriorityCall) → Decidable (p.linkedCall a)
  | .setThreadPriority t _ => inferInstanceAs (Decidable (t = 0 ∨ p.linked t))
  | .setPriorityClass _ _ => inferInstanceAs (Decidable True)

instance (p : Cpu) : (a : PriorityCall) → Decidable (p.keepsClass a)
  | .setThreadPriority _ _ => inferInstanceAs (Decidable True)
  | .setPriorityClass _ _ => inferInstanceAs (Decidable (_ ∨ _ ∨ _ ∨ _))

/-- The table before the first call: no thread is queued. -/
structure Unqueued (p : Cpu) : Prop where
  waiting : ∀ t, (p.threads t).waitingQueue = none
  queues : ∀ c, ∀ q ∈ (p.threadQueues c).queues, q.numThreads = 0 ∧ ∀ i, q.threads i = none
  totals : ∀ c, p.totalThreads c = 0
  linked : ∀ q, ∀ t ∈ (p.processes q).threads, 0 < t ∧ t < 2 ^ 64 ∧ (p.threads t).process = q

/-- What holds between two calls, when the priorities of the threads `set` were set. -/
structure Bookkept (p : Cpu) (set : List ℕ) : Prop where
  placed : Placed p
  linked : Linked p
  classOk : ∀ t, p.ClassOk t
  stays : ∀ t ∈ set, (p.threads t).waitingQueue ≠ none

theorem Unqueued.slot_eq_none (h : Unqueued p) (c : PriorityClass) (k : ℕ) (i : Fin 0x200) :
    p.slot c k i = none := by
  rw [Cpu.slot, slotAt]
  cases hk : (p.threadQueues c).queues[k]? with
  | none => rfl
  | some q => exact (h.queues c q (List.mem_of_getElem? hk)).2 i

theorem Unqueued.bookkept (h : Unqueued p) : Bookkept p [] := by
  refine ⟨⟨fun c k i t hs => ?_, fun t c k ht => ?_, fun c q hq => ?_⟩, ⟨h.linked, fun t ht => ?_⟩,
    fun t d k ht => ?_, fun t ht => absurd ht List.not_mem_nil⟩
  · rw [h.slot_eq_none] at hs
    cases hs
  · rw [h.waiting] at ht
    cases ht
  · obtain ⟨hn, hnone⟩ := h.queues c q hq
    have hempty : q.threads = fun _ => none := funext hnone
    rw [WaitingQueue.Counted, hn, hempty, contents_none]
    rfl
  · exact absurd (h.waiting t) ht
  · rw [h.waiting] at ht
    cases ht

theorem Unqueued.totals_queued (h : Unqueued p) : Totals p := by
  intro c
  have hempty : p.queued c = [] := by
    refine List.eq_nil_iff_forall_not_mem.mpr fun t ht => ?_
    obtain ⟨k, i, hs⟩ := mem_queued.mp ht
    rw [h.slot_eq_none] at hs
    cases hs
  rw [h.totals, hempty]
  rfl

theorem setClass_placed (h : Placed p) (q : ℕ) (c : PriorityClass) : Placed (p.setClass q c) :=
  ⟨h.own, h.held, h.counted⟩

theorem setClass_processes_threads (p : Cpu) (q r : ℕ) (c : PriorityClass) :
    ((p.setClass q c).processes r).threads = (p.processes r).threads := by
  simp only [Cpu.setClass, Function.update_apply]
  split_ifs with hr
  · rw [hr]
  · rfl

theorem setClass_linked (h : Linked p) (q : ℕ) (c : PriorityClass) : Linked (p.setClass q c) := by
  constructor
  · intro r t ht
    rw [setClass_processes_threads] at ht
    exact h.own r t ht
  · intro t ht
    rw [Cpu.linked, setClass_processes_threads]
    exact h.queued t ht

theorem setClass_classOk {q u : ℕ} {d : PriorityClass} (h : p.ClassOk u)
    (hu : (p.threads u).process ≠ q ∨ d = (p.processes q).priorityClass) :
    (p.setClass q d).ClassOk u := by
  intro e j he
  rw [h e j he, Cpu.classOf, Cpu.classOf]
  change _ = (Function.update p.processes q _ (p.threads u).process).priorityClass
  rw [Function.update_apply]
  split_ifs with hq
  · rw [hq, hu.resolve_left (not_not.mpr hq)]
  · rfl

theorem setPriorityClass_eq_ok {q : ℕ} {priorityClass : ℤ}
    (hok : p.setPriorityClass q priorityClass = .ok p') :
    ∃ d : PriorityClass, priorityClass = d.val + priorityClassMin ∧
      (p.setClass q d).resetPriorities (p.processes q).threads = .ok p' := by
  unfold Cpu.setPriorityClass at hok
  split_ifs at hok with hrange
  rw [not_or, not_lt, not_lt] at hrange
  obtain ⟨hmin, hmax⟩ := hrange
  refine ⟨Fin.ofNat 7 (priorityClass - priorityClassMin).toNat, ?_, ?_⟩
  · rw [Fin.val_ofNat]
    unfold priorityClassMin priorityClassMax at *
    omega
  · rw [← setClass_processes_threads p q q]
    exact hok

theorem Bookkept.call {set : List ℕ} {a : PriorityCall} (h : Bookkept p set) (hl : p.linkedCall a)
    (hok : p.call a = .ok p') :
    Bookkept p' (p.targets a ++ set) ∧ (p.keepsClass a → Totals p → Totals p') := by
  have hfinish {q : Cpu} (hr : Reset q p' (p.targets a)) (hclass : ∀ u, u ∉ p.targets a →
    q.ClassOk u)
      (hq : q.threads = p.threads) : Bookkept p' (p.targets a ++ set) := by
    refine ⟨hr.placed, hr.linked, hr.classOk hclass, fun t ht => hr.stays t ?_⟩
    exact (List.mem_append.mp ht).imp_right fun hs => hq ▸ h.stays t hs
  cases a with
  | setThreadPriority t priority =>
    have ht : p.linked t := by
      refine hl.resolve_left fun h0 => ?_
      have herr : p.setThreadPriority t priority = .error .invalidParameter := if_pos (Or.inl h0)
      cases herr.symm.trans hok
    have hr := setThreadPriority_reset h.placed h.linked ht hok
    exact ⟨hfinish hr (fun u _ => h.classOk u) rfl, fun _ => hr.totals h.classOk⟩
  | setPriorityClass q priorityClass =>
    obtain ⟨d, hd, hreset⟩ := setPriorityClass_eq_ok hok
    have hmem (u : ℕ) (hu : u ∈ (p.processes q).threads) :
        ∃ r, u ∈ ((p.setClass q d).processes r).threads :=
      ⟨q, by rwa [setClass_processes_threads]⟩
    have hr := resetPriorities_reset _ (setClass_placed h.placed q d) (setClass_linked h.linked q d)
      hmem hreset
    constructor
    · refine hfinish hr (fun u hu => ?_) rfl
      intro e k he
      have hother : (p.threads u).process ≠ q := by
        intro heq
        have hlink := h.linked.queued u (by rw [show (p.threads u).waitingQueue = _ from he]; simp)
        rw [Cpu.linked, heq] at hlink
        exact hu hlink
      exact setClass_classOk (h.classOk u) (Or.inl hother) e k he
    · intro hkeeps htot
      refine hr.totals (fun u => ?_) htot
      have hrange : ¬ priorityClass < priorityClassMin ∧ ¬ priorityClassMax < priorityClass := by
        unfold priorityClassMin priorityClassMax at *
        omega
      rcases (hkeeps.resolve_left hrange.1).resolve_left hrange.2 with hsame | hnone
      · refine setClass_classOk (h.classOk u) (Or.inr (Fin.ext ?_))
        omega
      · intro e k he
        by_cases heq : (p.threads u).process = q
        · have hlink := h.linked.queued u (by
            rw [show (p.threads u).waitingQueue = _ from he]; simp)
          rw [Cpu.linked, heq] at hlink
          have := hnone u hlink
          rw [show (p.threads u).waitingQueue = _ from he] at this
          cases this
        · exact setClass_classOk (h.classOk u) (Or.inl heq) e k he

theorem Bookkept.step {s s' : Cpu × List ℕ} {a : PriorityCall} (h : Bookkept s.1 s.2)
    (hl : s.1.linkedCall a) (hstep : Runs.watched callStep noteTargets s a = some s') :
    Bookkept s'.1 s'.2 ∧ (s.1.keepsClass a → Totals s.1 → Totals s'.1) := by
  obtain ⟨hcall, hnote⟩ := Runs.watched_eq_some.mp hstep
  rw [hnote]
  unfold callStep at hcall
  unfold noteTargets
  cases hok : s.1.call a with
  | ok p' =>
    rw [hok] at hcall
    cases hcall
    exact h.call hl hok
  | error e =>
    rw [hok] at hcall
    cases e with
    | invalidParameter =>
      have hsame : s.1 = s'.1 := Option.some.inj hcall
      rw [← hsame]
      exact ⟨h, fun _ ht => ht⟩
    | sodProcessManagement => cases hcall

theorem waiting_queues_bookkept (p₀ : Cpu) (h₀ : Unqueued p₀) :
    (∀ p set, Runs.Reaches (Runs.watched callStep noteTargets) (fun s a => s.1.linkedCall a)
        (p₀, []) (p, set) →
      (∀ t ∈ set, (∃! s : PriorityClass × ℕ × Fin 0x200, p.slot s.1 s.2.1 s.2.2 = some t) ∧
        ∃ k i, p.slot (p.classOf t) k i = some t ∧
          (p.threads t).waitingQueue = some (p.classOf t, k) ∧
          (p.threads t).threadWaitingQueueIndex = i.val) ∧
      ∀ c, ∀ q ∈ (p.threadQueues c).queues, q.numThreads = (contents q.threads).length) ∧
    (∀ p set, Runs.Reaches (Runs.watched callStep noteTargets)
        (fun s a => s.1.linkedCall a ∧ s.1.keepsClass a) (p₀, []) (p, set) →
      ∀ c, p.totalThreads c = (p.queued c).length) := by
  constructor
  · intro p set hr
    have hinv : Bookkept p set :=
      hr.invariant (I := fun s => Bookkept s.1 s.2)
        (fun s a s' h hl hs => (h.step hl hs).1) h₀.bookkept
    refine ⟨fun t ht => ?_, fun c q hq => hinv.placed.counted c q hq⟩
    obtain ⟨⟨d, k⟩, hq⟩ := Option.ne_none_iff_exists'.mp (hinv.stays t ht)
    obtain rfl := hinv.classOk t d k hq
    obtain ⟨i, hi, hs⟩ := hinv.placed.held t _ k hq
    refine ⟨⟨(p.classOf t, k, i), hs, ?_⟩, k, i, hs, hq, hi⟩
    rintro ⟨e, j, x⟩ hx
    obtain ⟨hq', hi'⟩ := hinv.placed.own e j x t hx
    rw [hq] at hq'
    simp only [Option.some.injEq, Prod.mk.injEq] at hq'
    exact Prod.ext hq'.1.symm (Prod.ext hq'.2.symm (Fin.ext (hi'.symm.trans hi)))
  · intro p set hr
    have hinv : Bookkept p set ∧ Totals p :=
      hr.invariant (I := fun s => Bookkept s.1 s.2 ∧ Totals s.1)
        (fun s a s' h hg hs => ⟨(h.1.step hg.1 hs).1, (h.1.step hg.1 hs).2 hg.2 h.2⟩)
        ⟨h₀.bookkept, h₀.totals_queued⟩
    exact hinv.2

/-- The processes 1, with the threads 5 and 6, and 2, with the thread 7, before the first call. -/
def sampleUnqueued : Cpu where
  base := 0x200000
  threads := fun t => { sampleThread 3 0 with
    process := if t = 7 then 2 else 1
    waitingQueue := none }
  processes := fun q => if q = 1 then ⟨3, [5, 6]⟩ else if q = 2 then ⟨3, [7]⟩ else ⟨3, []⟩
  totalThreads := fun _ => 0
  numReadyThreads := fun _ => 0
  threadQueues := fun _ => ⟨WaitingQueue.zero, []⟩
  currentThread := 0
  totalClocks := 0
  readyOnClock := fun _ => 0
  systemIdleThread := 0
  forceNextThread := none

theorem sampleUnqueued_unqueued : Unqueued sampleUnqueued := by
  refine ⟨fun t => rfl, fun c q hq => ?_, fun c => rfl, fun q t ht => ?_⟩
  · obtain rfl : q = WaitingQueue.zero := List.mem_singleton.mp hq
    exact ⟨rfl, fun i => rfl⟩
  · unfold sampleUnqueued at ht ⊢
    dsimp only at ht ⊢
    split_ifs at ht with h₁ h₂
    · subst h₁
      rcases List.mem_cons.mp ht with rfl | ht
      · decide
      · obtain rfl := List.mem_singleton.mp ht
        decide
    · subst h₂
      obtain rfl := List.mem_singleton.mp ht
      decide
    · cases ht

def sampleCalls (calls : List PriorityCall) : Option (Cpu × List ℕ) :=
  Runs.guardedRun (Runs.watched callStep noteTargets) (fun s a => s.1.linkedCall a ∧
    s.1.keepsClass a)
    (sampleUnqueued, []) calls

theorem waiting_queues_bookkept_sample :
    ∃ p set, Runs.Reaches (Runs.watched callStep noteTargets)
        (fun s a => s.1.linkedCall a ∧ s.1.keepsClass a) (sampleUnqueued, []) (p, set) ∧
      set = [5, 6, 5, 7] ∧ (∃! s : PriorityClass × ℕ × Fin 0x200, p.slot s.1 s.2.1 s.2.2 = some 5) ∧
      (∀ c, p.totalThreads c = (p.queued c).length) ∧ p.totalThreads 2 = 1 ∧
      p.totalThreads 3 = 2 := by
  have hrun : ∃ s, sampleCalls [.setPriorityClass 2 0x180, .setThreadPriority 5 0x262,
      .setPriorityClass 1 0x181] = some s := by
    rw [← Option.isSome_iff_exists]
    decide
  obtain ⟨⟨p, set⟩, hs⟩ := hrun
  have hr := Runs.reaches_of_guardedRun _ hs
  have hend : (set, p.totalThreads 2, p.totalThreads 3) = ([5, 6, 5, 7], 1, 2) :=
    Runs.eq_of_map (fun s : Cpu × List ℕ => (s.2, s.1.totalThreads 2, s.1.totalThreads 3)) hs
      (by decide +kernel)
  simp only [Prod.mk.injEq] at hend
  have hall := waiting_queues_bookkept sampleUnqueued sampleUnqueued_unqueued
  have hslots := hall.1 p set (hr.mono fun s a h => h.1)
  refine ⟨p, set, hr, hend.1, (hslots.1 5 ?_).1, hall.2 p set hr, hend.2⟩
  rw [hend.1]
  decide

/-- The process 1 leaves its class while the thread 5 is queued there: the counter of the class that
it leaves still counts the thread, and that of the new class misses it. -/
theorem waiting_queues_class_change :
    Unqueued sampleUnqueued ∧
    ∃ p set, Runs.Reaches (Runs.watched callStep noteTargets) (fun s a => s.1.linkedCall a)
        (sampleUnqueued, []) (p, set) ∧
      p.totalThreads 3 = 1 ∧ p.queued 3 = [] ∧ p.totalThreads 2 = 1 ∧ p.queued 2 = [5, 6] := by
  have hrun : ∃ s, Runs.guardedRun (Runs.watched callStep noteTargets) (fun s a => s.1.linkedCall a)
      (sampleUnqueued, []) [.setThreadPriority 5 0x262, .setPriorityClass 1 0x180] = some s := by
    rw [← Option.isSome_iff_exists]
    decide
  obtain ⟨⟨p, set⟩, hs⟩ := hrun
  have hend : (p.totalThreads 3, p.queued 3, p.totalThreads 2, p.queued 2) = (1, [], 1, [5, 6]) :=
    Runs.eq_of_map (fun s : Cpu × List ℕ =>
      (s.1.totalThreads 3, s.1.queued 3, s.1.totalThreads 2, s.1.queued 2)) hs (by decide +kernel)
  simp only [Prod.mk.injEq] at hend
  exact ⟨sampleUnqueued_unqueued, p, set, Runs.reaches_of_guardedRun _ hs, hend⟩

end DevOs.Scheduler
