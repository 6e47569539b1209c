import DevOs.Lib.Growing
import DevOs.Lib.Runs
import DevOs.Processes.Create
import DevOs.Scheduler.Model
import Mathlib.Data.List.Nodup

/-!
# Threads of processes

`KeCreateThread` takes the first unused thread block of the system, gives it a stack and links it to
its process. The blocks and the links are tables that grow, and neither a thread nor a link is ever
taken away. A process of a user has its stacks one below the other from `USER_STACK_BASE` on.
-/

namespace DevOs.Processes

open Runs Growing Scheduler

/-- `PENTRIES_PER_LIST` and `THREADS_PER_PROCESS_THREAD_LIST` -/
def pentriesPerList : ℕ := 100
def threadsPerProcessThreadList : ℕ := 20

def userStackBase : BitVec 64 := 0xFF00000000
def threadDefaultStackSize : BitVec 64 := 0x10000

def thsPresent : BitVec 64 := 1

def threadCreateSuspend : BitVec 64 := 1
def threadCreateSystemIdle : BitVec 64 := 4
def threadCreateManual : BitVec 64 := 8

/-- `THREAD`, with the fields that `KeCreateThread` writes. `ThreadWrapperInit` puts the start
address into `rax`. -/
structure ThreadBlock where
  state : BitVec 64
  threadId : ℕ
  process : ℕ
  processorId : ℕ
  stack : ℕ
  virtualStackPtr : BitVec 64
  rsp : BitVec 64
  rbp : BitVec 64
  rflags : BitVec 64
  rax : ℕ
  schedulingQuantum : ℕ
  timeBurst : ℕ

def ThreadBlock.zero : ThreadBlock where
  state := 0
  threadId := 0
  process := 0
  processorId := 0
  stack := 0
  virtualStackPtr := 0
  rsp := 0
  rbp := 0
  rflags := 0
  rax := 0
  schedulingQuantum := 0
  timeBurst := 0

/-- What `KeCreateThread` reads and writes of a `PROCESS`. The links are numbered through the
chained lists, of which the process has `threadLists`. -/
structure ProcessThreads where
  set : Bool
  operatingMode : ℕ
  stackSize : BitVec 64
  numThreads : ℕ
  startupThread : Option ℕ
  threads : ℕ → Option ℕ
  threadLists : ℕ

/-- The threads are numbered through the chained lists of `Pmgrt.ThreadList`. -/
structure ThreadTables where
  threads : ℕ → ThreadBlock
  threadLists : ℕ
  processes : ℕ → ProcessThreads
  numProcessors : ℕ
  nextThreadProcessor : ℕ

namespace ThreadTables

def setThread (s : ThreadTables) (t : ℕ) (b : ThreadBlock) : ThreadTables :=
  { s with threads := Function.update s.threads t b }

def setProcess (s : ThreadTables) (p : ℕ) (q : ProcessThreads) : ThreadTables :=
  { s with processes := Function.update s.processes p q }

end ThreadTables

/-- The default for no size, whole pages, and the default again when the sum wraps. -/
def alignStackSize (stackSize : BitVec 64) : BitVec 64 :=
  let size := if stackSize = 0 then threadDefaultStackSize else stackSize
  let size := if size &&& 0xFFF = 0 then size else (size + 0x1000) &&& ~~~0xFFF
  if size = 0 then threadDefaultStackSize else size

/-- `SetupThreadRegisters` for the counters of the process. -/
def setupThreadRegisters (q : ProcessThreads) (t : ℕ) : ProcessThreads :=
  { q with
    startupThread := if q.numThreads = 0 then some t else q.startupThread
    numThreads := q.numThreads + 1 }

def allocateThread (s : ThreadTables) (p : ℕ) : ThreadTables × ℕ :=
  let (t, lists) := place (fun t => (s.threads t).state = 0) pentriesPerList s.threadLists
  let s := { s with threadLists := lists }
  let b :=
    { ThreadBlock.zero with state := thsPresent ||| thsRunnable, threadId := t, process := p }
  ((s.setThread t b).setProcess p (setupThreadRegisters (s.processes p) t), t)

/-- The stack registers: in a process of a user the stack is below the other stacks, and the kernel
uses the address that the pool returned. -/
def setStack (q : ProcessThreads) (b : ThreadBlock) (stackSize : BitVec 64) (stack : ℕ) :
    ThreadBlock :=
  if q.operatingMode ≠ kernelmodeProcess then
    { b with
      stack := stack
      virtualStackPtr := userStackBase - q.stackSize - stackSize
      rsp := userStackBase - q.stackSize
      rbp := userStackBase - q.stackSize }
  else
    { b with
      stack := stack
      rsp := BitVec.ofNat 64 stack + stackSize - 0x100
      rbp := BitVec.ofNat 64 stack + stackSize - 0x100 }

def assignProcessor (s : ThreadTables) (b : ThreadBlock) (flags : BitVec 64) :
    ThreadTables × ThreadBlock :=
  if flags &&& threadCreateSystemIdle = 0 then (s, b)
  else
    ({ s with nextThreadProcessor :=
        if s.nextThreadProcessor + 1 ≥ s.numProcessors then 0 else s.nextThreadProcessor + 1 },
      { b with processorId := s.nextThreadProcessor % 2 ^ 32 })

def linkThread (q : ProcessThreads) (t : ℕ) : ProcessThreads :=
  let (i, lists) := place (fun i => (q.threads i).isNone) threadsPerProcessThreadList q.threadLists
  { q with threads := Function.update q.threads i (some t), threadLists := lists }

/-- `THS_IDLE`, `THS_MANUAL` and `THS_ALIVE` by the flags. -/
def createdState (state flags : BitVec 64) : BitVec 64 :=
  let state := if flags &&& threadCreateSystemIdle = 0 then state else state ||| thsIdle
  let state := if flags &&& threadCreateManual = 0 then state else state ||| thsManual
  if flags &&& threadCreateSuspend = 0 then state ||| thsAlive else state

/-- `KeCreateThread` behind `AllocateThread`: the stack, the registers, the link and the flags of
the thread. -/
def initThread (s : ThreadTables) (p t : ℕ) (stackSize : BitVec 64) (startAddress : ℕ)
    (flags : BitVec 64) (stack : ℕ) : ThreadTables :=
  let (s, b) := assignProcessor s (s.threads t) flags
  let q := s.processes p
  let b := { setStack q b stackSize stack with
    rflags := 0x200
    rax := startAddress
    state := createdState b.state flags
    schedulingQuantum := 12
    timeBurst := 1 }
  (s.setThread t b).setProcess p (linkThread { q with stackSize := q.stackSize + stackSize } t)

/-- `KeCreateThread`, with the stack that `AllocatePoolEx` returns. -/
def keCreateThread (s : ThreadTables) (p : ℕ) (stackSize : BitVec 64) (startAddress : ℕ)
    (flags : BitVec 64) (stack : ℕ) : ThreadTables × Option ℕ :=
  if (s.processes p).set then
    let (s, t) := allocateThread s p
    (initThread s p t (alignStackSize stackSize) startAddress flags stack, some t)
  else (s, none)

/-- The calls on threads. `KeSuspendThread`, `KeResumeThread`, `IoWait` and `IoFinish` change flags
of the state, and the scheduler is not entered here. -/
inductive ThreadCall where
  | keCreateThread (p : ℕ) (stackSize : BitVec 64) (startAddress : ℕ) (flags : BitVec 64)
      (stack : ℕ)
  | keSuspendThread (t : ℕ)
  | keResumeThread (t : ℕ)
  | ioWait (t : ℕ)
  | ioFinish (t : ℕ)

def ThreadTables.mapState (s : ThreadTables) (t : ℕ) (f : BitVec 64 → BitVec 64) : ThreadTables :=
  s.setThread t { s.threads t with state := f (s.threads t).state }

def ThreadCall.run (s : ThreadTables) : ThreadCall → Option ThreadTables
  | .keCreateThread p stackSize startAddress flags stack =>
    some (Processes.keCreateThread s p stackSize startAddress flags stack).1
  | .keSuspendThread t => some (s.mapState t (· &&& ~~~thsAlive))
  | .keResumeThread t => some (s.mapState t (· ||| thsAlive))
  | .ioWait t => some (s.mapState t (· ||| thsIoWait))
  | .ioFinish t => some (s.mapState t (· ||| thsIoPin))

/-- The tables before the first thread, with the processes and their modes. -/
def noThreads (set : ℕ → Bool) (operatingMode : ℕ → ℕ) (numProcessors : ℕ) : ThreadTables where
  threads := fun _ => .zero
  threadLists := 1
  processes := fun p =>
    { set := set p
      operatingMode := operatingMode p
      stackSize := 0
      numThreads := 0
      startupThread := none
      threads := fun _ => none
      threadLists := 1 }
  numProcessors := numProcessors
  nextThreadProcessor := 0

variable {s t : ThreadTables} {n p : ℕ} {stackSize flags : BitVec 64} {startAddress stack : ℕ}

/-- The threads of a process among the first `n`, in the order of their creation. -/
def threadsOf (s : ThreadTables) (n p : ℕ) : List ℕ :=
  (List.range n).filter fun t => (s.threads t).process = p

/-- `n` threads were created. -/
structure Linked (s : ThreadTables) (n : ℕ) : Prop where
  present : ∀ i < n, (s.threads i).state.getLsbD 0 = true
  unused : ∀ i, n ≤ i → s.threads i = .zero
  blocks : n ≤ pentriesPerList * s.threadLists
  threadId : ∀ i < n, (s.threads i).threadId = i
  links : ∀ p j, (s.processes p).threads j = (threadsOf s n p)[j]?
  linkBlocks : ∀ p, (threadsOf s n p).length ≤
    threadsPerProcessThreadList * (s.processes p).threadLists
  numThreads : ∀ p, (s.processes p).numThreads = (threadsOf s n p).length
  startupThread : ∀ p, (s.processes p).startupThread = (threadsOf s n p).head?

theorem linked_noThreads (set : ℕ → Bool) (operatingMode : ℕ → ℕ) (numProcessors : ℕ) :
    Linked (noThreads set operatingMode numProcessors) 0 where
  present := fun i hi => absurd hi (Nat.not_lt_zero i)
  unused := fun _ _ => rfl
  blocks := Nat.zero_le _
  threadId := fun i hi => absurd hi (Nat.not_lt_zero i)
  links := fun _ _ => rfl
  linkBlocks := fun _ => Nat.zero_le _
  numThreads := fun _ => rfl
  startupThread := fun _ => rfl

theorem Linked.state_eq_zero (h : Linked s n) (i : ℕ) :
    decide ((s.threads i).state = 0) = decide (n ≤ i) := by
  rcases Nat.lt_or_ge i n with hi | hi
  · have hbit := h.present i hi
    have hne : (s.threads i).state ≠ 0 := by
      intro hz
      rw [hz] at hbit
      exact Bool.noConfusion hbit
    rw [decide_eq_false hne, decide_eq_false (Nat.not_le.mpr hi)]
  · rw [h.unused i hi]
    exact (decide_eq_true hi).symm

theorem Linked.link_isNone (h : Linked s n) (p i : ℕ) :
    ((s.processes p).threads i).isNone = decide ((threadsOf s n p).length ≤ i) := by
  rw [h.links]
  rcases Nat.lt_or_ge i (threadsOf s n p).length with hi | hi
  · rw [List.getElem?_eq_getElem hi, decide_eq_false (Nat.not_le.mpr hi)]
    rfl
  · rw [List.getElem?_eq_none hi, decide_eq_true hi]
    rfl

theorem createdState_present (flags : BitVec 64) :
    (createdState (thsPresent ||| thsRunnable) flags).getLsbD 0 = true := by
  unfold createdState
  dsimp only
  split_ifs
  all_goals rfl

/-- What a call of `KeCreateThread` does that takes the block `n`. -/
structure Creates (s : ThreadTables) (n p : ℕ) (stackSize : BitVec 64) (t : ThreadTables) :
    Prop where
  others : ∀ i, i ≠ n → t.threads i = s.threads i
  present : (t.threads n).state.getLsbD 0 = true
  threadId : (t.threads n).threadId = n
  process : (t.threads n).process = p
  blocks : n + 1 ≤ pentriesPerList * t.threadLists
  otherProcesses : ∀ q, q ≠ p → t.processes q = s.processes q
  mode : (t.processes p).set = (s.processes p).set ∧
    (t.processes p).operatingMode = (s.processes p).operatingMode
  links : (t.processes p).threads =
    Function.update (s.processes p).threads (threadsOf s n p).length (some n)
  linkBlocks : (threadsOf s n p).length + 1 ≤
    threadsPerProcessThreadList * (t.processes p).threadLists
  numThreads : (t.processes p).numThreads = (s.processes p).numThreads + 1
  startupThread : (t.processes p).startupThread =
    if (s.processes p).numThreads = 0 then some n else (s.processes p).startupThread
  total : (t.processes p).stackSize = (s.processes p).stackSize + alignStackSize stackSize
  userStack : (s.processes p).operatingMode ≠ kernelmodeProcess →
    (t.threads n).rsp = userStackBase - (s.processes p).stackSize ∧
    (t.threads n).virtualStackPtr =
    userStackBase - (s.processes p).stackSize - alignStackSize stackSize

theorem Linked.allocateThread (h : Linked s n) (p : ℕ) : ∃ lists, n + 1 ≤ pentriesPerList * lists ∧
    allocateThread s p =
      (({ s with threadLists := lists }.setThread n
        { ThreadBlock.zero with
          state := thsPresent ||| thsRunnable, threadId := n, process := p }).setProcess p
          (setupThreadRegisters (s.processes p) n), n) := by
  have hplace := place_first (show 0 < pentriesPerList by decide) h.blocks h.state_eq_zero
  unfold Processes.allocateThread
  generalize place (fun t => decide ((s.threads t).state = 0)) pentriesPerList s.threadLists =
    r at hplace ⊢
  obtain ⟨t, lists⟩ := r
  obtain ⟨ht, hlists⟩ := hplace
  subst ht
  exact ⟨lists, hlists, rfl⟩

theorem Linked.linkThread (h : Linked s n) {q : ProcessThreads}
    (hq : q.threads = (s.processes p).threads) (hl : q.threadLists = (s.processes p).threadLists) :
    ∃ lists, (threadsOf s n p).length + 1 ≤ threadsPerProcessThreadList * lists ∧
      linkThread q n =
        { q with
          threads := Function.update q.threads (threadsOf s n p).length (some n)
          threadLists := lists } := by
  have hplace :=
    place_first (show 0 < threadsPerProcessThreadList by decide) (h.linkBlocks p) (h.link_isNone p)
  unfold Processes.linkThread
  rw [hq, hl]
  generalize place (fun i => ((s.processes p).threads i).isNone) threadsPerProcessThreadList
    (s.processes p).threadLists = r at hplace ⊢
  obtain ⟨i, lists⟩ := r
  obtain ⟨hi, hlists⟩ := hplace
  subst hi
  exact ⟨lists, hlists, rfl⟩

theorem assignProcessor_eq (s : ThreadTables) (b : ThreadBlock) (flags : BitVec 64) :
    ∃ next processor, assignProcessor s b flags =
      ({ s with nextThreadProcessor := next }, { b with processorId := processor }) := by
  unfold assignProcessor
  by_cases hidle : flags &&& threadCreateSystemIdle = 0
  · rw [if_pos hidle]
    exact ⟨s.nextThreadProcessor, b.processorId, rfl⟩
  · rw [if_neg hidle]
    exact ⟨_, _, rfl⟩

theorem setStack_same (q : ProcessThreads) (b : ThreadBlock) (stackSize : BitVec 64) (stack : ℕ) :
    (setStack q b stackSize stack).threadId = b.threadId ∧
    (setStack q b stackSize stack).process = b.process := by
  unfold setStack
  split_ifs
  · exact ⟨rfl, rfl⟩
  · exact ⟨rfl, rfl⟩

theorem setStack_user {q : ProcessThreads} (hq : q.operatingMode ≠ kernelmodeProcess)
    (b : ThreadBlock) (stackSize : BitVec 64) (stack : ℕ) :
    (setStack q b stackSize stack).rsp = userStackBase - q.stackSize ∧
      (setStack q b stackSize stack).virtualStackPtr = userStackBase - q.stackSize - stackSize := by
  unfold setStack
  rw [if_pos hq]
  exact ⟨rfl, rfl⟩

theorem setThread_threads (s : ThreadTables) (t i : ℕ) (b : ThreadBlock) :
    (s.setThread t b).threads i = if i = t then b else s.threads i := by
  simp only [ThreadTables.setThread, Function.update_apply]

theorem initThread_threads (s : ThreadTables) (p t : ℕ) (size : BitVec 64) (startAddress : ℕ)
    (flags : BitVec 64) (stack : ℕ) :
    (∀ i, i ≠ t → (initThread s p t size startAddress flags stack).threads i = s.threads i) ∧
    ((initThread s p t size startAddress flags stack).threads t).state =
      createdState (s.threads t).state flags ∧
    ((initThread s p t size startAddress flags stack).threads t).threadId = (s.threads t).threadId ∧
    ((initThread s p t size startAddress flags stack).threads t).process = (s.threads t).process ∧
    ((s.processes p).operatingMode ≠ kernelmodeProcess →
      ((initThread s p t size startAddress flags stack).threads t).rsp =
        userStackBase - (s.processes p).stackSize ∧
      ((initThread s p t size startAddress flags stack).threads t).virtualStackPtr =
        userStackBase - (s.processes p).stackSize - size) := by
  obtain ⟨next, processor, hassign⟩ := assignProcessor_eq s (s.threads t) flags
  have hself : ∀ (u : ThreadTables) (b : ThreadBlock) (q : ProcessThreads),
      ((u.setThread t b).setProcess p q).threads t = b := by
    intro u b q
    change (u.setThread t b).threads t = b
    rw [setThread_threads, if_pos rfl]
  unfold initThread
  rw [hassign]
  dsimp only
  refine ⟨fun i hi => Function.update_of_ne hi _ _, ?_, ?_, ?_, fun hmode => ?_⟩
  · rw [hself]
  · rw [hself]
    exact (setStack_same _ _ size stack).1
  · rw [hself]
    exact (setStack_same _ _ size stack).2
  · rw [hself]
    exact setStack_user hmode _ size stack

theorem initThread_processes (s : ThreadTables) (p t : ℕ) (size : BitVec 64) (startAddress : ℕ)
    (flags : BitVec 64) (stack : ℕ) :
    (initThread s p t size startAddress flags stack).threadLists = s.threadLists ∧
    (∀ q, q ≠ p → (initThread s p t size startAddress flags stack).processes q = s.processes q) ∧
    (initThread s p t size startAddress flags stack).processes p =
      linkThread { s.processes p with stackSize := (s.processes p).stackSize + size } t := by
  obtain ⟨next, processor, hassign⟩ := assignProcessor_eq s (s.threads t) flags
  unfold initThread
  rw [hassign]
  exact ⟨rfl, fun q hq => Function.update_of_ne hq _ _, Function.update_self p _ _⟩

theorem Linked.creates (h : Linked s n) (hset : (s.processes p).set = true) (stackSize : BitVec 64)
    (startAddress : ℕ) (flags : BitVec 64) (stack : ℕ) :
    Creates s n p stackSize (keCreateThread s p stackSize startAddress flags stack).1 ∧
      (keCreateThread s p stackSize startAddress flags stack).2 = some n := by
  obtain ⟨lists, hlists, halloc⟩ := h.allocateThread p
  unfold keCreateThread
  rw [if_pos hset, halloc]
  refine ⟨?_, rfl⟩
  dsimp only
  generalize hs' : ({ s with threadLists := lists }.setThread n
    { ThreadBlock.zero with
      state := thsPresent ||| thsRunnable, threadId := n, process := p }).setProcess p
      (setupThreadRegisters (s.processes p) n) = s'
  have hthread : s'.threads = Function.update s.threads n
      { ThreadBlock.zero with state := thsPresent ||| thsRunnable, threadId := n, process := p } :=
      by
    rw [← hs']
    rfl
  have hprocess : s'.processes = Function.update s.processes p
      (setupThreadRegisters (s.processes p) n) := by
    rw [← hs']
    rfl
  have hself : s'.threads n =
      { ThreadBlock.zero with state := thsPresent ||| thsRunnable, threadId := n, process := p } :=
      by
    rw [hthread, Function.update_self]
  have howner : s'.processes p = setupThreadRegisters (s.processes p) n := by
    rw [hprocess, Function.update_self]
  obtain ⟨hothers, hstate, hid, hproc, huser⟩ :=
    initThread_threads s' p n (alignStackSize stackSize) startAddress flags stack
  obtain ⟨hblocks, hotherprocs, hlinked⟩ :=
    initThread_processes s' p n (alignStackSize stackSize) startAddress flags stack
  obtain ⟨plists, hplists, hlink⟩ := h.linkThread (p := p)
    (q := { s'.processes p with
      stackSize := (s'.processes p).stackSize + alignStackSize stackSize })
    (by rw [howner]; rfl) (by rw [howner]; rfl)
  rw [hself] at hstate hid hproc
  rw [hlink, howner] at hlinked
  rw [howner] at huser
  exact {
    others := fun i hi => by rw [hothers i hi, hthread, Function.update_of_ne hi]
    present := by rw [hstate]; exact createdState_present flags
    threadId := hid
    process := hproc
    blocks := by rw [hblocks, ← hs']; exact hlists
    otherProcesses := fun q hq => by rw [hotherprocs q hq, hprocess, Function.update_of_ne hq]
    mode := by rw [hlinked]; exact ⟨rfl, rfl⟩
    links := by rw [hlinked]; rfl
    linkBlocks := by rw [hlinked]; exact hplists
    numThreads := by rw [hlinked]; rfl
    startupThread := by rw [hlinked]; rfl
    total := by rw [hlinked]; rfl
    userStack := huser }

theorem threadsOf_creates (h : Creates s n p stackSize t) (q : ℕ) :
    threadsOf t (n + 1) q = threadsOf s n q ++ if q = p then [n] else [] := by
  have hfirst : (List.range n).filter (fun i => (t.threads i).process = q) = threadsOf s n q := by
    apply List.filter_congr
    intro i hi
    have hne : i ≠ n := Nat.ne_of_lt (List.mem_range.mp hi)
    rw [h.others i hne]
  unfold threadsOf at hfirst ⊢
  rw [List.range_succ, List.filter_append, hfirst, List.filter_singleton, h.process]
  by_cases hq : q = p
  · rw [if_pos hq, decide_eq_true hq.symm, cond_true]
  · rw [if_neg hq, decide_eq_false (fun hc => hq hc.symm), cond_false]

theorem Linked.of_creates (h : Linked s n) (hc : Creates s n p stackSize t) : Linked t (n + 1) where
  present := by
    intro i hi
    rcases Nat.lt_or_eq_of_le (Nat.le_of_lt_succ hi) with hlt | rfl
    · rw [hc.others i (Nat.ne_of_lt hlt)]
      exact h.present i hlt
    · exact hc.present
  unused := by
    intro i hi
    rw [hc.others i (Nat.ne_of_gt hi)]
    exact h.unused i (Nat.le_of_succ_le hi)
  blocks := hc.blocks
  threadId := by
    intro i hi
    rcases Nat.lt_or_eq_of_le (Nat.le_of_lt_succ hi) with hlt | rfl
    · rw [hc.others i (Nat.ne_of_lt hlt)]
      exact h.threadId i hlt
    · exact hc.threadId
  links := by
    intro q j
    rw [threadsOf_creates hc]
    by_cases hq : q = p
    · subst hq
      rw [if_pos rfl, hc.links, Function.update_apply, h.links, List.getElem?_append]
      rcases Nat.lt_trichotomy j (threadsOf s n q).length with hj | hj | hj
      · rw [if_neg (Nat.ne_of_lt hj), if_pos hj]
      · rw [if_pos hj, if_neg (by omega), hj, Nat.sub_self]
        rfl
      · rw [if_neg (Nat.ne_of_gt hj), if_neg (by omega), List.getElem?_eq_none (Nat.le_of_lt hj),
          List.getElem?_eq_none (show [n].length ≤ _ by rw [List.length_singleton]; omega)]
    · rw [if_neg hq, List.append_nil, hc.otherProcesses q hq]
      exact h.links q j
  linkBlocks := by
    intro q
    rw [threadsOf_creates hc]
    by_cases hq : q = p
    · subst hq
      rw [if_pos rfl, List.length_append]
      exact hc.linkBlocks
    · rw [if_neg hq, List.append_nil, hc.otherProcesses q hq]
      exact h.linkBlocks q
  numThreads := by
    intro q
    rw [threadsOf_creates hc]
    by_cases hq : q = p
    · subst hq
      rw [if_pos rfl, List.length_append, hc.numThreads, h.numThreads, List.length_singleton]
    · rw [if_neg hq, List.append_nil, hc.otherProcesses q hq]
      exact h.numThreads q
  startupThread := by
    intro q
    rw [threadsOf_creates hc]
    by_cases hq : q = p
    · subst hq
      rw [if_pos rfl, hc.startupThread, h.numThreads, h.startupThread]
      cases threadsOf s n q with
      | nil => rfl
      | cons u us => rfl
    · rw [if_neg hq, List.append_nil, hc.otherProcesses q hq]
      exact h.startupThread q

/-- A change of the state of a thread that was created, which leaves the flag `THS_PRESENT` set. -/
theorem Linked.mapState (h : Linked s n) {i : ℕ} (hi : i < n) {f : BitVec 64 → BitVec 64}
    (hf : ∀ x : BitVec 64, x.getLsbD 0 = true → (f x).getLsbD 0 = true) :
    Linked (s.mapState i f) n := by
  have hfield : ∀ j, ((s.mapState i f).threads j).process = (s.threads j).process ∧
      ((s.mapState i f).threads j).threadId = (s.threads j).threadId := by
    intro j
    unfold ThreadTables.mapState
    rw [setThread_threads]
    split_ifs with hj
    · rw [hj]
      exact ⟨rfl, rfl⟩
    · exact ⟨rfl, rfl⟩
  have hsame : ∀ q, threadsOf (s.mapState i f) n q = threadsOf s n q := by
    intro q
    apply List.filter_congr
    intro j _
    rw [(hfield j).1]
  exact {
    present := by
      intro j hj
      unfold ThreadTables.mapState
      rw [setThread_threads]
      split_ifs
      · exact hf _ (h.present i hi)
      · exact h.present j hj
    unused := by
      intro j hj
      unfold ThreadTables.mapState
      rw [setThread_threads, if_neg (by omega)]
      exact h.unused j hj
    blocks := h.blocks
    threadId := fun j hj => (hfield j).2.trans (h.threadId j hj)
    links := fun q j => by rw [hsame]; exact h.links q j
    linkBlocks := fun q => by rw [hsame]; exact h.linkBlocks q
    numThreads := fun q => by rw [hsame]; exact h.numThreads q
    startupThread := fun q => by rw [hsame]; exact h.startupThread q }

/-- The calls other than `KeCreateThread` are made with a thread that exists. -/
def ThreadExists (s : ThreadTables) : ThreadCall → Prop
  | .keCreateThread .. => True
  | .keSuspendThread t | .keResumeThread t | .ioWait t | .ioFinish t => (s.threads t).state ≠ 0

instance (s : ThreadTables) : (c : ThreadCall) → Decidable (ThreadExists s c)
  | .keCreateThread .. => inferInstanceAs (Decidable True)
  | .keSuspendThread t | .keResumeThread t | .ioWait t | .ioFinish t =>
    inferInstanceAs (Decidable ((s.threads t).state ≠ 0))

theorem Linked.lt_of_state (h : Linked s n) {i : ℕ} (hi : (s.threads i).state ≠ 0) : i < n := by
  by_contra hge
  rw [h.unused i (Nat.not_lt.mp hge)] at hi
  exact hi rfl

theorem Linked.state_ne_zero (h : Linked s n) {i : ℕ} (hi : i < n) : (s.threads i).state ≠ 0 := by
  intro hz
  have hbit := h.present i hi
  rw [hz] at hbit
  exact Bool.noConfusion hbit

theorem keCreateThread_unset (hset : (s.processes p).set = false) (stackSize : BitVec 64)
    (startAddress : ℕ) (flags : BitVec 64) (stack : ℕ) :
    keCreateThread s p stackSize startAddress flags stack = (s, none) := by
  unfold keCreateThread
  rw [hset]
  rfl

theorem present_calls (x : BitVec 64) (hx : x.getLsbD 0 = true) :
    (x &&& ~~~thsAlive).getLsbD 0 = true ∧ (x ||| thsAlive).getLsbD 0 = true ∧
    (x ||| thsIoWait).getLsbD 0 = true ∧
      (x ||| thsIoPin).getLsbD 0 = true := by
  refine ⟨?_, ?_, ?_, ?_⟩
  · rw [BitVec.getLsbD_and, hx]
    rfl
  all_goals rw [BitVec.getLsbD_or, hx, Bool.true_or]

theorem Linked.run (h : Linked s n) {c : ThreadCall} (hc : ThreadExists s c)
    (hrun : c.run s = some t) :
    ∃ m, Linked t m := by
  cases c with
  | keCreateThread p stackSize startAddress flags stack =>
    obtain rfl := Option.some.inj hrun
    cases hset : (s.processes p).set with
    | true => exact ⟨n + 1, h.of_creates (h.creates hset stackSize startAddress flags stack).1⟩
    | false =>
      rw [keCreateThread_unset hset]
      exact ⟨n, h⟩
  | keSuspendThread i =>
    obtain rfl := Option.some.inj hrun
    exact ⟨n, h.mapState (h.lt_of_state hc) fun x hx => (present_calls x hx).1⟩
  | keResumeThread i =>
    obtain rfl := Option.some.inj hrun
    exact ⟨n, h.mapState (h.lt_of_state hc) fun x hx => (present_calls x hx).2.1⟩
  | ioWait i =>
    obtain rfl := Option.some.inj hrun
    exact ⟨n, h.mapState (h.lt_of_state hc) fun x hx => (present_calls x hx).2.2.1⟩
  | ioFinish i =>
    obtain rfl := Option.some.inj hrun
    exact ⟨n, h.mapState (h.lt_of_state hc) fun x hx => (present_calls x hx).2.2.2⟩

theorem mem_threadsOf {i : ℕ} : i ∈ threadsOf s n p ↔ i < n ∧ (s.threads i).process = p := by
  unfold threadsOf
  rw [List.mem_filter, List.mem_range, decide_eq_true_eq]

theorem Linked.one_link (h : Linked s n) {i : ℕ} (hi : i < n) :
    ∃ j, ∀ p k, (s.processes p).threads k = some i ↔ p = (s.threads i).process ∧ k = j := by
  obtain ⟨j, hj, hget⟩ :=
    List.getElem_of_mem (mem_threadsOf.mpr ⟨hi, rfl⟩ : i ∈ threadsOf s n (s.threads i).process)
  refine ⟨j, fun p k => ?_⟩
  rw [h.links]
  constructor
  · intro hk
    obtain ⟨hlt, hki⟩ := List.getElem?_eq_some_iff.mp hk
    have hp : (s.threads i).process = p := (mem_threadsOf.mp (List.mem_of_getElem? hk)).2
    subst hp
    have hnodup : (threadsOf s n (s.threads i).process).Nodup := List.nodup_range.filter _
    exact ⟨rfl, (List.Nodup.getElem_inj_iff hnodup).mp (hki.trans hget.symm)⟩
  · rintro ⟨rfl, rfl⟩
    rw [List.getElem?_eq_getElem hj, hget]

/-- Whatever threads are created, suspended, resumed or wait, the number of a thread is its place
among the blocks, it is linked at one place of its own process and at no other, and the counter and
the first thread of a process are those of its links. -/
theorem threads_linked (set : ℕ → Bool) (operatingMode : ℕ → ℕ) (numProcessors : ℕ)
    (h : Reaches ThreadCall.run ThreadExists (noThreads set operatingMode numProcessors) s) :
    ∃ n, (∀ i, (s.threads i).state ≠ 0 ↔ i < n) ∧
      (∀ i < n, (s.threads i).threadId = i ∧
        ∃ j, ∀ p k, (s.processes p).threads k = some i ↔ p = (s.threads i).process ∧ k = j) ∧
      ∀ p, (s.processes p).numThreads = (threadsOf s n p).length ∧
        (s.processes p).startupThread = (threadsOf s n p).head? ∧
        ∀ k i, (s.processes p).threads k = some i → i < n := by
  have hlinked : ∃ n, Linked s n := by
    refine h.invariant (I := fun s => ∃ n, Linked s n) ?_
      ⟨0, linked_noThreads set operatingMode numProcessors⟩
    rintro u c v ⟨n, hn⟩ hc hrun
    exact hn.run hc hrun
  obtain ⟨n, hn⟩ := hlinked
  refine ⟨n, fun i => ⟨hn.lt_of_state, hn.state_ne_zero⟩,
    fun i hi => ⟨hn.threadId i hi, hn.one_link hi⟩, fun p => ?_⟩
  refine ⟨hn.numThreads p, hn.startupThread p, fun k i hk => ?_⟩
  rw [hn.links] at hk
  exact (mem_threadsOf.mp (List.mem_of_getElem? hk)).1

def threeThreads : List ThreadCall :=
  [.keCreateThread 1 0 0x250000 threadCreateSuspend 0x9000,
    .keCreateThread 2 0x1800 0x250000 0 0xA000, .keCreateThread 1 1 0x251000 0 0xB000,
    .keSuspendThread 2]

theorem threads_linked_three : ∃ s,
    Reaches ThreadCall.run ThreadExists (noThreads (fun _ => true) (fun _ => usermodeProcess) 1) s ∧
    (s.processes 1).threads 1 = some 2 ∧ ∀ p k, (s.processes p).threads k = some 2 → p = 1 ∧
    k = 1 := by
  have hrun : ∃ s, guardedRun ThreadCall.run ThreadExists
      (noThreads (fun _ => true) (fun _ => usermodeProcess) 1) threeThreads = some s := by
    rw [← Option.isSome_iff_exists]
    decide
  obtain ⟨s, hs⟩ := hrun
  have hr := reaches_of_guardedRun _ hs
  have hlink : ((s.processes 1).threads 1, (s.threads 2).state) = (some 2, 3) :=
    eq_of_map (fun s : ThreadTables => ((s.processes 1).threads 1, (s.threads 2).state)) hs (by
      decide)
  simp only [Prod.mk.injEq] at hlink
  obtain ⟨n, hstate, hthreads, -⟩ := threads_linked _ _ _ hr
  have hlt : 2 < n := (hstate 2).mp (by rw [hlink.2]; decide)
  obtain ⟨j, hj⟩ := (hthreads 2 hlt).2
  obtain ⟨hp, hk⟩ := (hj 1 1).mp hlink.1
  refine ⟨s, hr, hlink.1, fun p k hpk => ?_⟩
  obtain ⟨hp', hk'⟩ := (hj p k).mp hpk
  exact ⟨hp'.trans hp.symm, hk'.trans hk.symm⟩

/-- The stacks of the threads, the first one right below `top` and each next one right below it,
down to `bottom`. -/
def Stacked (s : ThreadTables) : ℕ → List ℕ → ℕ → Prop
  | top, [], bottom => top = bottom
  | top, i :: is, bottom =>
    (s.threads i).rsp.toNat = top ∧ (s.threads i).virtualStackPtr.toNat < top ∧
      Stacked s (s.threads i).virtualStackPtr.toNat is bottom

theorem Stacked.congr {is : List ℕ} {top bottom : ℕ} (h : Stacked s top is bottom)
    (he : ∀ i ∈ is, (t.threads i).rsp = (s.threads i).rsp ∧
      (t.threads i).virtualStackPtr = (s.threads i).virtualStackPtr) : Stacked t top is bottom := by
  induction is generalizing top with
  | nil => exact h
  | cons i is ih =>
    obtain ⟨hrsp, hvirtual⟩ := he i List.mem_cons_self
    obtain ⟨htop, hlt, hrest⟩ := h
    unfold Stacked
    rw [hrsp, hvirtual]
    exact ⟨htop, hlt, ih hrest fun j hj => he j (List.mem_cons_of_mem i hj)⟩

theorem Stacked.snoc {is : List ℕ} {top middle bottom i : ℕ} (h : Stacked s top is middle)
    (hrsp : (s.threads i).rsp.toNat = middle)
    (hvirtual : (s.threads i).virtualStackPtr.toNat = bottom) (hlt : bottom < middle) :
    Stacked s top (is ++ [i]) bottom := by
  induction is generalizing top with
  | nil =>
    obtain rfl : top = middle := h
    exact ⟨hrsp, by rw [hvirtual]; exact hlt, hvirtual⟩
  | cons j is ih => exact ⟨h.1, h.2.1, ih h.2.2⟩

theorem Stacked.le_top {is : List ℕ} {top bottom : ℕ} (h : Stacked s top is bottom) {i : ℕ}
    (hi : i ∈ is) :
    (s.threads i).virtualStackPtr.toNat < (s.threads i).rsp.toNat ∧
    (s.threads i).rsp.toNat ≤ top := by
  induction is generalizing top with
  | nil => exact absurd hi List.not_mem_nil
  | cons j is ih =>
    obtain ⟨htop, hlt, hrest⟩ := h
    rcases List.mem_cons.mp hi with rfl | hmem
    · rw [htop]
      exact ⟨hlt, Nat.le_refl _⟩
    · obtain ⟨hi1, hi2⟩ := ih hrest hmem
      exact ⟨hi1, hi2.trans hlt.le⟩

theorem Stacked.pairwise {is : List ℕ} {top bottom : ℕ} (h : Stacked s top is bottom) :
    is.Pairwise fun i j => (s.threads j).rsp.toNat ≤ (s.threads i).virtualStackPtr.toNat := by
  induction is generalizing top with
  | nil => exact List.Pairwise.nil
  | cons i is ih =>
    obtain ⟨-, -, hrest⟩ := h
    exact List.Pairwise.cons (fun j hj => (hrest.le_top hj).2) (ih hrest)

theorem mod_page (x : BitVec 64) : x.toNat % 0x1000 = (x &&& 0xFFF).toNat := by
  have hmask : (0xFFF : BitVec 64).toNat = 2 ^ 12 - 1 := rfl
  rw [BitVec.toNat_and, hmask, Nat.and_two_pow_sub_one_eq_mod]

theorem wholePages_mask (x : BitVec 64) : (x &&& ~~~0xFFF) &&& 0xFFF = 0 := by
  have hmask : (~~~0xFFF : BitVec 64) &&& 0xFFF = 0 := by decide
  rw [BitVec.and_assoc, hmask]
  exact BitVec.and_zero

theorem alignStackSize_pages (x : BitVec 64) :
    (alignStackSize x).toNat % 0x1000 = 0 ∧ 0 < (alignStackSize x).toNat := by
  unfold alignStackSize
  dsimp only
  generalize (if x = 0 then threadDefaultStackSize else x) = size
  by_cases hpages : size &&& 0xFFF = 0
  · rw [if_pos hpages]
    by_cases hz : size = 0
    · rw [if_pos hz]
      decide
    · rw [if_neg hz, mod_page, hpages]
      exact ⟨rfl, Nat.pos_of_ne_zero fun h0 => hz (BitVec.eq_of_toNat_eq h0)⟩
  · rw [if_neg hpages]
    by_cases hz : (size + 0x1000) &&& ~~~0xFFF = 0
    · rw [if_pos hz]
      decide
    · rw [if_neg hz, mod_page, wholePages_mask]
      exact ⟨rfl, Nat.pos_of_ne_zero fun h0 => hz (BitVec.eq_of_toNat_eq h0)⟩

/-- The stacks of every process of a user are below `USER_STACK_BASE` without a gap, and `StackSize`
is their size. -/
structure StacksBelow (s : ThreadTables) (n : ℕ) : Prop where
  fits : ∀ p, (s.processes p).operatingMode ≠ kernelmodeProcess →
    (s.processes p).stackSize.toNat ≤ userStackBase.toNat
  pages : ∀ p, (s.processes p).operatingMode ≠ kernelmodeProcess →
    (s.processes p).stackSize.toNat % 0x1000 = 0
  stacked : ∀ p, (s.processes p).operatingMode ≠ kernelmodeProcess →
    Stacked s userStackBase.toNat (threadsOf s n p)
    (userStackBase.toNat - (s.processes p).stackSize.toNat)

def StackFits (s : ThreadTables) : ThreadCall → Prop
  | .keCreateThread p stackSize _ _ _ => (s.processes p).operatingMode ≠ kernelmodeProcess →
    (s.processes p).stackSize.toNat + (alignStackSize stackSize).toNat ≤ userStackBase.toNat
  | _ => True

instance (s : ThreadTables) : (c : ThreadCall) → Decidable (StackFits s c)
  | .keCreateThread p stackSize _ _ _ =>
    inferInstanceAs (Decidable ((s.processes p).operatingMode ≠ kernelmodeProcess →
    (s.processes p).stackSize.toNat + (alignStackSize stackSize).toNat ≤ userStackBase.toNat))
  | .keSuspendThread _ | .keResumeThread _ | .ioWait _ | .ioFinish _ =>
      inferInstanceAs (Decidable True)

def ThreadFits (s : ThreadTables) (c : ThreadCall) : Prop := ThreadExists s c ∧ StackFits s c

instance (s : ThreadTables) (c : ThreadCall) : Decidable (ThreadFits s c) :=
  inferInstanceAs (Decidable (_ ∧ _))

theorem toNat_sub_of_le {x y : BitVec 64} (h : y.toNat ≤ x.toNat) :
    (x - y).toNat = x.toNat - y.toNat := by
  rw [BitVec.toNat_sub]
  have hx := x.isLt
  omega

theorem StacksBelow.of_creates (h : StacksBelow s n) (hc : Creates s n p stackSize t)
    (hfits : (s.processes p).operatingMode ≠ kernelmodeProcess →
      (s.processes p).stackSize.toNat + (alignStackSize stackSize).toNat ≤ userStackBase.toNat) :
    StacksBelow t (n + 1) := by
  obtain ⟨hpages, hpos⟩ := alignStackSize_pages stackSize
  have hkept : ∀ q i, i ∈ threadsOf s n q → (t.threads i).rsp = (s.threads i).rsp ∧
      (t.threads i).virtualStackPtr = (s.threads i).virtualStackPtr := by
    intro q i hi
    rw [hc.others i (Nat.ne_of_lt (mem_threadsOf.mp hi).1)]
    exact ⟨rfl, rfl⟩
  have htotal : (s.processes p).operatingMode ≠ kernelmodeProcess →
      (t.processes p).stackSize.toNat =
      (s.processes p).stackSize.toNat + (alignStackSize stackSize).toNat := by
    intro hmode
    have hle := hfits hmode
    have hbase : userStackBase.toNat = 0xFF00000000 := rfl
    rw [hc.total, BitVec.toNat_add]
    omega
  have hother : ∀ q, q ≠ p → t.processes q = s.processes q := hc.otherProcesses
  refine ⟨fun q hq => ?_, fun q hq => ?_, fun q hq => ?_⟩
  · by_cases hqp : q = p
    · subst hqp
      rw [hc.mode.2] at hq
      rw [htotal hq]
      exact hfits hq
    · rw [hother q hqp] at hq ⊢
      exact h.fits q hq
  · by_cases hqp : q = p
    · subst hqp
      rw [hc.mode.2] at hq
      have hbefore := h.pages q hq
      rw [htotal hq]
      omega
    · rw [hother q hqp] at hq ⊢
      exact h.pages q hq
  · rw [threadsOf_creates hc]
    by_cases hqp : q = p
    · subst hqp
      rw [hc.mode.2] at hq
      have hle := hfits hq
      obtain ⟨hrsp, hvirtual⟩ := hc.userStack hq
      have htop : (t.threads n).rsp.toNat = userStackBase.toNat - (s.processes q).stackSize.toNat :=
          by
        rw [hrsp, toNat_sub_of_le (h.fits q hq)]
      have hbottom : (t.threads n).virtualStackPtr.toNat =
          userStackBase.toNat - (s.processes q).stackSize.toNat - (alignStackSize
          stackSize).toNat := by
        rw [hvirtual, toNat_sub_of_le, toNat_sub_of_le (h.fits q hq)]
        rw [toNat_sub_of_le (h.fits q hq)]
        omega
      rw [if_pos rfl, htotal hq, ← Nat.sub_sub]
      refine Stacked.snoc ((h.stacked q hq).congr (hkept q)) htop hbottom ?_
      omega
    · rw [if_neg hqp, List.append_nil]
      rw [hother q hqp] at hq ⊢
      exact (h.stacked q hq).congr (hkept q)

theorem mapState_threads (s : ThreadTables) (i j : ℕ) (f : BitVec 64 → BitVec 64) :
    ((s.mapState i f).threads j).process = (s.threads j).process ∧
      ((s.mapState i f).threads j).rsp = (s.threads j).rsp ∧
      ((s.mapState i f).threads j).virtualStackPtr = (s.threads j).virtualStackPtr := by
  unfold ThreadTables.mapState
  rw [setThread_threads]
  split_ifs with hj
  · rw [hj]
    exact ⟨rfl, rfl, rfl⟩
  · exact ⟨rfl, rfl, rfl⟩

theorem StacksBelow.mapState (h : StacksBelow s n) (i : ℕ) (f : BitVec 64 → BitVec 64) :
    StacksBelow (s.mapState i f) n where
  fits := h.fits
  pages := h.pages
  stacked := by
    intro p hp
    have hsame : threadsOf (s.mapState i f) n p = threadsOf s n p := by
      apply List.filter_congr
      intro j _
      rw [(mapState_threads s i j f).1]
    rw [hsame]
    exact (h.stacked p hp).congr fun j _ => (mapState_threads s i j f).2

theorem StacksBelow.run (h : StacksBelow s n) (hl : Linked s n) {c : ThreadCall}
    (hc : ThreadFits s c) (hrun : c.run s = some t) : ∃ m, Linked t m ∧ StacksBelow t m := by
  obtain ⟨hexists, hfits⟩ := hc
  cases c with
  | keCreateThread p stackSize startAddress flags stack =>
    obtain rfl := Option.some.inj hrun
    cases hset : (s.processes p).set with
    | true =>
      have hcreates := (hl.creates hset stackSize startAddress flags stack).1
      exact ⟨n + 1, hl.of_creates hcreates, h.of_creates hcreates hfits⟩
    | false =>
      rw [keCreateThread_unset hset]
      exact ⟨n, hl, h⟩
  | keSuspendThread i =>
    obtain rfl := Option.some.inj hrun
    exact ⟨n, hl.mapState (hl.lt_of_state hexists) fun x hx => (present_calls x hx).1,
      h.mapState i _⟩
  | keResumeThread i =>
    obtain rfl := Option.some.inj hrun
    exact ⟨n, hl.mapState (hl.lt_of_state hexists) fun x hx => (present_calls x hx).2.1,
      h.mapState i _⟩
  | ioWait i =>
    obtain rfl := Option.some.inj hrun
    exact ⟨n, hl.mapState (hl.lt_of_state hexists) fun x hx => (present_calls x hx).2.2.1,
      h.mapState i _⟩
  | ioFinish i =>
    obtain rfl := Option.some.inj hrun
    exact ⟨n, hl.mapState (hl.lt_of_state hexists) fun x hx => (present_calls x hx).2.2.2,
      h.mapState i _⟩

theorem stacksBelow_noThreads (set : ℕ → Bool) (operatingMode : ℕ → ℕ) (numProcessors : ℕ) :
    StacksBelow (noThreads set operatingMode numProcessors) 0 where
  fits := fun _ _ => Nat.zero_le _
  pages := fun _ _ => rfl
  stacked := fun _ _ => rfl

/-- As long as the stacks of a process fit below `USER_STACK_BASE`, the stacks of two of its threads
never overlap, every stack is a range below the base, and the stacks fill the `StackSize` bytes
below the base. -/
theorem stacks_disjoint (set : ℕ → Bool) (operatingMode : ℕ → ℕ) (numProcessors : ℕ)
    (h : Reaches ThreadCall.run ThreadFits (noThreads set operatingMode numProcessors) s) (p : ℕ)
    (hp : (s.processes p).operatingMode ≠ kernelmodeProcess) :
    ∃ n, (∀ i, (s.threads i).state ≠ 0 ↔ i < n) ∧
      (∀ i j, i < n → j < n → (s.threads i).process = p → (s.threads j).process = p → i < j →
        (s.threads j).rsp.toNat ≤ (s.threads i).virtualStackPtr.toNat) ∧
      (∀ i < n, (s.threads i).process = p →
        (s.threads i).virtualStackPtr.toNat < (s.threads i).rsp.toNat ∧
        (s.threads i).rsp.toNat ≤ userStackBase.toNat) ∧
      Stacked s userStackBase.toNat (threadsOf s n p)
        (userStackBase.toNat - (s.processes p).stackSize.toNat) := by
  have hinv : ∃ n, Linked s n ∧ StacksBelow s n := by
    refine h.invariant (I := fun s => ∃ n, Linked s n ∧ StacksBelow s n) ?_
      ⟨0, linked_noThreads set operatingMode numProcessors,
      stacksBelow_noThreads set operatingMode numProcessors⟩
    rintro u c v ⟨n, hl, hb⟩ hc hrun
    exact hb.run hl hc hrun
  obtain ⟨n, hl, hb⟩ := hinv
  have hstacked := hb.stacked p hp
  refine ⟨n, fun i => ⟨hl.lt_of_state, hl.state_ne_zero⟩, ?_, ?_, hstacked⟩
  · intro i j hi hj hip hjp hij
    have hsorted : (threadsOf s n p).Pairwise (· < ·) := List.pairwise_lt_range.filter _
    have hpair := hstacked.pairwise
    have hi' := mem_threadsOf.mpr ⟨hi, hip⟩
    have hj' := mem_threadsOf.mpr ⟨hj, hjp⟩
    obtain ⟨a, ha, rfl⟩ := List.getElem_of_mem hi'
    obtain ⟨b, hb', rfl⟩ := List.getElem_of_mem hj'
    have hab : a < b := by
      by_contra hge
      rcases Nat.lt_or_eq_of_le (Nat.not_lt.mp hge) with hlt | rfl
      · exact absurd (List.pairwise_iff_getElem.mp hsorted b a hb' ha hlt) (Nat.not_lt.mpr hij.le)
      · exact Nat.lt_irrefl _ hij
    exact List.pairwise_iff_getElem.mp hpair a b ha hb' hab
  · intro i hi hip
    exact hstacked.le_top (mem_threadsOf.mpr ⟨hi, hip⟩)

theorem stacks_disjoint_three : ∃ s,
    Reaches ThreadCall.run ThreadFits (noThreads (fun _ => true) (fun _ => usermodeProcess) 1) s ∧
    (s.processes 1).stackSize = 0x11000 ∧
    (s.threads 2).rsp.toNat ≤ (s.threads 0).virtualStackPtr.toNat := by
  have hrun : ∃ s, guardedRun ThreadCall.run ThreadFits
      (noThreads (fun _ => true) (fun _ => usermodeProcess) 1) threeThreads = some s := by
    rw [← Option.isSome_iff_exists]
    decide
  obtain ⟨s, hs⟩ := hrun
  have hr := reaches_of_guardedRun _ hs
  have hend : ((s.processes 1).stackSize, (s.processes 1).operatingMode, (s.threads 0).state,
    (s.threads 2).state, (s.threads 0).process,
    (s.threads 2).process) = (0x11000, usermodeProcess, 3, 3, 1, 1) :=
    eq_of_map (fun s : ThreadTables =>
      ((s.processes 1).stackSize, (s.processes 1).operatingMode, (s.threads 0).state,
      (s.threads 2).state, (s.threads 0).process, (s.threads 2).process)) hs (by decide)
  simp only [Prod.mk.injEq] at hend
  obtain ⟨hsize, hmode, h0, h2, hp0, hp2⟩ := hend
  obtain ⟨n, hstate, hbelow, -⟩ := stacks_disjoint _ _ _ hr 1 (by rw [hmode]; decide)
  have hlt0 : 0 < n := (hstate 0).mp (by rw [h0]; decide)
  have hlt2 : 2 < n := (hstate 2).mp (by rw [h2]; decide)
  exact ⟨s, hr, hsize, hbelow 0 2 hlt0 hlt2 hp0 hp2 (by decide)⟩

end DevOs.Processes
