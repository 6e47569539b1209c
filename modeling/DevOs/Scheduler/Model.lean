import Mathlib.Data.List.OfFn
import Mathlib.Algebra.Order.Ring.Nat
import Mathlib.Logic.Function.Basic
import Mathlib.Tactic.Common

/-!
# The task scheduler

`SchedulerEntrySSE` runs on every timer tick of a processor. It puts the current thread off when its
clocks are used up, searches the waiting queues of the priority classes in turn, and switches to the
thread it finds or to the idle thread.

Threads and processes are named by their addresses, a null pointer is `none`, and the memory of the
threads is a function of the address. Registers that a routine hands to another are the fields of
`Scan`, under their own names. Counters and clocks are 64-bit words, of which the scheduler uses the
low half where the table reserves 128 bits.
-/

namespace DevOs.Scheduler

/-- `NUM_PRIORITY_CLASSES` -/
abbrev PriorityClass := Fin 7

instance neZero_classes : NeZero 7 := ⟨by decide⟩

def thsRunnable : BitVec 64 := 2
def thsAlive : BitVec 64 := 4
def thsIoWait : BitVec 64 := 8
def thsIdle : BitVec 64 := 0x40
def thsIoPin : BitVec 64 := 0x100
def thsSleep : BitVec 64 := 0x200
def thsManual : BitVec 64 := 0x400

/-- `THREAD`. The waiting queue is named by its class and its place in the chain of that class. -/
structure Thread where
  state : BitVec 64
  process : ℕ
  threadPriority : ℕ
  timeBurst : ℕ
  threadWaitingQueueIndex : ℕ
  waitingQueue : Option (PriorityClass × ℕ)
  schedulingQuantum : ℕ
  readyAt : ℕ
  remainingClocks : ℕ
  sleepUntil : ℕ
deriving DecidableEq, Repr

/-- `PROCESS`, with the threads that are linked to it. `SetPriorityClass` admits no other class. -/
structure Process where
  priorityClass : PriorityClass
  threads : List ℕ
deriving DecidableEq, Repr

/-- `THREAD_WAITING_QUEUE`, without the pointer to the next one. -/
structure WaitingQueue where
  threads : Fin 0x200 → Option ℕ
  numThreads : ℕ

/-- A waiting queue and those chained to it by `NextQueue`. -/
structure QueueChain where
  first : WaitingQueue
  next : List WaitingQueue

def QueueChain.queues (q : QueueChain) : List WaitingQueue := q.first :: q.next

/-- `CPU_MANAGEMENT_TABLE` at the address `base`, with the threads and processes it refers to. -/
structure Cpu where
  base : ℕ
  threads : ℕ → Thread
  processes : ℕ → Process
  totalThreads : PriorityClass → ℕ
  numReadyThreads : PriorityClass → ℕ
  threadQueues : PriorityClass → QueueChain
  currentThread : ℕ
  totalClocks : ℕ
  readyOnClock : PriorityClass → ℕ
  systemIdleThread : ℕ
  forceNextThread : Option ℕ

namespace Cpu

def setThread (p : Cpu) (t : ℕ) (th : Thread) : Cpu :=
  { p with threads := Function.update p.threads t th }

def setRemainingClocks (p : Cpu) (t n : ℕ) : Cpu :=
  p.setThread t { p.threads t with remainingClocks := n }

/-- `Thread->Process->PriorityClass` -/
def classOf (p : Cpu) (t : ℕ) : PriorityClass :=
  (p.processes (p.threads t).process).priorityClass

end Cpu

/-- The registers and the memory that a scan works on: `rdi` counts the threads still to be met,
`r11` is the priority to be beaten, `rbx` the choice and `r9` the number of ready threads. -/
structure Scan where
  threads : ℕ → Thread
  rdi : ℕ
  r11 : ℕ
  rbx : Option ℕ
  r9 : ℕ

/-- `and qword [t], ~mask` -/
def clearState (threads : ℕ → Thread) (t : ℕ) (mask : BitVec 64) : ℕ → Thread :=
  Function.update threads t { threads t with state := (threads t).state &&& ~~~mask }

/-- How the tests of a thread's state end: at the mask of `THS_RUNNABLE` and `THS_ALIVE`, at a later
test, or at `.__E2` where the thread becomes the choice. -/
inductive Verdict where
  | masked
  | refused
  | accepted
deriving DecidableEq, Repr

/-- `.__E3` and `.IOWAIT`. The flags in `r13` were read before the flag `THS_SLEEP` was cleared. -/
def ioWaitTest (r12 : ℕ) (r13 : BitVec 64) (s : Scan) : Verdict × Scan :=
  if r13 &&& thsIoWait ≠ 0 then
    if r13 &&& thsIoPin = 0 then (.refused, s)
    else (.accepted, { s with threads := clearState s.threads r12 (thsIoWait ||| thsIoPin) })
  else (.accepted, s)

/-- The tests from `mov r13, [r12]` to `.__E2`. `.SLEEP` loads the time into `rdi`. -/
def stateTest (xmm13 r12 : ℕ) (s : Scan) : Verdict × Scan :=
  let r13 := (s.threads r12).state
  if r13 &&& (thsRunnable ||| thsAlive) = 0 then (.masked, s)
  else if r13 &&& (thsManual ||| thsIdle) ≠ 0 then (.refused, s)
  else if r13 &&& thsSleep ≠ 0 then
    if xmm13 < (s.threads r12).sleepUntil then (.refused, { s with rdi := xmm13 })
    else ioWaitTest r12 r13
      { s with rdi := xmm13, threads := clearState s.threads r12 thsSleep }
  else ioWaitTest r12 r13 s

/-- `mov rbx, r12` and `mov r11d, [rbx + TH_THREAD_PRIORITY]` -/
def Scan.choose (s : Scan) (r12 : ℕ) : Scan :=
  { s with rbx := some r12, r11 := (s.threads r12).threadPriority }

/-- One slot of `SSEHighestPriorityThreadScan`, and whether the scan is left there. `masked` says
what follows when the thread fails the test of `THS_RUNNABLE` and `THS_ALIVE`. -/
def highestSlot (masked : Scan → Bool) (xmm4 xmm13 : ℕ) (slot : Option ℕ) (s : Scan) :
    Bool × Scan :=
  if s.rdi = 0 then (true, s)
  else match slot with
    | none => (false, s)
    | some r12 =>
      let s := { s with rdi := s.rdi - 1 }
      if s.r11 ≤ (s.threads r12).threadPriority then (false, s)
      else if xmm4 < (s.threads r12).readyAt then (false, s)
      else match stateTest xmm13 r12 s with
        | (.masked, s) => (masked s, s)
        | (.refused, s) => (false, s)
        | (.accepted, s) => (decide ((s.choose r12).r11 = 0), s.choose r12)

def highestFirstSlot : ℕ → ℕ → Option ℕ → Scan → Bool × Scan := highestSlot fun _ => false

/-- The second slot of a pair jumps back to `.__E1` when the mask fails: the pair is shifted out and
`rdi` is tested once more. -/
def highestSecondSlot : ℕ → ℕ → Option ℕ → Scan → Bool × Scan := highestSlot fun s => s.rdi = 0

/-- Either slot of a pair of `SSEFullScan`. -/
def fullSlot (xmm4 xmm13 : ℕ) (slot : Option ℕ) (s : Scan) : Bool × Scan :=
  if s.rdi = 0 then (true, s)
  else match slot with
    | none => (false, s)
    | some r12 =>
      let s := { s with rdi := s.rdi - 1 }
      if xmm4 < (s.threads r12).readyAt then (false, s)
      else
        let s := { s with r9 := (s.r9 + 1) % 2 ^ 64 }
        if s.r11 ≤ (s.threads r12).threadPriority then (false, s)
        else match stateTest xmm13 r12 s with
          | (.masked, s) => (false, s)
          | (.refused, s) => (false, s)
          | (.accepted, s) => (false, s.choose r12)

def pairLoop (first second : Option ℕ → Scan → Bool × Scan) : List (Option ℕ) → Scan → Bool × Scan
  | a :: b :: slots, s =>
    match first a s with
    | (true, s) => (true, s)
    | (false, s) =>
      match second b s with
      | (true, s) => (true, s)
      | (false, s) => pairLoop first second slots s
  | _, s => (false, s)

/-- The loop over a chain of queues: the next one is entered when `rsi` reaches 0x200. -/
def chainLoop (body : List (Option ℕ) → Scan → Bool × Scan) : List WaitingQueue → Scan → Scan
  | [], s => s
  | q :: queues, s =>
    match body (List.ofFn q.threads) s with
    | (true, s) => s
    | (false, s) => chainLoop body queues s

/-- `SSEHighestPriorityThreadScan`, with the clock in `xmm4`, the time in `xmm13` and the number of
threads in `rdi`. -/
def sseHighestPriorityThreadScan (xmm4 xmm13 : ℕ) (xmm1 : QueueChain) (s : Scan) : Scan :=
  chainLoop (pairLoop (highestFirstSlot xmm4 xmm13) (highestSecondSlot xmm4 xmm13)) xmm1.queues s

def sseFullScan (xmm4 xmm13 : ℕ) (xmm1 : QueueChain) (s : Scan) : Scan :=
  chainLoop (pairLoop (fullSlot xmm4 xmm13) (fullSlot xmm4 xmm13)) xmm1.queues s

/-- Puts the thread `t` off: its class has one ready thread less, it is ready again after its
quantum, and its deadline becomes that of the class when the counter of the class `tested` is
zero. -/
def Cpu.putOff (p : Cpu) (tested : PriorityClass) (t : ℕ) : Cpu :=
  let c := p.classOf t
  let readyAt := ((p.threads t).schedulingQuantum + p.totalClocks) % 2 ^ 64
  let numReady := Function.update p.numReadyThreads c
    ((p.numReadyThreads c + (2 ^ 64 - 1)) % 2 ^ 64)
  { p.setThread t { p.threads t with readyAt := readyAt } with
    numReadyThreads := numReady
    readyOnClock :=
      if numReady tested = 0 then Function.update p.readyOnClock c readyAt else p.readyOnClock }

/-- The current thread makes room for `ForceNextThread`. -/
def Cpu.putOffForced (p : Cpu) : Cpu := p.putOff (p.classOf p.currentThread) p.currentThread

/-- The current thread has used up its clocks. `cmp qword [rax + CPM_NUM_READY_THREADS], 0` lacks
the index of the class. -/
def Cpu.putOffExpired (p : Cpu) : Cpu := p.putOff 0 p.currentThread

/-- The thread `t` was preempted, with the same comparison. -/
def Cpu.putOffPreempted (p : Cpu) (t : ℕ) : Cpu := p.putOff 0 t

/-- `mm4` and `mm5`: the current thread and its class while it has clocks left. -/
def Cpu.kept (p : Cpu) : Option (PriorityClass × ℕ) :=
  if (p.threads p.currentThread).remainingClocks = 0 then none
  else some (p.classOf p.currentThread, p.currentThread)

/-- The table at `.J2`, where the search begins. -/
def Cpu.searched (p : Cpu) : Cpu :=
  if (p.threads p.currentThread).remainingClocks = 0 then p.putOffExpired else p

/-- The registers at the scan of the class `c`. -/
def Cpu.scanOf (p : Cpu) (kept : Option (PriorityClass × ℕ)) (c : PriorityClass) : Scan where
  threads := p.threads
  rdi := p.totalThreads c
  r11 := 0xFF
  rbx := match kept with
    | some (mm5, mm4) => if mm5 = c then some mm4 else none
    | none => none
  r9 := p.numReadyThreads c

/-- One round of the loop of `.SSEFindNextTask`: the table after it, and `rbx`. -/
def Cpu.findInClass (p : Cpu) (kept : Option (PriorityClass × ℕ)) (xmm13 : ℕ) (c : PriorityClass) :
    Cpu × Option ℕ :=
  if p.numReadyThreads c ≠ 0 then
    let s := sseHighestPriorityThreadScan p.totalClocks xmm13 (p.threadQueues c) (p.scanOf kept c)
    ({ p with threads := s.threads }, s.rbx)
  else if p.totalClocks < p.readyOnClock c then (p, (p.scanOf kept c).rbx)
  else
    let s := sseFullScan p.totalClocks xmm13 (p.threadQueues c) (p.scanOf kept c)
    ({ p with
      threads := s.threads
      numReadyThreads := Function.update p.numReadyThreads c s.r9 }, s.rbx)

/-- The loop of `.SSEFindNextTask` over the classes still to be searched. -/
def Cpu.findNextTask (p : Cpu) (kept : Option (PriorityClass × ℕ)) (xmm13 : ℕ) :
    List PriorityClass → Cpu × Option (PriorityClass × ℕ)
  | [] => (p, none)
  | c :: classes =>
    match p.findInClass kept xmm13 c with
    | (p, some t) => (p, some (c, t))
    | (p, none) => p.findNextTask kept xmm13 classes

/-- The classes in the order of the search. An eighth round meets the zero words that follow the
arrays of the table and finds nothing. -/
def classes : List PriorityClass := List.finRange 7

inductive Outcome where
  | run (t : ℕ) (p : Cpu)
  | idle (p : Cpu)
  | halted

/-- `.R1`: the clock goes on and the processor enters the thread `t`. -/
def Cpu.enter (p : Cpu) (t : ℕ) : Cpu :=
  { p with totalClocks := (p.totalClocks + 1) % 2 ^ 64, currentThread := t }

/-- `.SSEFindNextTaskEXIT` with the thread `t` in `rbx`. The test of bit 15 of the table's address
ends in an endless loop. -/
def Cpu.switchTo (p : Cpu) (kept : Option (PriorityClass × ℕ)) (t : ℕ) : Outcome :=
  if p.base.testBit 15 then .halted
  else match kept with
    | some (_, mm4) =>
      if mm4 = t then
        .run t ((p.setRemainingClocks t ((p.threads t).remainingClocks - 1)).enter t)
      else
        .run t (((p.setRemainingClocks t (p.threads t).timeBurst).putOffPreempted mm4).enter t)
    | none => .run t ((p.setRemainingClocks t (p.threads t).timeBurst).enter t)

/-- `SchedulerEntrySSE` at the time `xmm13`. -/
def schedulerEntrySSE (xmm13 : ℕ) (p : Cpu) : Outcome :=
  match p.forceNextThread with
  | some t => .run t ({ p.putOffForced with forceNextThread := none }.enter t)
  | none =>
    match p.searched.findNextTask p.kept xmm13 classes with
    | (p', some (_, t)) => p'.switchTo p.kept t
    | (p', none) => .idle (p'.enter p'.systemIdleThread)

def Outcome.selected : Outcome → Option ℕ
  | .run t _ => some t
  | _ => none

def Cpu.keSuspendThread (p : Cpu) (t : ℕ) : Cpu :=
  { p with threads := clearState p.threads t thsAlive }

/-- `IoWait`, before its call of `__Schedule`. -/
def Cpu.ioWait (p : Cpu) : Cpu :=
  p.setThread p.currentThread { p.threads p.currentThread with
    state := (p.threads p.currentThread).state ||| thsIoWait }

end DevOs.Scheduler
