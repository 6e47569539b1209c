import DevOs.Lib.Runs
import Mathlib.Algebra.Order.Ring.Nat
import Mathlib.Logic.Function.Basic
import Mathlib.Tactic.Common

/-!
# The table of processes

`KeCreateProcess` looks for an entry of `Pmgrt.ProcessList` that is not set, takes it with an atomic
test-and-set and fills it field by field. Any number of calls run at once, and one action is one
memory access of one of them. No entry is ever cleared.
-/

namespace DevOs.Processes

open Runs

def maxProcesses : ℕ := 1024
def pnameCharszMax : ℕ := 50
def kernelmodeProcess : ℕ := 0x10
def usermodeProcess : ℕ := 0x20
def subsystemNative : ℕ := 1
def subsystemGui : ℕ := 2
def subsystemConsole : ℕ := 3
def subsystemMax : ℕ := 3

/-- `PROCESS`, with the fields that `SetProcess` writes. -/
structure Process where
  set : Bool
  parentProcess : Option ℕ
  operatingMode : ℕ
  processId : ℕ
  subsystem : ℕ
  freeMemoryRoot : Bool
  processName : List (BitVec 16)
  pageMap : ℕ
  handles : ℕ
  fileHandles : ℕ
  priorityClass : ℕ
deriving DecidableEq

def Process.zero : Process where
  set := false
  parentProcess := none
  operatingMode := 0
  processId := 0
  subsystem := 0
  freeMemoryRoot := false
  processName := []
  pageMap := 0
  handles := 0
  fileHandles := 0
  priorityClass := 0

/-- The parameters of a call, with what `CreatePageMap` and `CreateHandleTable` return to it. -/
structure Request where
  parentProcess : Option ℕ
  processName : Option (List (BitVec 16))
  subsystem : ℕ
  operatingMode : ℕ
  pageMap : ℕ
  handles : ℕ
  fileHandles : ℕ
deriving DecidableEq

/-- `L"Unnamed Process."` -/
def unkownProcessName : List (BitVec 16) :=
  "Unnamed Process.".toList.map fun c => BitVec.ofNat 16 c.toNat

def Request.name (r : Request) : List (BitVec 16) := r.processName.getD unkownProcessName

/-- `(UINT16)wstrlen(ProcessName)` -/
def Request.len (r : Request) : ℕ := r.name.length % 2 ^ 16

/-- The parameters pass the checks of `KeCreateProcess`. -/
def Request.valid (r : Request) : Bool :=
  r.subsystem ≤ subsystemMax &&
    (r.operatingMode = kernelmodeProcess || r.operatingMode = usermodeProcess) &&
    r.len ≠ 0 && r.len ≤ pnameCharszMax

/-- The class that `SetProcess` gives to `SetPriorityClass`, less `PRIORITY_CLASS_MIN`. -/
def subsystemClass (subsystem : ℕ) : ℕ :=
  if subsystem = subsystemConsole then 3
  else if subsystem = subsystemGui then 2
  else if subsystem = subsystemNative then 5
  else 4

/-- The writes of `SetProcess` to the entry `i`, in their order. `PageMap` has no process-context
tag: `ProcessContextIdAllocate` returns at once, for `ProcessContextIdEnabled` is set only behind a
`return`. -/
def setProcess (kprocPageMap : ℕ) (r : Request) (i : ℕ) : List (Process → Process) :=
  [fun p => { p with set := true },
    fun p => { p with parentProcess := r.parentProcess },
    fun p => { p with operatingMode := r.operatingMode },
    fun p => { p with processId := i },
    fun p => { p with subsystem := r.subsystem % 256 },
    fun p => { p with freeMemoryRoot := true },
    fun p => { p with processName := r.name.take r.len },
    fun p => { p with
      pageMap := if p.operatingMode ≠ kernelmodeProcess then r.pageMap else kprocPageMap },
    fun p => { p with handles := r.handles },
    fun p => { p with fileHandles := r.fileHandles },
    fun p => { p with priorityClass := subsystemClass r.subsystem }]

/-- Where a call stands: at `!Process->Set`, at the test-and-set, or before the write `n` of
`SetProcess`. -/
inductive Pc where
  | start
  | test (r : Request) (i : ℕ)
  | claim (r : Request) (i : ℕ)
  | fill (r : Request) (i n : ℕ)
  | returned (r : Request) (process : Option ℕ)
deriving DecidableEq

structure State where
  processList : ℕ → Process
  calls : ℕ → Pc

inductive Action where
  | call (k : ℕ) (r : Request)
  | step (k : ℕ)

namespace State

def setPc (s : State) (k : ℕ) (pc : Pc) : State := { s with calls := Function.update s.calls k pc }

def setEntry (s : State) (i : ℕ) (p : Process) : State :=
  { s with processList := Function.update s.processList i p }

end State

/-- The next step of the call `k`. -/
def stepCall (kprocPageMap : ℕ) (s : State) (k : ℕ) : Option State :=
  match s.calls k with
  | .test r i =>
    some (s.setPc k (if i = maxProcesses then .returned r none
      else if (s.processList i).set then .test r (i + 1) else .claim r i))
  | .claim r i =>
    some (if (s.processList i).set then s.setPc k (.test r (i + 1))
      else (s.setEntry i { s.processList i with set := true }).setPc k (.fill r i 0))
  | .fill r i n =>
    match (setProcess kprocPageMap r i)[n]? with
    | some write => some ((s.setEntry i (write (s.processList i))).setPc k (.fill r i (n + 1)))
    | none => some (s.setPc k (.returned r (some i)))
  | _ => none

/-- `KeCreateProcess`, one step of one call. -/
def step (kprocPageMap : ℕ) (s : State) : Action → Option State
  | .call k r =>
    match s.calls k with
    | .start => some (s.setPc k (if r.valid then .test r 0 else .returned r none))
    | _ => none
  | .step k => stepCall kprocPageMap s k

def initial (kernel : Process) : State where
  processList := Function.update (fun _ => .zero) 0 kernel
  calls := fun _ => .start

/-- `GetProcessById`, with the index of the entry for its address. -/
def getProcessById (s : State) (processId : ℕ) : Option ℕ :=
  if processId ≥ 0x400 ∨ (s.processList processId).set = false then none else some processId

/-- The entry after the first `n` writes. -/
def written (kprocPageMap : ℕ) (r : Request) (i n : ℕ) : Process :=
  ((setProcess kprocPageMap r i).take n).foldl (fun p write => write p)
    { Process.zero with set := true }

/-- The entry as `SetProcess` leaves it. -/
def created (kprocPageMap : ℕ) (r : Request) (i : ℕ) : Process where
  set := true
  parentProcess := r.parentProcess
  operatingMode := r.operatingMode
  processId := i
  subsystem := r.subsystem % 256
  freeMemoryRoot := true
  processName := r.name.take r.len
  pageMap := if r.operatingMode ≠ kernelmodeProcess then r.pageMap else kprocPageMap
  handles := r.handles
  fileHandles := r.fileHandles
  priorityClass := subsystemClass r.subsystem

variable {kprocPageMap i n k : ℕ} {r : Request} {s t : State} {kernel : Process}

theorem written_all : written kprocPageMap r i 11 = created kprocPageMap r i := rfl

theorem set_of_write {write : Process → Process} (h : write ∈ setProcess kprocPageMap r i)
    {p : Process} (hp : p.set = true) : (write p).set = true := by
  simp only [setProcess, List.mem_cons, List.not_mem_nil, or_false] at h
  rcases h with rfl | rfl | rfl | rfl | rfl | rfl | rfl | rfl | rfl | rfl | rfl
  · rfl
  all_goals exact hp

theorem written_succ {write : Process → Process}
    (h : (setProcess kprocPageMap r i)[n]? = some write) :
    written kprocPageMap r i (n + 1) = write (written kprocPageMap r i n) := by
  unfold written
  rw [List.take_add_one, h, Option.toList_some, List.foldl_append]
  rfl

theorem written_set (n : ℕ) : (written kprocPageMap r i n).set = true := by
  induction n with
  | zero => rfl
  | succ n ih =>
    cases h : (setProcess kprocPageMap r i)[n]? with
    | none =>
      have hle := List.getElem?_eq_none_iff.mp h
      unfold written at ih ⊢
      rw [List.take_of_length_le (Nat.le_succ_of_le hle)]
      rw [List.take_of_length_le hle] at ih
      exact ih
    | some write =>
      rw [written_succ h]
      exact set_of_write (List.mem_of_getElem? h) ih

/-- The call has taken the entry `i`. -/
def Holds (i : ℕ) : Pc → Prop
  | .fill _ j _ => j = i
  | .returned _ (some j) => j = i
  | _ => False

def CallOk (kprocPageMap : ℕ) (s : State) : Pc → Prop
  | .start => True
  | .test r i => r.valid = true ∧ i ≤ maxProcesses ∧ ∀ j < i, (s.processList j).set = true
  | .claim r i => r.valid = true ∧ i < maxProcesses ∧ ∀ j < i, (s.processList j).set = true
  | .fill r i n =>
    r.valid = true ∧ i < maxProcesses ∧ n ≤ 11 ∧ s.processList i = written kprocPageMap r i n
  | .returned r (some i) =>
      r.valid = true ∧ i < maxProcesses ∧ s.processList i = created kprocPageMap r i
  | .returned r none => r.valid = true → ∀ j < maxProcesses, (s.processList j).set = true

structure Owned (kprocPageMap : ℕ) (s : State) : Prop where
  free : ∀ i, (s.processList i).set = false → s.processList i = .zero
  call : ∀ k, CallOk kprocPageMap s (s.calls k)
  exclusive : ∀ k k' i, Holds i (s.calls k) → Holds i (s.calls k') → k = k'

theorem CallOk.set {pc : Pc} (h : CallOk kprocPageMap s pc) (hi : Holds i pc) :
    (s.processList i).set = true := by
  cases pc with
  | fill r j n =>
    obtain rfl : j = i := hi
    rw [h.2.2.2]
    exact written_set n
  | returned r p =>
    cases p with
    | none => exact hi.elim
    | some j =>
      obtain rfl : j = i := hi
      rw [h.2.2]
      rfl
  | _ => exact hi.elim

theorem processList_setEntry (s : State) (i j : ℕ) (p : Process) :
    (s.setEntry i p).processList j = if j = i then p else s.processList j := by
  simp only [State.setEntry, Function.update_apply]

theorem set_setEntry {p : Process} (hp : p.set = true) {j : ℕ} (h : (s.processList j).set = true) :
    ((s.setEntry i p).processList j).set = true := by
  rw [processList_setEntry]
  split_ifs
  · exact hp
  · exact h

theorem CallOk.setEntry {pc : Pc} {p : Process} (h : CallOk kprocPageMap s pc) (hp : p.set = true)
    (hi : ¬Holds i pc) : CallOk kprocPageMap (s.setEntry i p) pc := by
  cases pc with
  | start => exact trivial
  | test r j => exact ⟨h.1, h.2.1, fun m hm => set_setEntry hp (h.2.2 m hm)⟩
  | claim r j => exact ⟨h.1, h.2.1, fun m hm => set_setEntry hp (h.2.2 m hm)⟩
  | fill r j n =>
    have hne : j ≠ i := hi
    refine ⟨h.1, h.2.1, h.2.2.1, ?_⟩
    rw [processList_setEntry, if_neg hne]
    exact h.2.2.2
  | returned r q =>
    cases q with
    | none => exact fun hv m hm => set_setEntry hp (h hv m hm)
    | some j =>
      have hne : j ≠ i := hi
      refine ⟨h.1, h.2.1, ?_⟩
      rw [processList_setEntry, if_neg hne]
      exact h.2.2

theorem calls_setPc (s : State) (k m : ℕ) (pc : Pc) :
    (s.setPc k pc).calls m = if m = k then pc else s.calls m := by
  simp only [State.setPc, Function.update_apply]

theorem CallOk.setPc {pc : Pc} (h : CallOk kprocPageMap s pc) (k : ℕ) (pc' : Pc) :
    CallOk kprocPageMap (s.setPc k pc') pc := by
  cases pc with
  | returned r p =>
    cases p with
    | none => exact h
    | some i => exact h
  | _ => exact h

theorem Owned.setPc (h : Owned kprocPageMap s) {pc : Pc} (hok : CallOk kprocPageMap s pc)
    (hi : ∀ i, Holds i pc → Holds i (s.calls k)) : Owned kprocPageMap (s.setPc k pc) where
  free := h.free
  call := by
    intro m
    rw [calls_setPc]
    split_ifs
    · exact hok.setPc k pc
    · exact (h.call m).setPc k pc
  exclusive := by
    intro m m' i hm hm'
    rw [calls_setPc] at hm hm'
    split_ifs at hm hm' with hk hk' hk'
    · rw [hk, hk']
    · rw [hk]
      exact h.exclusive k m' i (hi i hm) hm'
    · rw [hk']
      exact h.exclusive m k i hm (hi i hm')
    · exact h.exclusive m m' i hm hm'

/-- A step of the call `k` that writes the entry `i`, which no other call has taken. -/
theorem Owned.setEntry (h : Owned kprocPageMap s) {p : Process} {pc : Pc} (hp : p.set = true)
    (hother : ∀ m, m ≠ k → ¬Holds i (s.calls m)) (hok : CallOk kprocPageMap (s.setEntry i p) pc)
    (hi : ∀ j, Holds j pc → j = i) : Owned kprocPageMap ((s.setEntry i p).setPc k pc) where
  free := by
    intro j hj
    have hentry : ((s.setEntry i p).setPc k pc).processList j = (s.setEntry i p).processList j :=
      rfl
    rw [hentry, processList_setEntry] at hj ⊢
    split_ifs at hj ⊢
    · rw [hp] at hj
      exact Bool.noConfusion hj
    · exact h.free j hj
  call := by
    intro m
    rw [calls_setPc]
    split_ifs with hm
    · exact hok.setPc k pc
    · exact ((h.call m).setEntry hp (hother m hm)).setPc k pc
  exclusive := by
    intro m m' j hm hm'
    rw [calls_setPc] at hm hm'
    split_ifs at hm hm' with hk hk' hk'
    · rw [hk, hk']
    · rw [hi j hm] at hm'
      exact (hother m' hk' hm').elim
    · rw [hi j hm'] at hm
      exact (hother m hk hm).elim
    · exact h.exclusive m m' j hm hm'

theorem length_setProcess (kprocPageMap : ℕ) (r : Request) (i : ℕ) :
    (setProcess kprocPageMap r i).length = 11 := rfl

theorem owned_initial (hk : kernel.set = true) : Owned kprocPageMap (initial kernel) where
  free := by
    intro i hi
    by_cases h0 : i = 0
    · subst h0
      have hset : ((initial kernel).processList 0).set = true := hk
      rw [hset] at hi
      exact Bool.noConfusion hi
    · change Function.update (fun _ => Process.zero) 0 kernel i = Process.zero
      exact Function.update_of_ne h0 kernel fun _ => Process.zero
  call := fun k => trivial
  exclusive := fun k k' i hk => hk.elim

theorem Owned.stepCall (h : Owned kprocPageMap s) (hs : stepCall kprocPageMap s k = some t) :
    Owned kprocPageMap t := by
  have hcall := h.call k
  unfold Processes.stepCall at hs
  cases hpc : s.calls k with
  | start => rw [hpc] at hs; cases hs
  | returned r p => rw [hpc] at hs; cases hs
  | test r i =>
    rw [hpc] at hs hcall
    obtain rfl := Option.some.inj hs
    obtain ⟨hv, hi, hbefore⟩ := hcall
    split_ifs with hend hset
    · refine h.setPc (fun _ j hj => ?_) fun i hi => hi.elim
      exact hbefore j (by omega)
    · refine h.setPc ⟨hv, by omega, fun j hj => ?_⟩ fun i hi => hi.elim
      rcases Nat.lt_or_eq_of_le (Nat.le_of_lt_succ hj) with hlt | rfl
      · exact hbefore j hlt
      · exact hset
    · exact h.setPc ⟨hv, by omega, hbefore⟩ fun i hi => hi.elim
  | claim r i =>
    rw [hpc] at hs hcall
    obtain rfl := Option.some.inj hs
    obtain ⟨hv, hi, hbefore⟩ := hcall
    split_ifs with hset
    · refine h.setPc ⟨hv, hi, fun j hj => ?_⟩ fun i hi => hi.elim
      rcases Nat.lt_or_eq_of_le (Nat.le_of_lt_succ hj) with hlt | rfl
      · exact hbefore j hlt
      · exact hset
    · have hfree : (s.processList i).set = false := Bool.eq_false_of_not_eq_true hset
      have hzero := h.free i hfree
      have hother : ∀ m, m ≠ k → ¬Holds i (s.calls m) := by
        intro m _ hm
        have hset' := (h.call m).set hm
        rw [hfree] at hset'
        exact Bool.noConfusion hset'
      refine h.setEntry rfl hother ⟨hv, hi, Nat.zero_le _, ?_⟩ fun j hj => (show i = j from hj).symm
      rw [processList_setEntry, if_pos rfl, hzero]
      rfl
  | fill r i n =>
    rw [hpc] at hs hcall
    obtain ⟨hv, hi, hn, hentry⟩ := hcall
    have hholds : Holds i (s.calls k) := by
      rw [hpc]
      exact rfl
    cases hw : (setProcess kprocPageMap r i)[n]? with
    | some write =>
      simp only [hw] at hs
      obtain rfl := Option.some.inj hs
      have hlt := (List.getElem?_eq_some_iff.mp hw).1
      rw [length_setProcess] at hlt
      have hset : (write (s.processList i)).set = true := by
        rw [hentry]
        exact set_of_write (List.mem_of_getElem? hw) (written_set n)
      refine h.setEntry hset (fun m hm hm' => hm (h.exclusive m k i hm' hholds)) ⟨hv, hi, hlt, ?_⟩
        fun j hj => (show i = j from hj).symm
      rw [processList_setEntry, if_pos rfl, hentry, written_succ hw]
    | none =>
      simp only [hw] at hs
      obtain rfl := Option.some.inj hs
      have hle := List.getElem?_eq_none_iff.mp hw
      rw [length_setProcess] at hle
      obtain rfl : n = 11 := Nat.le_antisymm hn hle
      rw [written_all] at hentry
      refine h.setPc ⟨hv, hi, hentry⟩ fun j hj => ?_
      obtain rfl : i = j := hj
      exact hholds

theorem Owned.step (h : Owned kprocPageMap s) {a : Action} (hs : step kprocPageMap s a = some t) :
    Owned kprocPageMap t := by
  cases a with
  | step k => exact h.stepCall hs
  | call k r =>
    unfold Processes.step at hs
    cases hpc : s.calls k with
    | start =>
      simp only [hpc] at hs
      obtain rfl := Option.some.inj hs
      split_ifs with hv
      · exact h.setPc ⟨hv, Nat.zero_le _, fun j hj => absurd hj (Nat.not_lt_zero j)⟩ fun i hi =>
          hi.elim
      · exact h.setPc (fun hv' => absurd hv' hv) fun i hi => hi.elim
    | _ =>
      simp only [hpc] at hs
      cases hs

theorem owned_reaches (hk : kernel.set = true)
    (h : Reaches (step kprocPageMap) anyStep (initial kernel) s) :
    Owned kprocPageMap s :=
  h.invariant (fun _ _ _ hi _ hs => hi.step hs) (owned_initial hk)

/-- Whatever calls run at once, two calls never get the same entry, a call that got an entry finds
its own parameters and the number of the entry there and `GetProcessById` finds it under this
number, and a call with valid parameters gets none only when every entry is in use. -/
theorem processes_exclusive (kernel : Process) (hk : kernel.set = true)
    (h : Reaches (step kprocPageMap) anyStep (initial kernel) s) :
    (∀ k k' r r' i, s.calls k = .returned r (some i) → s.calls k' = .returned r' (some i) →
      k = k') ∧
    (∀ k r i, s.calls k = .returned r (some i) → i < maxProcesses ∧
      s.processList i = created kprocPageMap r i ∧
      getProcessById s (s.processList i).processId = some i) ∧
    (∀ k r, s.calls k = .returned r none → r.valid = true →
      ∀ i < maxProcesses, (s.processList i).set = true) := by
  have howned := owned_reaches hk h
  refine ⟨?_, ?_, ?_⟩
  · intro k k' r r' i hki hki'
    apply howned.exclusive k k' i
    · rw [hki]
      exact rfl
    · rw [hki']
      exact rfl
  · intro k r i hki
    have hcall := howned.call k
    rw [hki] at hcall
    obtain ⟨-, hlt, hentry⟩ := hcall
    refine ⟨hlt, hentry, ?_⟩
    have hlt' : ¬(i ≥ 0x400 ∨ (s.processList i).set = false) := by
      rintro (hge | hfree)
      · exact absurd hlt (Nat.not_lt.mpr hge)
      · rw [hentry] at hfree
        exact Bool.noConfusion hfree
    have hid : (s.processList i).processId = i := by rw [hentry]; rfl
    rw [hid, getProcessById, if_neg hlt']
  · intro k r hkn hv
    have hcall := howned.call k
    rw [hkn] at hcall
    exact hcall hv

def kernelProcess : Process := { Process.zero with set := true, operatingMode := kernelmodeProcess }

def consoleRequest : Request where
  parentProcess := some 0
  processName := none
  subsystem := subsystemConsole
  operatingMode := usermodeProcess
  pageMap := 0x1000
  handles := 2
  fileHandles := 3

/-- The calls 7 and 8 come to the entry 1 at the same time, and the call 8 takes it. -/
def twoCalls : List Action :=
  [.call 7 consoleRequest, .call 8 consoleRequest, .step 7, .step 8, .step 7, .step 8, .step 8,
    .step 7, .step 7, .step 7] ++
    List.replicate 12 (.step 7) ++ List.replicate 12 (.step 8)

theorem processes_exclusive_two : ∃ s, Reaches (step 0x500) anyStep (initial kernelProcess) s ∧
    s.calls 7 = .returned consoleRequest (some 2) ∧ s.calls 8 = .returned consoleRequest (some 1) ∧
    getProcessById s (s.processList 2).processId = some 2 := by
  have hrun : ∃ s, guardedRun (step 0x500) anyStep (initial kernelProcess) twoCalls = some s := by
    rw [← Option.isSome_iff_exists]
    decide
  obtain ⟨s, hs⟩ := hrun
  have h7 : s.calls 7 = .returned consoleRequest (some 2) :=
    eq_of_map (fun s : State => s.calls 7) hs (by decide)
  have h8 : s.calls 8 = .returned consoleRequest (some 1) :=
    eq_of_map (fun s : State => s.calls 8) hs (by decide)
  have hr := reaches_of_guardedRun _ hs
  exact ⟨s, hr, h7, h8, ((processes_exclusive kernelProcess rfl hr).2.1 7 consoleRequest 2 h7).2.2⟩

end DevOs.Processes
