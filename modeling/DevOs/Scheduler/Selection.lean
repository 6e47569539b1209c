import DevOs.Scheduler.Scan
import Mathlib.Data.Prod.Lex

/-!
# Which thread is selected

The search goes through the priority classes until one of them yields a thread. The threads that the
scans meet and let through are the candidates, in the order of the search. The first of smallest
class and priority number is found, or the current thread, which is kept without any test while it
has clocks left and no candidate stands in its way.
-/

namespace DevOs.Scheduler

open Choice

namespace Cpu

/-- The threads that are met when the class `c` is searched. -/
def met (p : Cpu) (kept : Option (PriorityClass × ℕ)) (xmm13 : ℕ) (c : PriorityClass) : List ℕ :=
  if p.numReadyThreads c ≠ 0 then
    looked false p.totalClocks xmm13 (p.threadQueues c).queued (p.scanOf kept c)
  else if p.totalClocks < p.readyOnClock c then []
  else looked true p.totalClocks xmm13 (p.threadQueues c).queued (p.scanOf kept c)

/-- The threads met in the class `c` that the scan lets through with a number below 0xFF. -/
def eligible (p : Cpu) (kept : Option (PriorityClass × ℕ)) (xmm13 : ℕ) (c : PriorityClass) :
    List ℕ :=
  (p.met kept xmm13 c).filter
    (below (admitted p.totalClocks xmm13 p.threads) (priorities p.threads) 0xFF)

/-- The candidates of the listed classes. Each scan works on the flags that the scans before it have
left, and the search does not go behind the class of the kept thread. -/
def candidatesIn (p : Cpu) (kept : Option (PriorityClass × ℕ)) (xmm13 : ℕ) :
    List PriorityClass → List (PriorityClass × ℕ)
  | [] => []
  | c :: cs => (p.eligible kept xmm13 c).map (Prod.mk c) ++
      if kept.map Prod.fst = some c then []
      else (p.findInClass kept xmm13 c).1.candidatesIn kept xmm13 cs

def rank (p : Cpu) (x : PriorityClass × ℕ) : PriorityClass ×ₗ ℕ :=
  toLex (x.1, (p.threads x.2).threadPriority)

/-- The tables differ in flags that a scan clears, and in the counters of ready threads. -/
structure Agrees (p q : Cpu) (xmm13 : ℕ) : Prop where
  base : q.base = p.base
  processes : q.processes = p.processes
  totalThreads : q.totalThreads = p.totalThreads
  threadQueues : q.threadQueues = p.threadQueues
  currentThread : q.currentThread = p.currentThread
  totalClocks : q.totalClocks = p.totalClocks
  readyOnClock : q.readyOnClock = p.readyOnClock
  systemIdleThread : q.systemIdleThread = p.systemIdleThread
  forceNextThread : q.forceNextThread = p.forceNextThread
  fields : ∀ t, q.threads t = { p.threads t with state := (q.threads t).state }
  admits : ∀ t, admits p.totalClocks xmm13 (q.threads t) = admits p.totalClocks xmm13 (p.threads t)

variable {p q r : Cpu} {kept : Option (PriorityClass × ℕ)} {xmm13 t : ℕ} {c : PriorityClass}

theorem Agrees.refl (p : Cpu) (xmm13 : ℕ) : Agrees p p xmm13 :=
  ⟨rfl, rfl, rfl, rfl, rfl, rfl, rfl, rfl, rfl, fun _ => rfl, fun _ => rfl⟩

theorem Agrees.trans (h : Agrees p q xmm13) (h' : Agrees q r xmm13) : Agrees p r xmm13 := by
  refine ⟨h'.base.trans h.base, h'.processes.trans h.processes,
    h'.totalThreads.trans h.totalThreads, h'.threadQueues.trans h.threadQueues,
    h'.currentThread.trans h.currentThread,
    h'.totalClocks.trans h.totalClocks, h'.readyOnClock.trans h.readyOnClock,
    h'.systemIdleThread.trans h.systemIdleThread,
      h'.forceNextThread.trans h.forceNextThread, ?_, ?_⟩
  · intro t
    rw [h'.fields, h.fields]
  · intro t
    have ha := h'.admits t
    rw [h.totalClocks] at ha
    rw [ha, h.admits]

theorem Agrees.priorities (h : Agrees p q xmm13) : priorities q.threads = priorities p.threads := by
  funext t
  rw [Scheduler.priorities, h.fields, Scheduler.priorities]

theorem scanOf_rbx : (p.scanOf kept c).rbx = some t ↔ kept = some (c, t) := by
  cases kept with
  | none => simp [scanOf]
  | some k =>
    obtain ⟨d, u⟩ := k
    simp only [scanOf]
    split_ifs with h
    · simp [h]
    · simp [h]

theorem findInClass_snd (p : Cpu) (kept : Option (PriorityClass × ℕ)) (xmm13 : ℕ)
    (c : PriorityClass) : (p.findInClass kept xmm13 c).2 =
    ((p.eligible kept xmm13 c).argmin (priorities p.threads)).or (p.scanOf kept c).rbx := by
  simp only [findInClass, eligible, met]
  split_ifs with hn hr
  · simp only [(sseHighestPriorityThreadScan_meets (p.threadQueues c)).2, meetAll_rbx]
    rfl
  · rfl
  · simp only [(sseFullScan_meets (p.threadQueues c)).2.1, meetAll_rbx]
    rfl

theorem findInClass_agrees (p : Cpu) (kept : Option (PriorityClass × ℕ)) (xmm13 : ℕ)
    (c : PriorityClass) : Agrees p (p.findInClass kept xmm13 c).1 xmm13 := by
  simp only [findInClass]
  split_ifs with hn hr
  · refine ⟨rfl, rfl, rfl, rfl, rfl, rfl, rfl, rfl, rfl, fun t => ?_, fun t => ?_⟩
    · simp only [(sseHighestPriorityThreadScan_meets (p.threadQueues c)).1]
      exact meetAll_fields _ t
    · simp only [(sseHighestPriorityThreadScan_meets (p.threadQueues c)).1]
      exact meetAll_admits _ t
  · exact Agrees.refl p xmm13
  · refine ⟨rfl, rfl, rfl, rfl, rfl, rfl, rfl, rfl, rfl, fun t => ?_, fun t => ?_⟩
    · simp only [(sseFullScan_meets (p.threadQueues c)).1]
      exact meetAll_fields _ t
    · simp only [(sseFullScan_meets (p.threadQueues c)).1]
      exact meetAll_admits _ t

theorem Agrees.rank (h : Agrees p q xmm13) : q.rank = p.rank := by
  funext x
  rw [Cpu.rank, h.fields]
  rfl

theorem met_prefix (p : Cpu) (kept : Option (PriorityClass × ℕ)) (xmm13 : ℕ) (c : PriorityClass) :
    p.met kept xmm13 c <+: (p.threadQueues c).queued := by
  rw [met]
  split_ifs
  · exact looked_initial _
  · exact List.nil_prefix
  · exact looked_initial _

/-- What is known of a thread that the search lets through. -/
structure Candidate (p : Cpu) (xmm13 : ℕ) (x : PriorityClass × ℕ) : Prop where
  queued : x.2 ∈ (p.threadQueues x.1).queued
  admits : admits p.totalClocks xmm13 (p.threads x.2) = true

theorem Agrees.candidate {x : PriorityClass × ℕ} (h : Agrees p q xmm13) (hx : Candidate q xmm13 x) :
    Candidate p xmm13 x := by
  obtain ⟨hqueued, hadmits⟩ := hx
  rw [h.threadQueues] at hqueued
  rw [h.totalClocks, h.admits] at hadmits
  exact ⟨hqueued, hadmits⟩

theorem candidate_of_eligible (ht : t ∈ p.eligible kept xmm13 c) : Candidate p xmm13 (c, t) := by
  obtain ⟨hmet, hbelow⟩ := List.mem_filter.mp ht
  exact ⟨(p.met_prefix kept xmm13 c).subset hmet, (below_eq_true.mp hbelow).1⟩

theorem mem_candidatesIn {x : PriorityClass × ℕ} (cs : List PriorityClass)
    (hx : x ∈ p.candidatesIn kept xmm13 cs) : x.1 ∈ cs ∧ Candidate p xmm13 x := by
  induction cs generalizing p with
  | nil => cases hx
  | cons c cs ih =>
    rw [candidatesIn, List.mem_append] at hx
    rcases hx with hx | hx
    · obtain ⟨t, ht, rfl⟩ := List.mem_map.mp hx
      exact ⟨List.mem_cons_self, candidate_of_eligible ht⟩
    · split_ifs at hx with hk
      · cases hx
      · obtain ⟨hmem, hcand⟩ := ih hx
        exact ⟨List.mem_cons_of_mem c hmem, (findInClass_agrees p kept xmm13 c).candidate hcand⟩

theorem candidatesIn_le {x k : PriorityClass × ℕ} (cs : List PriorityClass)
    (hcs : cs.Pairwise (· < ·)) (hk : k.1 ∈ cs) (hx : x ∈ p.candidatesIn (some k) xmm13 cs) :
    x.1 ≤ k.1 := by
  induction cs generalizing p with
  | nil => cases hk
  | cons c cs ih =>
    obtain ⟨hc, hcs'⟩ := List.pairwise_cons.mp hcs
    rw [candidatesIn, List.mem_append] at hx
    rcases hx with hx | hx
    · obtain ⟨t, -, rfl⟩ := List.mem_map.mp hx
      rcases List.mem_cons.mp hk with rfl | hk
      · exact le_rfl
      · exact (hc k.1 hk).le
    · split_ifs at hx with hkc
      · cases hx
      · rw [Option.map_some, Option.some.injEq] at hkc
        exact ih hcs' ((List.mem_cons.mp hk).resolve_left hkc) hx

theorem argmin_eligible (p : Cpu) (kept : Option (PriorityClass × ℕ)) (xmm13 : ℕ)
    (c : PriorityClass) :
    ((p.eligible kept xmm13 c).map (Prod.mk c)).argmin p.rank =
      ((p.eligible kept xmm13 c).argmin (priorities p.threads)).map (Prod.mk c) := by
  refine argmin_map fun t u => ?_
  rw [Cpu.rank, Cpu.rank, Prod.Lex.toLex_lt_toLex]
  exact ⟨fun h => h.elim (fun h => absurd h (lt_irrefl c)) And.right, fun h => Or.inr ⟨rfl, h⟩⟩

/-- The search finds the first candidate of smallest class and number, or else the kept thread when
it comes to its class. -/
theorem findNextTask_snd (cs : List PriorityClass) (hcs : cs.Pairwise (· < ·)) :
    (p.findNextTask kept xmm13 cs).2 =
      ((p.candidatesIn kept xmm13 cs).argmin p.rank).or (kept.filter (·.1 ∈ cs)) := by
  induction cs generalizing p with
  | nil => cases kept <;> rfl
  | cons c cs ih =>
    obtain ⟨hc, hcs'⟩ := List.pairwise_cons.mp hcs
    have hsnd := findInClass_snd p kept xmm13 c
    have hagrees := findInClass_agrees p kept xmm13 c
    have hhere := argmin_eligible p kept xmm13 c
    rw [findNextTask, candidatesIn]
    cases hfirst : (p.eligible kept xmm13 c).argmin (priorities p.threads) with
    | some t =>
      rw [hfirst] at hsnd hhere
      have hlater : ∀ y ∈ (if kept.map Prod.fst = some c then []
          else (p.findInClass kept xmm13 c).1.candidatesIn kept xmm13 cs),
          p.rank (c, t) < p.rank y := by
        intro y hy
        split_ifs at hy
        · cases hy
        · rw [Cpu.rank, Cpu.rank, Prod.Lex.toLex_lt_toLex]
          exact Or.inl (hc y.1 (mem_candidatesIn cs hy).1)
      rw [argmin_append_of_lt hhere hlater]
      have hpair : p.findInClass kept xmm13 c = ((p.findInClass kept xmm13 c).1, some t) :=
        Prod.ext rfl hsnd
      rw [hpair]
      rfl
    | none =>
      rw [hfirst, Option.none_or] at hsnd
      rw [List.argmin_eq_none.mp hfirst, List.map_nil, List.nil_append]
      by_cases hkept : kept.map Prod.fst = some c
      · obtain ⟨⟨d, t⟩, rfl, rfl⟩ := Option.map_eq_some_iff.mp hkept
        have hpair : p.findInClass (some (d, t)) xmm13 d =
            ((p.findInClass (some (d, t)) xmm13 d).1, some t) :=
          Prod.ext rfl (hsnd.trans (scanOf_rbx.mpr rfl))
        rw [hpair, if_pos hkept, Option.filter_some, if_pos (decide_eq_true List.mem_cons_self)]
        rfl
      · have hnone : (p.scanOf kept c).rbx = none := by
          rw [Option.eq_none_iff_forall_ne_some]
          intro t ht
          rw [scanOf_rbx.mp ht] at hkept
          exact hkept rfl
        have hpair : p.findInClass kept xmm13 c = ((p.findInClass kept xmm13 c).1, none) :=
          Prod.ext rfl (hsnd.trans hnone)
        rw [if_neg hkept, hpair]
        simp only
        rw [ih hcs', hagrees.rank]
        cases kept with
        | none => rfl
        | some k =>
          rw [Option.map_some, Option.some.injEq] at hkept
          simp only [Option.filter_some, List.mem_cons, hkept, false_or]

theorem findNextTask_agrees (cs : List PriorityClass) :
    Agrees p (p.findNextTask kept xmm13 cs).1 xmm13 := by
  induction cs generalizing p with
  | nil => exact Agrees.refl p xmm13
  | cons d cs ih =>
    rw [findNextTask]
    split
    · rename_i p' u hp
      have h := findInClass_agrees p kept xmm13 d
      rw [hp] at h
      exact h
    · rename_i p' hp
      have h := findInClass_agrees p kept xmm13 d
      rw [hp] at h
      exact h.trans ih

end Cpu

open Cpu

/-- What a thread must satisfy to be run. `kept` exempts the current thread with clocks left from
being ready. -/
def mayRun (xmm4 xmm13 : ℕ) (kept : Bool) (th : Thread) : Bool :=
  th.has thsRunnable && th.has thsAlive && !th.has thsManual && !th.has thsIdle &&
    (kept || decide (th.readyAt ≤ xmm4)) &&
    (!th.has thsSleep || decide (th.sleepUntil ≤ xmm13)) && (!th.has thsIoWait || th.has thsIoPin)

theorem has_or (th : Thread) (a b : BitVec 64) : th.has (a ||| b) = (th.has a || th.has b) := by
  have h : th.state &&& (a ||| b) = 0 ↔ th.state &&& a = 0 ∧ th.state &&& b = 0 := by
    rw [BitVec.and_or_distrib_left]
    exact BitVec.or_eq_zero_iff
  rw [Bool.eq_iff_iff]
  simp only [Thread.has, bne_iff_ne, ne_eq, Bool.or_eq_true, h, not_and_or]

/-- The mask of a scan lets a thread through that has only one of the two flags. -/
theorem mayRun_of_admits {xmm4 xmm13 : ℕ} {th : Thread} (h : admits xmm4 xmm13 th = true)
    (kept : Bool) : mayRun xmm4 xmm13 kept th = (th.has thsRunnable && th.has thsAlive) := by
  simp only [admits, Bool.and_eq_true, has_or, Bool.not_eq_true', Bool.or_eq_false_iff,
    decide_eq_true_eq] at h
  obtain ⟨⟨⟨⟨hr, _⟩, hm, hi⟩, hs⟩, hio⟩ := h
  simp only [mayRun, hm, hi, hr, hs, hio, decide_true, Bool.or_true, Bool.not_false, Bool.and_true]

theorem admits_of_mayRun {xmm4 xmm13 : ℕ} {th : Thread} (h : mayRun xmm4 xmm13 false th = true) :
    admits xmm4 xmm13 th = true := by
  simp only [mayRun, Bool.and_eq_true, Bool.not_eq_true', Bool.false_or] at h
  obtain ⟨⟨⟨⟨⟨⟨hrun, _⟩, hm⟩, hi⟩, hr⟩, hs⟩, hio⟩ := h
  simp only [admits, has_or, hrun, hm, hi, hr, hs, hio]
  rfl

variable {p q : Cpu} {kept : Option (PriorityClass × ℕ)} {xmm13 t : ℕ} {c : PriorityClass}

theorem searched_totalClocks (p : Cpu) : p.searched.totalClocks = p.totalClocks := by
  rw [searched]
  split_ifs <;> rfl

theorem searched_base (p : Cpu) : p.searched.base = p.base := by
  rw [searched]
  split_ifs <;> rfl

theorem kept_eq_some : p.kept = some (c, t) ↔
    (p.threads p.currentThread).remainingClocks ≠ 0 ∧ c = p.classOf p.currentThread ∧
      t = p.currentThread := by
  rw [Cpu.kept]
  split_ifs with h
  · simp [h]
  · simp [h, eq_comm]

theorem searched_of_kept (h : p.kept = some (c, t)) : p.searched = p := by
  rw [searched, if_neg (kept_eq_some.mp h).1]

theorem switchTo_run {p' : Cpu} {u : ℕ} : p.switchTo kept t = .run u p' →
    u = t ∧ p.base.testBit 15 = false := by
  intro h
  unfold switchTo at h
  split_ifs at h with hb
  refine ⟨?_, Bool.eq_false_iff.mpr hb⟩
  split at h
  · split_ifs at h <;> exact (Outcome.run.inj h).1.symm
  · exact (Outcome.run.inj h).1.symm

/-- A thread is entered when the search finds it and the table is not at an odd place. -/
theorem schedulerEntrySSE_run (xmm13 : ℕ) (hforce : p.forceNextThread = none) (t : ℕ) :
    (∃ p', schedulerEntrySSE xmm13 p = .run t p') ↔ p.base.testBit 15 = false ∧
      ∃ c, (p.searched.findNextTask p.kept xmm13 classes).2 = some (c, t) := by
  have hbase : (p.searched.findNextTask p.kept xmm13 classes).1.base = p.base :=
    (findNextTask_agrees classes).base.trans (searched_base p)
  rw [schedulerEntrySSE, hforce]
  cases hfound : p.searched.findNextTask p.kept xmm13 classes with
  | mk p' found =>
    rw [hfound] at hbase
    simp only at hbase ⊢
    cases found with
    | none =>
      constructor
      · rintro ⟨q, hq⟩
        cases hq
      · rintro ⟨_, c, hc⟩
        cases hc
    | some ct =>
      obtain ⟨c, u⟩ := ct
      constructor
      · rintro ⟨q, hq⟩
        obtain ⟨rfl, hb⟩ := switchTo_run hq
        rw [hbase] at hb
        exact ⟨hb, c, rfl⟩
      · rintro ⟨hb, d, hd⟩
        obtain ⟨rfl, rfl⟩ := Prod.mk.inj (Option.some.inj hd)
        rw [← hbase] at hb
        simp only [switchTo, hb, Bool.false_eq_true, if_false]
        split
        · split_ifs <;> exact ⟨_, rfl⟩
        · exact ⟨_, rfl⟩

theorem searched_threads (p : Cpu) (t : ℕ) :
    p.searched.threads t = { p.threads t with readyAt := (p.searched.threads t).readyAt } := by
  rw [searched]
  split_ifs
  · by_cases ht : t = p.currentThread
    · subst ht
      simp [putOffExpired, putOff, setThread]
    · simp [putOffExpired, putOff, setThread, ht]
  · rfl

theorem searched_threadQueues (p : Cpu) : p.searched.threadQueues = p.threadQueues := by
  rw [searched]
  split_ifs <;> rfl

theorem searched_has (p : Cpu) (t : ℕ) (mask : BitVec 64) :
    (p.searched.threads t).has mask = (p.threads t).has mask := by
  rw [searched_threads]
  rfl

theorem searched_rank (p : Cpu) : p.searched.rank = p.rank := by
  funext x
  rw [Cpu.rank, searched_threads]
  rfl

/-- The threads that the search meets and lets through, as long as no class yields one. -/
def Cpu.candidates (p : Cpu) (xmm13 : ℕ) : List (PriorityClass × ℕ) :=
  p.searched.candidatesIn p.kept xmm13 classes

theorem candidates_queued {x : PriorityClass × ℕ} (hx : x ∈ p.candidates xmm13) :
    x.2 ∈ (p.threadQueues x.1).queued := by
  have h := (mem_candidatesIn classes hx).2.queued
  rwa [searched_threadQueues] at h

theorem candidates_admits {x : PriorityClass × ℕ} (hx : x ∈ p.candidates xmm13) :
    admits p.totalClocks xmm13 (p.searched.threads x.2) = true := by
  have h := (mem_candidatesIn classes hx).2.admits
  rwa [searched_totalClocks] at h

theorem classes_pairwise : classes.Pairwise (· < ·) := by decide

theorem search_eq (p : Cpu) (xmm13 : ℕ) : (p.searched.findNextTask p.kept xmm13 classes).2 =
    ((p.candidates xmm13).argmin p.rank).or p.kept := by
  have hall : p.kept.filter (·.1 ∈ classes) = p.kept := by
    cases p.kept with
    | none => rfl
    | some k => simp [classes]
  rw [findNextTask_snd classes classes_pairwise, searched_rank, hall]
  rfl

/-- A thread is entered as the first candidate, or as the current thread that no candidate stands in
the way of. -/
theorem run_iff (xmm13 : ℕ) (hforce : p.forceNextThread = none) (t : ℕ) :
    (∃ p', schedulerEntrySSE xmm13 p = .run t p') ↔ p.base.testBit 15 = false ∧
      ((∃ c, (p.candidates xmm13).argmin p.rank = some (c, t)) ∨
        p.candidates xmm13 = [] ∧ ∃ c, p.kept = some (c, t)) := by
  rw [schedulerEntrySSE_run xmm13 hforce, search_eq]
  refine and_congr_right fun _ => ?_
  simp only [Option.or_eq_some_iff, List.argmin_eq_none, exists_or, exists_and_left]

def Thread.halfSet (th : Thread) : Bool := th.has thsRunnable != th.has thsAlive

/-- Every queued thread that the mask lets through has both flags, and a current thread with clocks
left may run. -/
structure Cpu.Whole (p : Cpu) (xmm13 : ℕ) : Prop where
  queued : ∀ c, ∀ t ∈ (p.threadQueues c).queued, t ≠ p.systemIdleThread →
    (p.threads t).halfSet = false
  current : (p.threads p.currentThread).remainingClocks ≠ 0 → p.currentThread ≠ p.systemIdleThread →
    mayRun p.totalClocks xmm13 true (p.threads p.currentThread) = true

/-- Every candidate with one flag stands behind one with both or behind the idle thread, and a
current thread with clocks left may run or gives way to a candidate. -/
structure Cpu.Outranked (p : Cpu) (xmm13 : ℕ) : Prop where
  halfSet : ∀ x ∈ p.candidates xmm13, x.2 ≠ p.systemIdleThread → (p.threads x.2).halfSet = true →
    ∃ y ∈ p.candidates xmm13, (y.2 = p.systemIdleThread ∨ (p.threads y.2).halfSet = false) ∧
      Outranks p.rank (p.candidates xmm13) y x
  current : (p.threads p.currentThread).remainingClocks ≠ 0 → p.currentThread ≠ p.systemIdleThread →
    mayRun p.totalClocks xmm13 true (p.threads p.currentThread) = true ∨ p.candidates xmm13 ≠ []

theorem Cpu.Whole.outranked (h : p.Whole xmm13) : p.Outranked xmm13 := by
  refine ⟨fun x hx hidle hhalf => ?_, fun hclocks hidle => Or.inl (h.current hclocks hidle)⟩
  rw [h.queued x.1 x.2 (candidates_queued hx) hidle] at hhalf
  cases hhalf

theorem mayRun_candidate {x : PriorityClass × ℕ} (hx : x ∈ p.candidates xmm13) (kept : Bool) :
    mayRun p.totalClocks xmm13 kept (p.searched.threads x.2) = !(p.threads x.2).halfSet := by
  have hadm := candidates_admits hx
  have hmask := admits_has_mask hadm
  rw [mayRun_of_admits hadm, Thread.halfSet, searched_has, searched_has]
  rw [has_or, searched_has, searched_has] at hmask
  cases hrun : (p.threads x.2).has thsRunnable <;> cases halive : (p.threads x.2).has thsAlive <;>
    simp_all

def Cpu.SelectsRunnable (p : Cpu) (xmm13 : ℕ) : Prop :=
  ∀ t p', schedulerEntrySSE xmm13 p = .run t p' → t ≠ p.systemIdleThread →
    mayRun p.totalClocks xmm13 (decide (p.kept.map Prod.snd = some t)) (p.searched.threads t) = true

theorem selectsRunnable_iff (hforce : p.forceNextThread = none) (hb : p.base.testBit 15 = false) :
    p.SelectsRunnable xmm13 ↔ p.Outranked xmm13 := by
  have hfirst := forall_argmin_iff (l := p.candidates xmm13) (g := p.rank)
    (G := fun x => x.2 = p.systemIdleThread ∨ (p.threads x.2).halfSet = false)
  constructor
  · intro h
    refine ⟨fun x hx hidle hhalf => hfirst.mp (fun y hy => ?_) x hx ?_, fun hclocks hidle => ?_⟩
    · by_cases hyidle : y.2 = p.systemIdleThread
      · exact Or.inl hyidle
      · obtain ⟨p', hrun⟩ := (run_iff xmm13 hforce y.2).mpr ⟨hb, Or.inl ⟨y.1, hy⟩⟩
        have hmay := h y.2 p' hrun hyidle
        rw [mayRun_candidate (List.argmin_mem hy), Bool.not_eq_true'] at hmay
        exact Or.inr hmay
    · rw [hhalf]
      exact fun hg => hg.elim hidle Bool.noConfusion
    · by_cases hnil : p.candidates xmm13 = []
      · have hk : p.kept = some (p.classOf p.currentThread, p.currentThread) :=
          kept_eq_some.mpr ⟨hclocks, rfl, rfl⟩
        obtain ⟨p', hrun⟩ := (run_iff xmm13 hforce p.currentThread).mpr ⟨hb, Or.inr ⟨hnil, _, hk⟩⟩
        have hmay := h p.currentThread p' hrun hidle
        rw [hk, Option.map_some, searched_of_kept hk, decide_eq_true rfl] at hmay
        exact Or.inl hmay
      · exact Or.inr hnil
  · intro h t p' hrun hidle
    obtain ⟨-, ⟨c, hc⟩ | ⟨hnil, c, hk⟩⟩ := (run_iff xmm13 hforce t).mp ⟨p', hrun⟩
    · have hgood := hfirst.mpr (fun y hy hnot => ?_) (c, t) hc
      · rw [mayRun_candidate (x := (c, t)) (List.argmin_mem hc), hgood.resolve_left hidle]
        rfl
      · obtain ⟨hyidle, hyhalf⟩ := not_or.mp hnot
        exact h.halfSet y hy hyidle (Bool.not_eq_false _ ▸ hyhalf)
    · obtain ⟨hclocks, -, rfl⟩ := kept_eq_some.mp hk
      have hmay := (h.current hclocks hidle).resolve_right (not_not.mpr hnil)
      rw [hk, Option.map_some, searched_of_kept hk, decide_eq_true rfl]
      exact hmay

/-- A table whose queued threads have both flags or none, and whose current thread may run while it
has clocks left, has only threads selected that may run. In general this is so exactly when the
table is at an odd place, or each thread with one flag is outranked and the current thread may run
where no other is found. -/
theorem scheduler_selects_runnable (xmm13 : ℕ) (p : Cpu) (hforce : p.forceNextThread = none) :
    (p.Whole xmm13 → p.SelectsRunnable xmm13) ∧
    (p.SelectsRunnable xmm13 ↔ p.base.testBit 15 = true ∨ p.Outranked xmm13) := by
  have hiff : p.SelectsRunnable xmm13 ↔ p.base.testBit 15 = true ∨ p.Outranked xmm13 := by
    cases hb : p.base.testBit 15 with
    | false => simpa using selectsRunnable_iff hforce hb
    | true =>
      refine iff_of_true (fun t p' hrun => ?_) (Or.inl rfl)
      have hnot := ((run_iff xmm13 hforce t).mp ⟨p', hrun⟩).1
      rw [hb] at hnot
      cases hnot
  exact ⟨fun h => hiff.mpr (Or.inr h.outranked), hiff⟩

theorem Outcome.selected_eq_some {o : Outcome} : o.selected = some t ↔ ∃ p', o = .run t p' := by
  cases o with
  | run u p' =>
    simp only [Outcome.selected, Option.some.injEq, Outcome.run.injEq, exists_and_left, exists_eq',
      and_true]
  | idle p' => simp [Outcome.selected]
  | halted => simp [Outcome.selected]

/-- A processor whose waiting queue of class 3 holds the listed threads. Thread 0 is its idle
thread, and its process has class 6. -/
def sampleCpu (threads : ℕ → Thread) (current : ℕ) (queued : List ℕ) : Cpu where
  base := 0x200000
  threads := threads
  processes := fun t => if t = 0 then ⟨6, [0]⟩ else ⟨3, queued⟩
  totalThreads := fun c => if c = 3 then queued.length else 0
  numReadyThreads := fun c => if c = 3 then queued.length else 0
  threadQueues := fun c => if c = 3 then ⟨⟨fun i => queued[i.val]?, queued.length⟩, []⟩
    else ⟨⟨fun _ => none, 0⟩, []⟩
  currentThread := current
  totalClocks := 100
  readyOnClock := fun _ => 0
  systemIdleThread := 0
  forceNextThread := none

/-- A thread that may run, and has `clocks` left. -/
def sampleThread (priority clocks : ℕ) : Thread :=
  ⟨thsRunnable ||| thsAlive, 1, priority, 1, 0, some (3, 0), 12, 50, clocks, 0⟩

def sampleIdleThread : Thread :=
  ⟨thsRunnable ||| thsAlive ||| thsIdle ||| thsManual, 0, 0, 0, 0, none, 0, 0, 0, 0⟩

/-- The thread 5, which has `clocks` left, and the idle thread. -/
def sampleThreads (clocks : ℕ) (t : ℕ) : Thread :=
  if t = 5 then sampleThread 3 clocks else sampleIdleThread

/-- The threads 5 and 6, both ready, the second suspended and of a larger number. -/
def sampleSuspended (t : ℕ) : Thread :=
  if t = 5 then sampleThread 3 0
  else if t = 6 then { sampleThread 4 0 with state := thsRunnable } else sampleIdleThread

theorem scheduler_selects_runnable_sample :
    (sampleCpu (sampleThreads 0) 0 [5]).SelectsRunnable 7 ∧
    (schedulerEntrySSE 7 (sampleCpu sampleSuspended 0 [6, 5])).selected = some 5 ∧
    (sampleCpu sampleSuspended 0 [6, 5]).candidates 7 = [(3, 6), (3, 5)] ∧
    (sampleCpu sampleSuspended 0 [6, 5]).SelectsRunnable 7 := by
  have hcands : (sampleCpu sampleSuspended 0 [6, 5]).candidates 7 = [(3, 6), (3, 5)] := by
    decide +kernel
  refine ⟨?_, by decide +kernel, hcands, ?_⟩
  · refine (scheduler_selects_runnable 7 (sampleCpu (sampleThreads 0) 0 [5]) rfl).1 ⟨?_, ?_⟩
    · decide +kernel
    · exact fun _ hidle => absurd rfl hidle
  · refine (scheduler_selects_runnable 7 (sampleCpu sampleSuspended 0 [6, 5]) rfl).2.mpr
      (Or.inr ⟨fun x hx _ hhalf => ?_, fun _ hidle => absurd rfl hidle⟩)
    rw [hcands] at hx ⊢
    refine ⟨(3, 5), by decide, Or.inr (by decide), Or.inl ?_⟩
    rcases List.mem_cons.mp hx with rfl | hx
    · decide
    · rw [List.mem_singleton.mp hx] at hhalf
      exact absurd hhalf (by decide)

/-- A thread that `KeSuspendThread` has suspended is selected, and so is the current thread after
`IoWait` while it has clocks left. -/
theorem scheduler_selects_suspended :
    (∃ p', schedulerEntrySSE 7 ((sampleCpu (sampleThreads 0) 0 [5]).keSuspendThread 5) =
      .run 5 p') ∧
    (((sampleCpu (sampleThreads 0) 0 [5]).keSuspendThread 5).threads 5).has thsAlive = false ∧
    (∃ p', schedulerEntrySSE 7 (sampleCpu (sampleThreads 1) 5 [5]).ioWait = .run 5 p') ∧
    ((sampleCpu (sampleThreads 1) 5 [5]).ioWait.threads 5).has thsIoWait = true ∧
    ((sampleCpu (sampleThreads 1) 5 [5]).ioWait.threads 5).has thsIoPin = false := by
  have hsel : (schedulerEntrySSE 7
    ((sampleCpu (sampleThreads 0) 0 [5]).keSuspendThread 5)).selected =
      some 5 := by decide +kernel
  have hkept : (schedulerEntrySSE 7 (sampleCpu (sampleThreads 1) 5 [5]).ioWait).selected =
      some 5 := by
    decide +kernel
  refine ⟨Outcome.selected_eq_some.mp hsel, by decide, Outcome.selected_eq_some.mp hkept, by decide,
    by decide⟩

end DevOs.Scheduler
