import DevOs.Scheduler.Selection

/-!
# Priorities

Both scans are meant to find the first thread of smallest priority number among those of the class
that may run, and the current thread is meant to give way only to a smaller number. The scans find
that thread exactly when the counter that `.SLEEP` overwrites does not run out before it and no
thread with one of the two flags of the mask comes first. The search for another thread of the
current thread's class starts from the bound 0xFF and not from the current thread's own number.
-/

namespace DevOs.Scheduler

open Choice Cpu

variable {counts : Bool} {xmm4 xmm13 : ℕ}

theorem looked_congr {d : Bool} {s u : Scan} (ts : List ℕ) (hthreads : u.threads = s.threads)
    (hrdi : u.rdi = s.rdi) (hr11 : u.r11 = s.r11) :
    looked counts xmm4 xmm13 ts u = looked d xmm4 xmm13 ts s := by
  induction ts generalizing s u with
  | nil => rfl
  | cons t ts ih =>
    rw [looked, looked, hrdi]
    split_ifs
    · rfl
    · rw [ih]
      · simp only [meet, hthreads, hr11]
      · simp only [meet, hthreads, hr11, hrdi]
      · simp only [meet, hthreads, hr11]

/-- The registers of a scan that starts with no candidate, with `TotalThreads` in `rdi` and the
count `r9` so far. -/
def freshScan (threads : ℕ → Thread) (q : QueueChain) (r9 : ℕ) : Scan :=
  ⟨threads, q.queued.length, 0xFF, none, r9⟩

def scanned (threads : ℕ → Thread) (q : QueueChain) (xmm4 xmm13 : ℕ) : List ℕ :=
  looked false xmm4 xmm13 q.queued (freshScan threads q 0)

theorem looked_freshScan (threads : ℕ → Thread) (q : QueueChain) (r9 : ℕ) :
    looked counts xmm4 xmm13 q.queued (freshScan threads q r9) = scanned threads q xmm4 xmm13 :=
  looked_congr _ rfl rfl rfl

def highestThread (threads : ℕ → Thread) (q : QueueChain) (xmm4 xmm13 : ℕ) : Option ℕ :=
  firstMin (fun t => mayRun xmm4 xmm13 false (threads t)) (priorities threads) q.queued

theorem highestScan_rbx (threads : ℕ → Thread) (q : QueueChain) (r9 : ℕ) :
    (sseHighestPriorityThreadScan xmm4 xmm13 q (freshScan threads q r9)).rbx =
      firstMin (below (admitted xmm4 xmm13 threads) (priorities threads) 0xFF) (priorities threads)
        (scanned threads q xmm4 xmm13) := by
  rw [(sseHighestPriorityThreadScan_meets q).2, meetAll_rbx, looked_freshScan]
  exact Option.or_none

theorem fullScan_rbx (threads : ℕ → Thread) (q : QueueChain) (r9 : ℕ) :
    (sseFullScan xmm4 xmm13 q (freshScan threads q r9)).rbx =
      firstMin (below (admitted xmm4 xmm13 threads) (priorities threads) 0xFF) (priorities threads)
        (scanned threads q xmm4 xmm13) := by
  rw [(sseFullScan_meets q).2.1, meetAll_rbx, looked_freshScan]
  exact Option.or_none

theorem fullScan_r9 (threads : ℕ → Thread) (q : QueueChain) (r9 : ℕ) :
    (sseFullScan xmm4 xmm13 q (freshScan threads q r9)).r9 % 2 ^ 64 =
      (r9 + (scanned threads q xmm4 xmm13).countP (readyBy xmm4 threads)) % 2 ^ 64 := by
  rw [(sseFullScan_meets q).2.2, meetAll_r9, looked_freshScan]
  rfl

theorem scanned_append (threads : ℕ → Thread) (q : QueueChain) (xmm4 xmm13 : ℕ) :
    scanned threads q xmm4 xmm13 ++ q.queued.drop (scanned threads q xmm4 xmm13).length =
      q.queued := by
  have h : scanned threads q xmm4 xmm13 <+: q.queued := looked_initial _
  obtain ⟨r, hr⟩ := h
  rw [← hr, List.drop_left]

theorem scan_choice_iff (threads : ℕ → Thread) (q : QueueChain) (xmm4 xmm13 : ℕ) :
    firstMin (below (admitted xmm4 xmm13 threads) (priorities threads) 0xFF) (priorities threads)
        (scanned threads q xmm4 xmm13) = highestThread threads q xmm4 xmm13 ↔
      (∀ t, firstMin (below (admitted xmm4 xmm13 threads) (priorities threads) 0xFF)
          (priorities threads) (scanned threads q xmm4 xmm13) = some t →
        (threads t).has thsRunnable = true ∧ (threads t).has thsAlive = true) ∧
      (∀ t, highestThread threads q xmm4 xmm13 = some t →
        t ∈ scanned threads q xmm4 xmm13 ∧ (threads t).threadPriority < 0xFF) := by
  have h := firstMin_below_eq_iff (f := priorities threads) (b := 0xFF)
    (l := scanned threads q xmm4 xmm13)
    (r := q.queued.drop (scanned threads q xmm4 xmm13).length)
    (p := admitted xmm4 xmm13 threads) (q := fun t => mayRun xmm4 xmm13 false (threads t))
    (fun t => admits_of_mayRun)
  rw [scanned_append] at h
  rw [highestThread, h]
  refine and_congr (forall_congr' fun t => imp_congr_right fun ht => ?_) Iff.rfl
  rw [mayRun_of_admits (below_eq_true.mp (firstMin_mem ht).2).1, Bool.and_eq_true]

theorem scan_count_iff (threads : ℕ → Thread) (q : QueueChain) (xmm4 xmm13 r9 : ℕ)
    (hlen : q.queued.length < 2 ^ 64) :
    (sseFullScan xmm4 xmm13 q (freshScan threads q r9)).r9 % 2 ^ 64 =
        (r9 + q.queued.countP (readyBy xmm4 threads)) % 2 ^ 64 ↔
      ∀ t ∈ q.queued.drop (scanned threads q xmm4 xmm13).length, xmm4 < (threads t).readyAt := by
  have hsplit := congrArg (List.countP (readyBy xmm4 threads)) (scanned_append threads q xmm4 xmm13)
  rw [List.countP_append] at hsplit
  have hle := List.countP_le_length (p := readyBy xmm4 threads) (l := q.queued)
  have hzero : (∀ t ∈ q.queued.drop (scanned threads q xmm4 xmm13).length,
      xmm4 < (threads t).readyAt) ↔
      (q.queued.drop (scanned threads q xmm4 xmm13).length).countP (readyBy xmm4 threads) = 0 := by
    rw [List.countP_eq_zero]
    refine forall₂_congr fun t _ => ?_
    simp only [readyBy, decide_eq_true_eq, Nat.not_le]
  rw [fullScan_r9, hzero]
  omega

/-- A thread of the current thread's class that is found in its place has a smaller number. -/
def Cpu.GivesWayRightly (p : Cpu) (xmm13 : ℕ) : Prop :=
  ∀ t, (p.searched.findNextTask p.kept xmm13 classes).2 = some (p.classOf p.currentThread, t) →
    t ≠ p.currentThread → (p.threads t).threadPriority < (p.threads p.currentThread).threadPriority

/-- A candidate comes from a class before the current thread's or has a smaller number, or there is
no other candidate than the current thread, or the current thread is a candidate and none of its
number is met before it. -/
def Cpu.Yields (p : Cpu) (xmm13 : ℕ) : Prop :=
  (∃ y ∈ p.candidates xmm13, y.1 < p.classOf p.currentThread ∨
      (p.threads y.2).threadPriority < (p.threads p.currentThread).threadPriority) ∨
    (∀ y ∈ p.candidates xmm13, y.2 = p.currentThread) ∨
    ((p.classOf p.currentThread, p.currentThread) ∈ p.candidates xmm13 ∧
      ∀ y ∈ p.candidates xmm13,
        (p.threads y.2).threadPriority = (p.threads p.currentThread).threadPriority →
          ¬ MetBefore (p.candidates xmm13) y (p.classOf p.currentThread, p.currentThread))

theorem rank_le_iff {p : Cpu} {x y : PriorityClass × ℕ} : p.rank x ≤ p.rank y ↔
    x.1 < y.1 ∨ x.1 = y.1 ∧ (p.threads x.2).threadPriority ≤ (p.threads y.2).threadPriority :=
  Prod.Lex.toLex_le_toLex

theorem givesWayRightly_iff {p : Cpu} (hclocks : (p.threads p.currentThread).remainingClocks ≠ 0) :
    p.GivesWayRightly xmm13 ↔ p.Yields xmm13 := by
  have hkept : p.kept = some (p.classOf p.currentThread, p.currentThread) :=
    kept_eq_some.mpr ⟨hclocks, rfl, rfl⟩
  have hle : ∀ y ∈ p.candidates xmm13, y.1 ≤ p.classOf p.currentThread := by
    intro y hy
    rw [candidates, hkept] at hy
    exact candidatesIn_le classes classes_pairwise (List.mem_finRange _) hy
  rw [GivesWayRightly, search_eq, hkept]
  constructor
  · intro h
    by_cases hearly : ∃ y ∈ p.candidates xmm13, y.1 < p.classOf p.currentThread ∨
        (p.threads y.2).threadPriority < (p.threads p.currentThread).threadPriority
    · exact Or.inl hearly
    have hsame : ∀ y ∈ p.candidates xmm13, y.1 = p.classOf p.currentThread ∧
        (p.threads p.currentThread).threadPriority ≤ (p.threads y.2).threadPriority := by
      intro y hy
      have hnot := not_exists.mp hearly y
      rw [not_and, not_or, not_lt, not_lt] at hnot
      exact ⟨le_antisymm (hle y hy) (hnot hy).1, (hnot hy).2⟩
    cases hmin : (p.candidates xmm13).argmin p.rank with
    | none =>
      rw [List.argmin_eq_none] at hmin
      refine Or.inr (Or.inl fun y hy => ?_)
      rw [hmin] at hy
      cases hy
    | some x =>
      obtain ⟨c, t⟩ := x
      obtain ⟨hmem, -, hidx⟩ := List.argmin_eq_some_iff.mp hmin
      obtain ⟨rfl, hnum⟩ := hsame (c, t) hmem
      have ht : t = p.currentThread := by
        by_contra hne
        have hlt := h t (by rw [hmin, Option.some_or]) hne
        exact absurd hnum hlt.not_ge
      subst ht
      refine Or.inr (Or.inr ⟨hmem, fun y hy heq => Nat.not_lt.mpr (hidx y hy (rank_le_iff.mpr ?_))⟩)
      exact Or.inr ⟨(hsame y hy).1, heq.le⟩
  · intro h t hfound hne
    cases hmin : (p.candidates xmm13).argmin p.rank with
    | none =>
      rw [hmin, Option.none_or, Option.some.injEq] at hfound
      exact absurd (congrArg Prod.snd hfound).symm hne
    | some x =>
      rw [hmin, Option.some_or, Option.some.injEq] at hfound
      subst hfound
      obtain ⟨hmem, hleast, -⟩ := List.argmin_eq_some_iff.mp hmin
      rcases h with ⟨y, hy, hearly⟩ | honly | ⟨hcur, hfirst⟩
      · rcases rank_le_iff.mp (hleast y hy) with hlt | ⟨heq, hnum⟩
        · exact absurd (hle y hy) hlt.not_ge
        · rcases hearly with hlt | hlt
          · exact absurd heq hlt.ne'
          · exact hnum.trans_lt hlt
      · exact absurd (honly _ hmem) hne
      · rcases rank_le_iff.mp (hleast _ hcur) with hlt | ⟨-, hnum⟩
        · exact absurd hlt (lt_irrefl _)
        · refine hnum.lt_of_ne fun heq => hne ?_
          have hsame := argmin_eq_of_not_metBefore hmin hcur
            (rank_le_iff.mpr (Or.inr ⟨rfl, heq.ge⟩)) (hfirst _ hmem heq)
          exact congrArg Prod.snd hsame

/-- For every chain of waiting queues whose `TotalThreads` is the number of its threads, both scans
find the thread that the priorities call for exactly when they meet it before their counter runs
out, with a number below 0xFF, and the one they find has both flags. The second scan counts every
ready thread exactly when it meets them all. The current thread with clocks left gives way to
smaller numbers of its class only, exactly when the candidates stand as `Yields` says. -/
theorem scheduler_priority_iff (xmm13 : ℕ) :
    (∀ (threads : ℕ → Thread) (q : QueueChain) (xmm4 r9 : ℕ), q.queued.length < 2 ^ 64 →
      (((sseHighestPriorityThreadScan xmm4 xmm13 q (freshScan threads q r9)).rbx =
            highestThread threads q xmm4 xmm13 ∧
          (sseFullScan xmm4 xmm13 q (freshScan threads q r9)).rbx =
            highestThread threads q xmm4 xmm13) ↔
        (∀ t, firstMin (below (admitted xmm4 xmm13 threads) (priorities threads) 0xFF)
            (priorities threads) (scanned threads q xmm4 xmm13) = some t →
          (threads t).has thsRunnable = true ∧ (threads t).has thsAlive = true) ∧
        (∀ t, highestThread threads q xmm4 xmm13 = some t →
          t ∈ scanned threads q xmm4 xmm13 ∧ (threads t).threadPriority < 0xFF)) ∧
      ((sseFullScan xmm4 xmm13 q (freshScan threads q r9)).r9 % 2 ^ 64 =
          (r9 + q.queued.countP (readyBy xmm4 threads)) % 2 ^ 64 ↔
        ∀ t ∈ q.queued.drop (scanned threads q xmm4 xmm13).length, xmm4 < (threads t).readyAt)) ∧
    (∀ p : Cpu, (p.threads p.currentThread).remainingClocks ≠ 0 →
      (p.GivesWayRightly xmm13 ↔ p.Yields xmm13)) := by
  refine ⟨fun threads q xmm4 r9 hlen => ⟨?_, scan_count_iff threads q xmm4 xmm13 r9 hlen⟩,
    fun p hclocks => ?_⟩
  · rw [highestScan_rbx, fullScan_rbx, and_self, scan_choice_iff]
  · exact givesWayRightly_iff hclocks

def sampleChain (queued : List ℕ) : QueueChain := ⟨⟨fun i => queued[i.val]?, queued.length⟩, []⟩

/-- The threads 5 and 6, both ready, with the numbers 3 and `priority`. The thread 5 has one clock
left. -/
def sampleRivals (priority t : ℕ) : Thread :=
  if t = 5 then sampleThread 3 1 else if t = 6 then sampleThread priority 0 else sampleIdleThread

theorem scheduler_priority_iff_sample :
    (sseHighestPriorityThreadScan 100 7 (sampleChain [5, 6])
      (freshScan (sampleRivals 1) (sampleChain [5, 6]) 0)).rbx = some 6 ∧
    (∀ t, highestThread (sampleRivals 1) (sampleChain [5, 6]) 100 7 = some t →
      t ∈ scanned (sampleRivals 1) (sampleChain [5, 6]) 100 7 ∧
        (sampleRivals 1 t).threadPriority < 0xFF) ∧
    (sampleCpu (sampleRivals 1) 5 [5, 6]).GivesWayRightly 7 ∧
    (sampleCpu (sampleRivals 3) 5 [5, 6]).GivesWayRightly 7 := by
  have hscan : (sseHighestPriorityThreadScan 100 7 (sampleChain [5, 6])
      (freshScan (sampleRivals 1) (sampleChain [5, 6]) 0)).rbx = some 6 := by decide +kernel
  have hfull : (sseFullScan 100 7 (sampleChain [5, 6])
      (freshScan (sampleRivals 1) (sampleChain [5, 6]) 0)).rbx = some 6 := by decide +kernel
  have hspec : highestThread (sampleRivals 1) (sampleChain [5, 6]) 100 7 = some 6 := by
    decide +kernel
  have hcands (priority : ℕ) (h : priority = 1 ∨ priority = 3) :
      (sampleCpu (sampleRivals priority) 5 [5, 6]).candidates 7 = [(3, 5), (3, 6)] := by
    rcases h with rfl | rfl <;> decide +kernel
  refine ⟨hscan, ?_, ?_, ?_⟩
  · exact (((scheduler_priority_iff 7).1 (sampleRivals 1) (sampleChain [5, 6]) 100 0
      (by decide +kernel)).1.mp ⟨hscan.trans hspec.symm, hfull.trans hspec.symm⟩).2
  · refine ((scheduler_priority_iff 7).2 (sampleCpu (sampleRivals 1) 5 [5, 6]) (by decide)).mpr
      (Or.inl ⟨(3, 6), ?_, Or.inr (by decide)⟩)
    rw [hcands 1 (Or.inl rfl)]
    decide
  · refine ((scheduler_priority_iff 7).2 (sampleCpu (sampleRivals 3) 5 [5, 6]) (by decide)).mpr
      (Or.inr (Or.inr ?_))
    rw [hcands 3 (Or.inr rfl)]
    decide

def sampleSleeper (t : ℕ) : Thread :=
  if t = 5 then { sampleThread 3 0 with
    state := thsRunnable ||| thsAlive ||| thsSleep, sleepUntil := 10 }
  else sampleThread 3 0

/-- At the time 0 a sleeping thread ends both scans, so that the ready thread behind it is neither
found nor counted. The current thread gives way to a thread of its class with the same number. -/
theorem scheduler_priority_fails :
    ((sseHighestPriorityThreadScan 100 0 (sampleChain [5, 6])
        (freshScan sampleSleeper (sampleChain [5, 6]) 0)).rbx = none ∧
      (sseFullScan 100 0 (sampleChain [5, 6])
        (freshScan sampleSleeper (sampleChain [5, 6]) 0)).rbx = none ∧
      highestThread sampleSleeper (sampleChain [5, 6]) 100 0 = some 6) ∧
    ((sseFullScan 100 0 (sampleChain [5, 6])
        (freshScan sampleSleeper (sampleChain [5, 6]) 0)).r9 = 1 ∧
      (sampleChain [5, 6]).queued.countP (readyBy 100 sampleSleeper) = 2) ∧
    ((sampleCpu (sampleRivals 3) 5 [6, 5]).kept = some (3, 5) ∧
      ((sampleCpu (sampleRivals 3) 5 [6, 5]).searched.findNextTask
        (sampleCpu (sampleRivals 3) 5 [6, 5]).kept 7 classes).2 = some (3, 6) ∧
      (sampleRivals 3 6).threadPriority = (sampleRivals 3 5).threadPriority) := by
  refine ⟨⟨?_, ?_, ?_⟩, ⟨?_, ?_⟩, ?_, ?_, ?_⟩
  all_goals decide +kernel

end DevOs.Scheduler
