import DevOs.Lib.Runs
import DevOs.Scheduler.Priority

/-!
# Accounts of the ready threads

`NumReadyThreads` is counted by a full scan and goes down with every thread that is put off, and
`ReadyOnClock` is the clock from which a class without a counted thread is scanned again. A `Ledger`
beside the run notes what each full scan had to count and how many threads were put off since. The
accounts are right after every run of entries that put off counted threads only, leave no thread of
a class with a deadline before that of the class, and whose full scans meet every ready thread.
-/

namespace DevOs.Scheduler

open Choice Cpu

def Cpu.queued (p : Cpu) (c : PriorityClass) : List ℕ := (p.threadQueues c).queued

/-- For each class, the number of ready threads at its last full scan and the number of its threads
put off since. -/
structure Ledger where
  counted : PriorityClass → ℕ
  descheduled : PriorityClass → ℕ

def Ledger.putOff (g : Ledger) (c : PriorityClass) : Ledger :=
  { g with descheduled := Function.update g.descheduled c (g.descheduled c + 1) }

def Ledger.count (g : Ledger) (c : PriorityClass) (n : ℕ) : Ledger :=
  ⟨Function.update g.counted c n, Function.update g.descheduled c 0⟩

/-- The class `c` is scanned in full. -/
def Cpu.fullyScanned (p : Cpu) (c : PriorityClass) : Bool :=
  p.numReadyThreads c = 0 && p.readyOnClock c ≤ p.totalClocks

/-- The ledger after the round of a search for the class `c`. -/
def Ledger.scan (g : Ledger) (p : Cpu) (c : PriorityClass) : Ledger :=
  if p.fullyScanned c then g.count c ((p.queued c).countP (readyBy p.totalClocks p.threads)) else g

def Ledger.search (g : Ledger) (p : Cpu) (kept : Option (PriorityClass × ℕ)) (xmm13 : ℕ) :
    List PriorityClass → Ledger
  | [] => g
  | c :: cs =>
    match p.findInClass kept xmm13 c with
    | (_, some _) => g.scan p c
    | (p', none) => (g.scan p c).search p' kept xmm13 cs

/-- One entry of the scheduler, with `ForceNextThread` as it is set by then. -/
structure Entry where
  forceNextThread : Option ℕ
  xmm13 : ℕ

def Cpu.atEntry (p : Cpu) (a : Entry) : Cpu := { p with forceNextThread := a.forceNextThread }

def entryStep (p : Cpu) (a : Entry) : Option Cpu :=
  match schedulerEntrySSE a.xmm13 (p.atEntry a) with
  | .run _ p' => some p'
  | .idle p' => some p'
  | .halted => none

/-- The thread that a search ends with replaces the current one, which has clocks left. -/
def Cpu.preempted (kept found : Option (PriorityClass × ℕ)) : Option ℕ :=
  match kept, found with
  | some (_, mm4), some (_, t) => if mm4 = t then none else some mm4
  | _, _ => none

/-- What the thread that is put off at the end of an entry adds to the ledger. -/
def Ledger.preempt (g : Ledger) (p : Cpu) : Option ℕ → Ledger
  | some mm4 => g.putOff (p.classOf mm4)
  | none => g

def noteSchedule (xmm13 : ℕ) (p : Cpu) (g : Ledger) : Ledger :=
  match p.forceNextThread with
  | some _ => g.putOff (p.classOf p.currentThread)
  | none =>
    let g := if p.kept = none then g.putOff (p.classOf p.currentThread) else g
    (g.search p.searched p.kept xmm13 classes).preempt p
      (preempted p.kept (p.searched.findNextTask p.kept xmm13 classes).2)

def noteEntry (p : Cpu) (a : Entry) (g : Ledger) : Ledger := noteSchedule a.xmm13 (p.atEntry a) g

/-- The accounts of every class are right. -/
structure Accounted (p : Cpu) (g : Ledger) : Prop where
  counted : ∀ c, p.numReadyThreads c + g.descheduled c = g.counted c
  deadline : ∀ c, p.numReadyThreads c = 0 →
    ∀ t ∈ p.queued c, p.readyOnClock c ≤ (p.threads t).readyAt

def Cpu.nextReadyAt (p : Cpu) (t : ℕ) : ℕ :=
  ((p.threads t).schedulingQuantum + p.totalClocks) % 2 ^ 64

/-- Putting off the thread `t` keeps the accounts: its class has a counted thread, it waits in no
queue of another class, and if it is the last counted thread then either its deadline is stored and
no thread of the class is due before, or the deadline of the class stays and none is due before
that. -/
def Cpu.putOffOk (p : Cpu) (tested : PriorityClass) (t : ℕ) : Bool :=
  let c := p.classOf t
  decide (p.numReadyThreads c ≠ 0) &&
  (List.finRange 7).all (fun d => d = c || !(p.queued d).contains t) &&
  (decide (p.numReadyThreads c ≠ 1) ||
    if tested = c ∨ p.numReadyThreads tested = 0 then
      (p.queued c).all fun u => u = t || decide (p.nextReadyAt t ≤ (p.threads u).readyAt)
    else
      (p.queued c).all fun u => decide (p.readyOnClock c ≤
        if u = t then p.nextReadyAt t else (p.threads u).readyAt))

def Cpu.scansOk (p : Cpu) (kept : Option (PriorityClass × ℕ)) (xmm13 : ℕ) :
    List PriorityClass → Bool
  | [] => true
  | c :: cs =>
    (!p.fullyScanned c || ((p.queued c).drop (p.met kept xmm13 c).length).all
      fun t => decide (p.totalClocks < (p.threads t).readyAt)) &&
    match p.findInClass kept xmm13 c with
    | (_, some _) => true
    | (p', none) => p'.scansOk kept xmm13 cs

def scheduleOk (xmm13 : ℕ) (p : Cpu) : Bool :=
  match p.forceNextThread with
  | some _ => p.putOffOk (p.classOf p.currentThread) p.currentThread
  | none =>
    (decide (p.kept ≠ none) || p.putOffOk 0 p.currentThread) &&
    p.searched.scansOk p.kept xmm13 classes &&
    (preempted p.kept (p.searched.findNextTask p.kept xmm13 classes).2).all
      fun mm4 => (p.searched.findNextTask p.kept xmm13 classes).1.putOffOk 0 mm4

def entryOk (p : Cpu) (a : Entry) : Bool := scheduleOk a.xmm13 (p.atEntry a)

/-- What 64-bit counters and a 64-bit memory admit. -/
structure Sized (p : Cpu) : Prop where
  numReady : ∀ c, p.numReadyThreads c < 2 ^ 64
  queued : ∀ c, (p.queued c).length < 2 ^ 64

variable {p : Cpu} {g : Ledger} {kept : Option (PriorityClass × ℕ)} {xmm13 t : ℕ}
  {tested : PriorityClass}

theorem putOff_numReadyThreads (tested : PriorityClass) (hs : Sized p)
    (h0 : p.numReadyThreads (p.classOf t) ≠ 0) (c : PriorityClass) :
    (p.putOff tested t).numReadyThreads c =
      if c = p.classOf t then p.numReadyThreads c - 1 else p.numReadyThreads c := by
  have hlt := hs.numReady (p.classOf t)
  simp only [putOff, Function.update_apply]
  split_ifs with hc
  · rw [hc]
    omega
  · rfl

theorem putOff_readyAt (u : ℕ) : ((p.putOff tested t).threads u).readyAt =
    if u = t then p.nextReadyAt t else (p.threads u).readyAt := by
  simp only [putOff, setThread, Function.update_apply, nextReadyAt]
  split_ifs <;> rfl

theorem putOff_sized (tested : PriorityClass) (t : ℕ) (hs : Sized p) :
    Sized (p.putOff tested t) := by
  refine ⟨fun c => ?_, hs.queued⟩
  simp only [putOff, Function.update_apply]
  split_ifs
  · exact Nat.mod_lt _ (by decide)
  · exact hs.numReady c

theorem putOff_readyOnClock (c : PriorityClass) : (p.putOff tested t).readyOnClock c =
    if (p.putOff tested t).numReadyThreads tested = 0 ∧ c = p.classOf t then p.nextReadyAt t
    else p.readyOnClock c := by
  by_cases h0 : (p.putOff tested t).numReadyThreads tested = 0
  · have h : (p.putOff tested t).readyOnClock =
        Function.update p.readyOnClock (p.classOf t) (p.nextReadyAt t) := if_pos h0
    rw [h, Function.update_apply]
    simp only [h0, true_and]
  · have h : (p.putOff tested t).readyOnClock = p.readyOnClock := if_neg h0
    rw [h, if_neg fun hc => h0 hc.1]

theorem putOffOk_iff : p.putOffOk tested t = true ↔ p.numReadyThreads (p.classOf t) ≠ 0 ∧
    (∀ d, t ∈ p.queued d → d = p.classOf t) ∧
    (p.numReadyThreads (p.classOf t) = 1 →
      if tested = p.classOf t ∨ p.numReadyThreads tested = 0 then
        ∀ u ∈ p.queued (p.classOf t), u ≠ t → p.nextReadyAt t ≤ (p.threads u).readyAt
      else ∀ u ∈ p.queued (p.classOf t), p.readyOnClock (p.classOf t) ≤
        if u = t then p.nextReadyAt t else (p.threads u).readyAt) := by
  simp only [putOffOk, Bool.and_eq_true, decide_eq_true_eq, List.all_eq_true, List.mem_finRange,
    forall_const, Bool.or_eq_true, Bool.not_eq_true', List.contains_eq_mem, decide_eq_false_iff_not,
    and_assoc]
  refine and_congr Iff.rfl (and_congr ?_ ?_)
  · refine forall_congr' fun d => ?_
    rw [or_comm, ← imp_iff_not_or]
  · rw [← imp_iff_not_or]
    refine imp_congr_right fun _ => ?_
    split_ifs
    · simp only [List.all_eq_true, Bool.or_eq_true, decide_eq_true_eq, or_iff_not_imp_left, ne_eq]
    · simp only [List.all_eq_true, decide_eq_true_eq]

theorem Accounted.putOff (h : Accounted p g) (hs : Sized p) (hok : p.putOffOk tested t = true) :
    Accounted (p.putOff tested t) (g.putOff (p.classOf t)) := by
  obtain ⟨h0, hclass, hlast⟩ := putOffOk_iff.mp hok
  have hnum := putOff_numReadyThreads tested hs h0
  constructor
  · intro c
    rw [hnum]
    change _ + Function.update g.descheduled _ _ c = g.counted c
    rw [Function.update_apply]
    have hc := h.counted c
    split_ifs with he
    · subst he
      omega
    · exact hc
  · intro c hz u hu
    rw [hnum] at hz
    rw [putOff_readyAt, putOff_readyOnClock]
    change u ∈ p.queued c at hu
    by_cases he : c = p.classOf t
    · subst he
      rw [if_pos rfl] at hz
      have hone : p.numReadyThreads (p.classOf t) = 1 := by omega
      have hl := hlast hone
      have hstored : (p.putOff tested t).numReadyThreads tested = 0 ↔
          (tested = p.classOf t ∨ p.numReadyThreads tested = 0) := by
        rw [hnum]
        split_ifs with ht
        · rw [ht, hone]
          simp
        · simp [ht]
      simp only [and_true, hstored]
      split_ifs at hl ⊢ with hst hut hut
      · exact Nat.le_refl _
      · exact hl u hu hut
      · have := hl u hu
        rwa [if_pos hut] at this
      · have := hl u hu
        rwa [if_neg hut] at this
    · rw [if_neg he] at hz
      rw [if_neg fun hc => he hc.2]
      split_ifs with hut
      · rw [hut] at hu
        exact absurd (hclass c hu) he
      · exact h.deadline c hz u hu

theorem Accounted.congr {p' : Cpu} (h : Accounted p g) (hn : p'.numReadyThreads = p.numReadyThreads)
    (hq : p'.threadQueues = p.threadQueues) (hd : p'.readyOnClock = p.readyOnClock)
    (hr : ∀ u, (p'.threads u).readyAt = (p.threads u).readyAt) : Accounted p' g := by
  constructor
  · rw [hn]
    exact h.counted
  · intro c hz u hu
    rw [hn] at hz
    rw [hd, hr]
    exact h.deadline c hz u (by rwa [Cpu.queued, hq] at hu)

theorem Sized.congr {p' : Cpu} (hs : Sized p) (hn : p'.numReadyThreads = p.numReadyThreads)
    (hq : p'.threadQueues = p.threadQueues) : Sized p' :=
  ⟨fun c => by rw [hn]; exact hs.numReady c, fun c => by rw [Cpu.queued, hq]; exact hs.queued c⟩

theorem fullyScanned_iff {c : PriorityClass} :
    p.fullyScanned c = true ↔ p.numReadyThreads c = 0 ∧ p.readyOnClock c ≤ p.totalClocks := by
  simp [fullyScanned]

theorem sseFullScan_r9 {c : PriorityClass} (hs : Sized p) (hf : p.fullyScanned c = true)
    (hok : ∀ t ∈ (p.queued c).drop (p.met kept xmm13 c).length,
      p.totalClocks < (p.threads t).readyAt) :
    (sseFullScan p.totalClocks xmm13 (p.threadQueues c) (p.scanOf kept c)).r9 =
      (p.queued c).countP (readyBy p.totalClocks p.threads) := by
  obtain ⟨h0, hclk⟩ := fullyScanned_iff.mp hf
  have hmet : p.met kept xmm13 c =
      looked true p.totalClocks xmm13 (p.queued c) (p.scanOf kept c) := by
    rw [met, if_neg (not_not.mpr h0), if_neg (Nat.not_lt.mpr hclk), Cpu.queued]
  obtain ⟨r, hr⟩ : p.met kept xmm13 c <+: p.queued c := hmet ▸ looked_initial _
  have hrest : r.countP (readyBy p.totalClocks p.threads) = 0 := by
    rw [List.countP_eq_zero]
    intro t ht
    have hlt := hok t (by rw [← hr, List.drop_left]; exact ht)
    simp only [readyBy, decide_eq_true_eq, Nat.not_le]
    exact hlt
  have hcount := congrArg (List.countP (readyBy p.totalClocks p.threads)) hr
  rw [List.countP_append, hrest, Nat.add_zero] at hcount
  have hlen := List.countP_le_length (p := readyBy p.totalClocks p.threads) (l := p.queued c)
  have hq := hs.queued c
  have hr9 : (p.scanOf kept c).r9 = 0 := h0
  have hscan := meetAll_r9 p.totalClocks xmm13 (p.scanOf kept c) (p.queued c)
  have hlt := meetAll_r9_lt (s := p.scanOf kept c) true p.totalClocks xmm13 (p.queued c)
    (by rw [hr9]; decide)
  have hthreads : (p.scanOf kept c).threads = p.threads := rfl
  rw [Nat.mod_eq_of_lt hlt, ← hmet, hr9, hthreads, Nat.zero_add, hcount,
    Nat.mod_eq_of_lt (by omega)] at hscan
  rw [(sseFullScan_meets (p.threadQueues c)).2.2]
  exact hscan

theorem findInClass_numReadyThreads {c : PriorityClass} (hs : Sized p)
    (hok : p.fullyScanned c = true → ∀ t ∈ (p.queued c).drop (p.met kept xmm13 c).length,
      p.totalClocks < (p.threads t).readyAt) :
    (p.findInClass kept xmm13 c).1.numReadyThreads =
      if p.fullyScanned c then Function.update p.numReadyThreads c
        ((p.queued c).countP (readyBy p.totalClocks p.threads))
      else p.numReadyThreads := by
  simp only [findInClass]
  split_ifs with hn hf hclk hf hf
  · exact absurd (fullyScanned_iff.mp hf).1 hn
  · rfl
  · have := (fullyScanned_iff.mp hf).2
    omega
  · rfl
  · simp only [sseFullScan_r9 hs hf (hok hf)]
  · exact absurd (fullyScanned_iff.mpr ⟨not_not.mp hn, Nat.not_lt.mp hclk⟩) hf

theorem Accounted.findInClass {c : PriorityClass} (h : Accounted p g) (hs : Sized p)
    (hok : p.fullyScanned c = true → ∀ t ∈ (p.queued c).drop (p.met kept xmm13 c).length,
      p.totalClocks < (p.threads t).readyAt) :
    Accounted (p.findInClass kept xmm13 c).1 (g.scan p c) ∧
    Sized (p.findInClass kept xmm13 c).1 := by
  have ha := findInClass_agrees p kept xmm13 c
  have hnum := findInClass_numReadyThreads hs hok
  have hready (u : ℕ) : ((p.findInClass kept xmm13 c).1.threads u).readyAt =
      (p.threads u).readyAt := by
    rw [ha.fields]
  have hqueued (d : PriorityClass) : (p.findInClass kept xmm13 c).1.queued d = p.queued d := by
    rw [Cpu.queued, ha.threadQueues, Cpu.queued]
  by_cases hf : p.fullyScanned c = true
  swap
  · rw [if_neg hf] at hnum
    have hg : g.scan p c = g := if_neg hf
    rw [hg]
    exact ⟨h.congr hnum ha.threadQueues ha.readyOnClock hready, hs.congr hnum ha.threadQueues⟩
  rw [if_pos hf] at hnum
  have hg : g.scan p c = g.count c ((p.queued c).countP (readyBy p.totalClocks p.threads)) :=
    if_pos hf
  rw [hg]
  have hcount (d : PriorityClass) := congrFun hnum d
  simp only [Function.update_apply] at hcount
  refine ⟨⟨fun d => ?_, fun d hz u hu => ?_⟩, fun d => ?_, fun d => ?_⟩
  · rw [hcount]
    simp only [Ledger.count, Function.update_apply]
    split_ifs
    · exact Nat.add_zero _
    · exact h.counted d
  · rw [hcount] at hz
    rw [hqueued] at hu
    rw [ha.readyOnClock, hready]
    split_ifs at hz with hd
    · -- no thread of the class is ready, so all are due after the clock
      subst hd
      have hnot := List.countP_eq_zero.mp hz u hu
      simp only [readyBy, decide_eq_true_eq, Nat.not_le] at hnot
      have := (fullyScanned_iff.mp hf).2
      omega
    · exact h.deadline d hz u hu
  · rw [hcount]
    split_ifs
    · exact Nat.lt_of_le_of_lt List.countP_le_length (hs.queued c)
    · exact hs.numReady d
  · rw [hqueued]
    exact hs.queued d

theorem Accounted.search (cs : List PriorityClass) (h : Accounted p g) (hs : Sized p)
    (hok : p.scansOk kept xmm13 cs = true) :
    Accounted (p.findNextTask kept xmm13 cs).1 (g.search p kept xmm13 cs) ∧
      Sized (p.findNextTask kept xmm13 cs).1 := by
  induction cs generalizing p g with
  | nil => exact ⟨h, hs⟩
  | cons c cs ih =>
    rw [scansOk, Bool.and_eq_true] at hok
    obtain ⟨hscan, hrest⟩ := hok
    have hmeets (hf : p.fullyScanned c = true) :
        ∀ t ∈ (p.queued c).drop (p.met kept xmm13 c).length,
        p.totalClocks < (p.threads t).readyAt := by
      rw [hf, Bool.not_true, Bool.false_or, List.all_eq_true] at hscan
      exact fun t ht => of_decide_eq_true (hscan t ht)
    have hclass := h.findInClass hs hmeets
    rw [findNextTask, Ledger.search]
    cases hfound : p.findInClass kept xmm13 c with
    | mk p' found =>
      rw [hfound] at hclass hrest
      cases found with
      | some t => exact hclass
      | none => exact ih hclass.1 hclass.2 hrest

theorem setRemainingClocks_fields (p : Cpu) (t n u : ℕ) : (p.setRemainingClocks t n).threads u =
    { p.threads u with
      remainingClocks := ((p.setRemainingClocks t n).threads u).remainingClocks } := by
  simp only [setRemainingClocks, setThread, Function.update_apply]
  split_ifs with hu
  · rw [hu]
  · rfl

theorem putOffOk_setRemainingClocks (n u : ℕ) :
    (p.setRemainingClocks t n).putOffOk tested u = p.putOffOk tested u := by
  have hclass : (p.setRemainingClocks t n).classOf u = p.classOf u := by
    rw [classOf, setRemainingClocks_fields, classOf]
    rfl
  have hnext : (p.setRemainingClocks t n).nextReadyAt u = p.nextReadyAt u := by
    rw [nextReadyAt, setRemainingClocks_fields, nextReadyAt]
    rfl
  have hready (v : ℕ) : ((p.setRemainingClocks t n).threads v).readyAt = (p.threads v).readyAt := by
    rw [setRemainingClocks_fields]
  have hnum : (p.setRemainingClocks t n).numReadyThreads = p.numReadyThreads := rfl
  have hdue : (p.setRemainingClocks t n).readyOnClock = p.readyOnClock := rfl
  have hqueued : (p.setRemainingClocks t n).queued = p.queued := rfl
  simp only [putOffOk, hclass, hnext, hready, hnum, hdue, hqueued]

theorem Accounted.setRemainingClocks (h : Accounted p g) (t n : ℕ) :
    Accounted (p.setRemainingClocks t n) g :=
  h.congr rfl rfl rfl fun u => by rw [setRemainingClocks_fields]

theorem Accounted.enter (h : Accounted p g) (t : ℕ) : Accounted (p.enter t) g :=
  h.congr rfl rfl rfl fun _ => rfl

theorem Sized.enter (hs : Sized p) (t : ℕ) : Sized (p.enter t) := hs.congr rfl rfl

theorem Accounted.switchTo {p' : Cpu} {c : PriorityClass} (h : Accounted p g) (hs : Sized p)
    (hok : ∀ mm4, preempted kept (some (c, t)) = some mm4 → p.putOffOk 0 mm4 = true)
    (hrun : p.switchTo kept t = .run t p') :
    Accounted p' (g.preempt p (preempted kept (some (c, t)))) ∧ Sized p' := by
  have hsized (n : ℕ) : Sized (p.setRemainingClocks t n) := hs.congr rfl rfl
  unfold Cpu.switchTo at hrun
  split_ifs at hrun with hb
  cases kept with
  | none =>
    cases hrun
    exact ⟨(h.setRemainingClocks t _).enter t, (hsized _).enter t⟩
  | some k =>
    obtain ⟨d, mm4⟩ := k
    simp only [preempted] at hok ⊢
    by_cases he : mm4 = t
    · simp only [if_pos he] at hrun ⊢
      cases hrun
      exact ⟨(h.setRemainingClocks t _).enter t, (hsized _).enter t⟩
    · simp only [if_neg he] at hrun hok ⊢
      cases hrun
      have hput := (h.setRemainingClocks t (p.threads t).timeBurst).putOff (hsized _)
        ((putOffOk_setRemainingClocks _ mm4).trans (hok mm4 rfl))
      have hclass : (p.setRemainingClocks t (p.threads t).timeBurst).classOf mm4 =
          p.classOf mm4 := by
        rw [classOf, setRemainingClocks_fields, classOf]
        rfl
      rw [hclass] at hput
      exact ⟨hput.enter t, (putOff_sized 0 mm4 (hsized _)).enter t⟩

theorem switchTo_ne_idle {p' : Cpu} : p.switchTo kept t ≠ .idle p' := by
  intro h
  unfold Cpu.switchTo at h
  split_ifs at h
  split at h
  · split_ifs at h
  · cases h

/-- A thread that is preempted was kept, so the search began in the table of the entry. -/
theorem classOf_preempted {found : Option (PriorityClass × ℕ)} {mm4 : ℕ}
    (hp : preempted p.kept found = some mm4) :
    (p.searched.findNextTask p.kept xmm13 classes).1.classOf mm4 = p.classOf mm4 := by
  have hagrees : Agrees p.searched (p.searched.findNextTask p.kept xmm13 classes).1 xmm13 :=
    findNextTask_agrees classes
  cases hk : p.kept with
  | none =>
    rw [hk] at hp
    cases hp
  | some k =>
    obtain ⟨d, u⟩ := k
    rw [hk, searched_of_kept hk] at hagrees
    rw [searched_of_kept hk, classOf, hagrees.processes, hagrees.fields, classOf]

theorem Accounted.schedule (h : Accounted p g) (hs : Sized p) (hok : scheduleOk xmm13 p = true) :
    (∀ u p', schedulerEntrySSE xmm13 p = .run u p' →
      Accounted p' (noteSchedule xmm13 p g) ∧ Sized p') ∧
    (∀ p', schedulerEntrySSE xmm13 p = .idle p' →
      Accounted p' (noteSchedule xmm13 p g) ∧ Sized p') := by
  cases hforce : p.forceNextThread with
  | some f =>
    simp only [scheduleOk, hforce] at hok
    simp only [schedulerEntrySSE, noteSchedule, hforce]
    refine ⟨fun u p' hrun => ?_, fun p' hidle => by cases hidle⟩
    cases hrun
    have hput := h.putOff hs hok
    exact ⟨hput.congr rfl rfl rfl fun _ => rfl,
      (putOff_sized (p.classOf p.currentThread) p.currentThread hs).congr rfl rfl⟩
  | none =>
    simp only [scheduleOk, hforce, Bool.and_eq_true] at hok
    obtain ⟨⟨hexpired, hscans⟩, hpre⟩ := hok
    -- the current thread whose clocks are used up is put off before the search
    have hsearched : Accounted p.searched
        (if p.kept = none then g.putOff (p.classOf p.currentThread) else g) ∧ Sized p.searched := by
      rw [Cpu.kept, searched] at *
      by_cases hr : (p.threads p.currentThread).remainingClocks = 0
      · simp only [if_pos hr, ne_eq, not_true_eq_false, decide_false, Bool.false_or] at hexpired ⊢
        exact ⟨h.putOff hs hexpired, putOff_sized 0 p.currentThread hs⟩
      · simp only [if_neg hr, reduceCtorEq, if_false]
        exact ⟨h, hs⟩
    have hsearch := hsearched.1.search classes hsearched.2 hscans
    simp only [schedulerEntrySSE, noteSchedule, hforce]
    have hclass : ∀ mm4, preempted p.kept (p.searched.findNextTask p.kept xmm13 classes).2 =
      some mm4 →
        (p.searched.findNextTask p.kept xmm13 classes).1.classOf mm4 = p.classOf mm4 :=
      fun mm4 hp => classOf_preempted hp
    cases hfound : p.searched.findNextTask p.kept xmm13 classes with
    | mk q found =>
      rw [hfound] at hsearch hpre hclass
      cases found with
      | none =>
        refine ⟨fun u p' hrun => (by cases hrun), fun p' hidle => ?_⟩
        cases hidle
        have hnone : preempted p.kept none = none := by
          cases p.kept <;> rfl
        simp only [hnone]
        exact ⟨hsearch.1.enter _, hsearch.2.enter _⟩
      | some ct =>
        obtain ⟨c, u⟩ := ct
        refine ⟨fun v p' hrun => ?_, fun p' hidle => ?_⟩
        · obtain ⟨rfl, _⟩ := switchTo_run hrun
          have hput : ∀ mm4, preempted p.kept (some (c, v)) = some mm4 →
              q.putOffOk 0 mm4 = true := by
            intro mm4 hp
            simp only [hp, Option.all_some] at hpre
            exact hpre
          have hend := hsearch.1.switchTo hsearch.2 hput hrun
          change Accounted p' (Ledger.preempt _ p (preempted p.kept (some (c, v)))) ∧ _
          cases hp : preempted p.kept (some (c, v)) with
          | none =>
            rw [hp] at hend
            exact hend
          | some mm4 =>
            rw [hp, Ledger.preempt, hclass mm4 hp] at hend
            exact hend
        · exact absurd hidle switchTo_ne_idle

theorem Accounted.entry {p' : Cpu} {a : Entry} (h : Accounted p g) (hs : Sized p)
    (hok : entryOk p a = true) (hstep : entryStep p a = some p') :
    Accounted p' (noteEntry p a g) ∧ Sized p' := by
  have hentry : Accounted (p.atEntry a) g := h.congr rfl rfl rfl fun _ => rfl
  have hsized : Sized (p.atEntry a) := hs.congr rfl rfl
  have hafter := hentry.schedule hsized hok
  unfold entryStep at hstep
  cases hout : schedulerEntrySSE a.xmm13 (p.atEntry a) with
  | run u q =>
    rw [hout] at hstep
    cases hstep
    exact hafter.1 u _ hout
  | idle q =>
    rw [hout] at hstep
    cases hstep
    exact hafter.2 _ hout
  | halted =>
    rw [hout] at hstep
    cases hstep

theorem Accounted.scanned {c : PriorityClass} (h : Accounted p g) (ht : t ∈ p.queued c)
    (hready : (p.threads t).readyAt ≤ p.totalClocks) :
    p.numReadyThreads c ≠ 0 ∨ p.readyOnClock c ≤ p.totalClocks := by
  by_cases h0 : p.numReadyThreads c = 0
  · exact Or.inr ((h.deadline c h0 t ht).trans hready)
  · exact Or.inl h0

theorem scheduler_accounting (p₀ : Cpu) (g₀ : Ledger) (hs : Sized p₀) (h₀ : Accounted p₀ g₀)
    (p : Cpu) (g : Ledger) (hr : Runs.Reaches (Runs.watched entryStep noteEntry)
      (fun s a => entryOk s.1 a = true) (p₀, g₀) (p, g)) :
    (∀ c, p.numReadyThreads c + g.descheduled c = g.counted c) ∧
    (∀ c, p.numReadyThreads c = 0 → ∀ t ∈ p.queued c, p.readyOnClock c ≤ (p.threads t).readyAt) ∧
    (∀ c, ∀ t ∈ p.queued c, (p.threads t).readyAt ≤ p.totalClocks →
      p.numReadyThreads c ≠ 0 ∨ p.readyOnClock c ≤ p.totalClocks) := by
  have hinv : Accounted p g ∧ Sized p := by
    refine hr.invariant (I := fun s => Accounted s.1 s.2 ∧ Sized s.1) ?_ ⟨h₀, hs⟩
    rintro ⟨q, k⟩ a ⟨q', k'⟩ ⟨hq, hsq⟩ hok hstep
    obtain ⟨hstep, hnote⟩ := Runs.watched_eq_some.mp hstep
    obtain rfl : k' = noteEntry q a k := hnote
    exact hq.entry hsq hok hstep
  exact ⟨hinv.1.counted, hinv.1.deadline, fun c t ht hready => hinv.1.scanned ht hready⟩

def Cpu.freshLedger (p : Cpu) : Ledger := ⟨p.numReadyThreads, fun _ => 0⟩

theorem accounted_freshLedger
    (h : ∀ c, p.numReadyThreads c = 0 →
      ∀ t ∈ p.queued c, p.readyOnClock c ≤ (p.threads t).readyAt) :
    Accounted p p.freshLedger :=
  ⟨fun _ => Nat.add_zero _, h⟩

theorem scheduler_accounting_sample :
    ∃ p g, Runs.Reaches (Runs.watched entryStep noteEntry) (fun s a => entryOk s.1 a = true)
        (sampleCpu (sampleRivals 3) 5 [5, 6], (sampleCpu (sampleRivals 3) 5 [5, 6]).freshLedger)
          (p, g) ∧
      p.currentThread = 6 ∧ p.numReadyThreads 3 = 1 ∧
      p.numReadyThreads 3 + g.descheduled 3 = g.counted 3 := by
  let p₀ := sampleCpu (sampleRivals 3) 5 [5, 6]
  have hrun : ∃ s, Runs.guardedRun (Runs.watched entryStep noteEntry)
    (fun s a => entryOk s.1 a = true)
      (p₀, p₀.freshLedger) [⟨none, 7⟩, ⟨some 6, 7⟩] = some s := by
    rw [← Option.isSome_iff_exists]
    decide +kernel
  obtain ⟨⟨p, g⟩, hs⟩ := hrun
  have hr := Runs.reaches_of_guardedRun _ hs
  have hend : (p.currentThread, p.numReadyThreads 3) = (6, 1) :=
    Runs.eq_of_map (fun s : Cpu × Ledger => (s.1.currentThread, s.1.numReadyThreads 3)) hs
      (by decide +kernel)
  have hacc := scheduler_accounting p₀ p₀.freshLedger ⟨by decide +kernel, by decide +kernel⟩
    (accounted_freshLedger (by decide +kernel)) p g hr
  exact ⟨p, g, hr, congrArg Prod.fst hend, congrArg Prod.snd hend, hacc.1 3⟩

/-- The threads 5, whose clocks are used up, and 6, which is ready at the clock 105. -/
def sampleLater (t : ℕ) : Thread :=
  if t = 5 then sampleThread 3 0
  else if t = 6 then { sampleThread 3 0 with readyAt := 105 } else sampleIdleThread

def sampleWaiting : Cpu :=
  { sampleCpu sampleLater 5 [5, 6] with numReadyThreads := fun c => if c = 3 then 1 else 0 }

/-- The last counted thread of a class leaves its own deadline to the class, after that of a thread
which waits there, and the idle thread takes the counter of its class below zero. -/
theorem scheduler_accounting_fails :
    (Sized sampleWaiting ∧ Accounted sampleWaiting sampleWaiting.freshLedger ∧
      ∃ p, entryStep sampleWaiting ⟨none, 7⟩ = some p ∧ p.numReadyThreads 3 = 0 ∧ 6 ∈ p.queued 3 ∧
        (p.threads 6).readyAt < p.readyOnClock 3) ∧
    (Sized (sampleCpu (sampleThreads 0) 0 [5]) ∧
      Accounted (sampleCpu (sampleThreads 0) 0 [5])
        (sampleCpu (sampleThreads 0) 0 [5]).freshLedger ∧
      ∃ p, entryStep (sampleCpu (sampleThreads 0) 0 [5]) ⟨none, 7⟩ = some p ∧
        (sampleCpu (sampleThreads 0) 0 [5]).numReadyThreads 6 = 0 ∧
        p.numReadyThreads 6 = 2 ^ 64 - 1 ∧ p.queued 6 = []) := by
  have hlate : ∃ p, entryStep sampleWaiting ⟨none, 7⟩ = some p := by
    rw [← Option.isSome_iff_exists]
    decide +kernel
  have hidle : ∃ p, entryStep (sampleCpu (sampleThreads 0) 0 [5]) ⟨none, 7⟩ = some p := by
    rw [← Option.isSome_iff_exists]
    decide +kernel
  obtain ⟨p, hp⟩ := hlate
  obtain ⟨q, hq⟩ := hidle
  have hpend := Runs.eq_of_map (fun p : Cpu => (p.numReadyThreads 3, decide (6 ∈ p.queued 3),
    decide ((p.threads 6).readyAt < p.readyOnClock 3))) hp (x := (0, true, true)) (by
      decide +kernel)
  have hqend := Runs.eq_of_map (fun p : Cpu => (p.numReadyThreads 6, p.queued 6)) hq
    (x := (2 ^ 64 - 1, [])) (by decide +kernel)
  simp only [Prod.mk.injEq, decide_eq_true_eq] at hpend hqend
  refine ⟨⟨⟨by decide +kernel, by decide +kernel⟩, accounted_freshLedger (by decide +kernel), p, hp,
    hpend⟩, ⟨by decide +kernel, by decide +kernel⟩, accounted_freshLedger (by decide +kernel), q,
    hq, rfl, hqend⟩

end DevOs.Scheduler
