import DevOs.Lib.Runs
import Mathlib.Algebra.Order.Ring.Nat
import Mathlib.Logic.Function.Basic
import Mathlib.Tactic.Common

/-!
# The ticket lock

`EnterLockArea` takes `ScheduleCount` as its ticket and waits until `LockIndex` reaches it, and
`ExitLockArea` lets `LockIndex` go on and counts the thread out again. The counter is the number of
threads that wait or are inside, and it is the next ticket only while `LockIndex` is zero. In every
run whose tickets are all taken then, the tickets out are `LockIndex` and those that follow it, each
held by one thread.
-/

namespace DevOs.Management

/-- `CRITICAL_LOCK` -/
structure CriticalLock where
  scheduleCount : ℕ
  lockIndex : ℕ
deriving DecidableEq, Repr

def createLockObject : CriticalLock := ⟨0, 0⟩

namespace CriticalLock

/-- The part of `EnterLockArea` between `__cli` and `__sti`: the ticket `AwaitLockIndex` and the
lock. -/
def takeTicket (l : CriticalLock) : ℕ × CriticalLock :=
  (l.scheduleCount, { l with scheduleCount := (l.scheduleCount + 1) % 2 ^ 64 })

def exitLockArea (l : CriticalLock) : CriticalLock :=
  let scheduleCount := (l.scheduleCount + (2 ^ 64 - 1)) % 2 ^ 64
  if scheduleCount = 0 then ⟨scheduleCount, 0⟩
  else ⟨scheduleCount, (l.lockIndex + 1) % 2 ^ 64⟩

end CriticalLock

/-- Where a thread is: outside, in the loop of `EnterLockArea`, or between its return and the call
of `ExitLockArea`. -/
inductive LockPc where
  | outside
  | waiting (awaitLockIndex : ℕ)
  | inside
deriving DecidableEq, Repr

structure LockState where
  lock : CriticalLock
  pcs : ℕ → LockPc

def LockState.initial : LockState := ⟨createLockObject, fun _ => .outside⟩

def LockState.setPc (s : LockState) (t : ℕ) (pc : LockPc) : LockState :=
  { s with pcs := Function.update s.pcs t pc }

/-- The atomic steps of a thread. -/
inductive LockAction where
  | ticket (t : ℕ)
  | test (t : ℕ)
  | exit (t : ℕ)
deriving DecidableEq, Repr

def lockStep (s : LockState) : LockAction → Option LockState
  | .ticket t =>
    match s.pcs t with
    | .outside =>
        some ({ s with lock := s.lock.takeTicket.2 }.setPc t (.waiting s.lock.takeTicket.1))
    | _ => none
  | .test t =>
    match s.pcs t with
    | .waiting k => some (if s.lock.lockIndex ≠ k then s else s.setPc t .inside)
    | _ => none
  | .exit t =>
    match s.pcs t with
    | .inside => some ({ s with lock := s.lock.exitLockArea }.setPc t .outside)
    | _ => none

/-- A ticket is taken only while `LockIndex` is zero, and not when the counter is full. -/
def ticketOk (s : LockState) : LockAction → Prop
  | .ticket _ => s.lock.lockIndex = 0 ∧ s.lock.scheduleCount + 1 < 2 ^ 64
  | _ => True

instance (s : LockState) : (a : LockAction) → Decidable (ticketOk s a)
  | .ticket _ => inferInstanceAs (Decidable (_ ∧ _))
  | .test _ => inferInstanceAs (Decidable True)
  | .exit _ => inferInstanceAs (Decidable True)

/-- The thread has the ticket `k`, with which it waits or is inside. -/
def LockState.Holds (s : LockState) (t k : ℕ) : Prop :=
  s.pcs t = .waiting k ∨ s.pcs t = .inside ∧ k = s.lock.lockIndex

/-- The tickets out are the `ScheduleCount` ones from `LockIndex` on. -/
structure Queued (s : LockState) : Prop where
  range : ∀ t k, s.Holds t k → s.lock.lockIndex ≤ k ∧ k < s.lock.lockIndex + s.lock.scheduleCount
  unique : ∀ t u k, s.Holds t k → s.Holds u k → t = u
  holder : ∀ k, s.lock.lockIndex ≤ k → k < s.lock.lockIndex + s.lock.scheduleCount →
    ∃ t, s.Holds t k
  reset : s.lock.scheduleCount = 0 → s.lock.lockIndex = 0
  bound : s.lock.lockIndex + s.lock.scheduleCount < 2 ^ 64

variable {s s' : LockState} {t u k : ℕ}

theorem queued_initial : Queued LockState.initial := by
  have hnot (t k : ℕ) : ¬ LockState.initial.Holds t k := by
    rintro (h | ⟨h, _⟩) <;> cases h
  refine ⟨fun t k h => absurd h (hnot t k), fun t u k h => absurd h (hnot t k), fun k h₁ h₂ => ?_,
    fun _ => rfl, by decide⟩
  exact absurd h₂ (Nat.not_lt.mpr h₁)

theorem holds_setPc_of_ne {pc : LockPc} {l : CriticalLock} (hu : u ≠ t) :
    ({ s with lock := l }.setPc t pc).Holds u k ↔
      s.pcs u = .waiting k ∨ s.pcs u = .inside ∧ k = l.lockIndex := by
  simp only [LockState.Holds, LockState.setPc, Function.update_of_ne hu]

theorem holds_setPc_self {pc : LockPc} {l : CriticalLock} :
    ({ s with lock := l }.setPc t pc).Holds t k ↔ pc = .waiting k ∨ pc = .inside ∧
    k = l.lockIndex := by
  simp only [LockState.Holds, LockState.setPc, Function.update_self]

theorem Queued.ticket (h : Queued s) (ht : s.pcs t = .outside) (h0 : s.lock.lockIndex = 0)
    (hlt : s.lock.scheduleCount + 1 < 2 ^ 64) :
    Queued ({ s with lock := s.lock.takeTicket.2 }.setPc t (.waiting s.lock.takeTicket.1)) := by
  have hlock : s.lock.takeTicket.2 = ⟨s.lock.scheduleCount + 1, 0⟩ := by
    simp only [CriticalLock.takeTicket, Nat.mod_eq_of_lt hlt, h0]
  have hticket : s.lock.takeTicket.1 = s.lock.scheduleCount := rfl
  rw [hlock, hticket]
  have hself (k : ℕ) : ({ s with lock := ⟨s.lock.scheduleCount + 1, 0⟩ }.setPc t
      (.waiting s.lock.scheduleCount)).Holds t k ↔ k = s.lock.scheduleCount := by
    rw [holds_setPc_self]
    simp only [LockPc.waiting.injEq, reduceCtorEq, false_and, or_false]
    exact eq_comm
  have hother {u : ℕ} (k : ℕ) (hu : u ≠ t) :
    ({ s with lock := ⟨s.lock.scheduleCount + 1, 0⟩ }.setPc t
      (.waiting s.lock.scheduleCount)).Holds u k ↔ s.Holds u k := by
    rw [holds_setPc_of_ne hu, LockState.Holds, h0]
  have hrange (u k : ℕ) (hk : s.Holds u k) : k < s.lock.scheduleCount := by
    have := (h.range u k hk).2
    omega
  refine ⟨fun u k hk => ?_, fun u v k hu hv => ?_, fun k _ hk => ?_, fun hz => ?_, ?_⟩
  · change 0 ≤ k ∧ k < 0 + (s.lock.scheduleCount + 1)
    by_cases hu : u = t
    · have := (hself k).mp (hu ▸ hk)
      omega
    · have := hrange u k ((hother k hu).mp hk)
      omega
  · by_cases hut : u = t
    · by_cases hvt : v = t
      · rw [hut, hvt]
      · have hk := (hself k).mp (hut ▸ hu)
        have := hrange v k ((hother k hvt).mp hv)
        omega
    · have hku := hrange u k ((hother k hut).mp hu)
      by_cases hvt : v = t
      · have hk := (hself k).mp (hvt ▸ hv)
        omega
      · exact h.unique u v k ((hother k hut).mp hu) ((hother k hvt).mp hv)
  · change k < 0 + (s.lock.scheduleCount + 1) at hk
    by_cases hlast : k = s.lock.scheduleCount
    · exact ⟨t, (hself k).mpr hlast⟩
    · obtain ⟨u, hu⟩ := h.holder k (by omega) (by omega)
      have hut : u ≠ t := by
        rintro rfl
        rcases hu with hu | hu
        · rw [ht] at hu
          cases hu
        · rw [ht] at hu
          cases hu.1
      exact ⟨u, (hother k hut).mpr hu⟩
  · exact rfl
  · change 0 + (s.lock.scheduleCount + 1) < 2 ^ 64
    omega

theorem Queued.test (h : Queued s) (ht : s.pcs t = .waiting s.lock.lockIndex) :
    Queued (s.setPc t .inside) := by
  have hholds (u k : ℕ) : (s.setPc t .inside).Holds u k ↔ s.Holds u k := by
    by_cases hu : u = t
    · subst hu
      simp only [LockState.Holds, LockState.setPc, Function.update_self, ht, LockPc.waiting.injEq,
        reduceCtorEq, false_or, false_and, or_false, true_and]
      exact eq_comm
    · simp only [LockState.Holds, LockState.setPc, Function.update_of_ne hu]
  refine ⟨fun u k hk => h.range u k ((hholds u k).mp hk), fun u v k hu hv => ?_, fun k h₁ h₂ => ?_,
    h.reset, h.bound⟩
  · exact h.unique u v k ((hholds u k).mp hu) ((hholds v k).mp hv)
  · obtain ⟨u, hu⟩ := h.holder k h₁ h₂
    exact ⟨u, (hholds u k).mpr hu⟩

theorem Queued.inside_unique (h : Queued s) (ht : s.pcs t = .inside)
    (hu : s.Holds u s.lock.lockIndex) :
    u = t :=
  h.unique u t s.lock.lockIndex hu (Or.inr ⟨ht, rfl⟩)

theorem Queued.exit (h : Queued s) (ht : s.pcs t = .inside) :
    Queued ({ s with lock := s.lock.exitLockArea }.setPc t .outside) := by
  have hpos := h.range t s.lock.lockIndex (Or.inr ⟨ht, rfl⟩)
  have hbound := h.bound
  have hcount : (s.lock.scheduleCount + (2 ^ 64 - 1)) % 2 ^ 64 = s.lock.scheduleCount - 1 := by
    omega
  have hnot {l : CriticalLock} (k : ℕ) : ¬ ({ s with lock := l }.setPc t .outside).Holds t k := by
    rw [holds_setPc_self]
    rintro (hk | ⟨hk, _⟩) <;> cases hk
  have hother {l : CriticalLock} (u k : ℕ) (hu : u ≠ t) :
      ({ s with lock := l }.setPc t .outside).Holds u k ↔ s.pcs u = .waiting k := by
    rw [holds_setPc_of_ne hu]
    refine or_iff_left fun hin => hu ?_
    exact h.inside_unique ht (Or.inr ⟨hin.1, rfl⟩)
  have hwait (u k : ℕ) (hu : u ≠ t) (hk : s.pcs u = .waiting k) :
      s.lock.lockIndex + 1 ≤ k ∧ k < s.lock.lockIndex + s.lock.scheduleCount := by
    have hr := h.range u k (Or.inl hk)
    have hne : k ≠ s.lock.lockIndex := by
      rintro rfl
      exact hu (h.inside_unique ht (Or.inl hk))
    omega
  have hheld {l : CriticalLock} (u k : ℕ) (hk : ({ s with lock := l }.setPc t .outside).Holds u k) :
      u ≠ t ∧ s.pcs u = .waiting k := by
    by_cases hu : u = t
    · exact absurd (hu ▸ hk) (hnot k)
    · exact ⟨hu, (hother u k hu).mp hk⟩
  have hunique {l : CriticalLock} (u v k : ℕ)
    (hu : ({ s with lock := l }.setPc t .outside).Holds u k)
      (hv : ({ s with lock := l }.setPc t .outside).Holds v k) : u = v :=
    h.unique u v k (Or.inl (hheld u k hu).2) (Or.inl (hheld v k hv).2)
  by_cases hone : s.lock.scheduleCount = 1
  · have hlock : s.lock.exitLockArea = ⟨0, 0⟩ := by
      have hzero : (s.lock.scheduleCount + (2 ^ 64 - 1)) % 2 ^ 64 = 0 := by omega
      simp only [CriticalLock.exitLockArea, hzero, if_true]
    rw [hlock]
    refine ⟨fun u k hk => ?_, hunique, fun k _ hk => absurd hk (Nat.not_lt_zero k), fun _ => rfl,
      Nat.two_pow_pos 64⟩
    have := hwait u k (hheld u k hk).1 (hheld u k hk).2
    omega
  · have hlock : s.lock.exitLockArea = ⟨s.lock.scheduleCount - 1, s.lock.lockIndex + 1⟩ := by
      have hne : s.lock.scheduleCount - 1 ≠ 0 := by omega
      simp only [CriticalLock.exitLockArea, hcount, if_neg hne]
      rw [Nat.mod_eq_of_lt (by omega)]
    rw [hlock]
    refine ⟨fun u k hk => ?_, hunique, fun k h₁ h₂ => ?_, fun hz => ?_, ?_⟩
    · have := hwait u k (hheld u k hk).1 (hheld u k hk).2
      change s.lock.lockIndex + 1 ≤ k ∧ k < s.lock.lockIndex + 1 + (s.lock.scheduleCount - 1)
      omega
    · change s.lock.lockIndex + 1 ≤ k at h₁
      change k < s.lock.lockIndex + 1 + (s.lock.scheduleCount - 1) at h₂
      obtain ⟨u, hu⟩ := h.holder k (by omega) (by omega)
      have hwaits : s.pcs u = .waiting k := by
        rcases hu with hu | ⟨_, hk⟩
        · exact hu
        · omega
      have hut : u ≠ t := by
        rintro rfl
        rw [ht] at hwaits
        cases hwaits
      exact ⟨u, (hother u k hut).mpr hwaits⟩
    · change s.lock.scheduleCount - 1 = 0 at hz
      omega
    · change s.lock.lockIndex + 1 + (s.lock.scheduleCount - 1) < 2 ^ 64
      omega

theorem Queued.step {a : LockAction} (h : Queued s) (hok : ticketOk s a)
    (hs : lockStep s a = some s') :
    Queued s' := by
  cases a with
  | ticket t =>
    simp only [lockStep] at hs
    split at hs
    · next ht =>
      cases hs
      exact h.ticket ht hok.1 hok.2
    · cases hs
  | test t =>
    simp only [lockStep] at hs
    split at hs
    · next k ht =>
      cases hs
      split_ifs with hk
      · exact h
      · rw [← not_not.mp hk] at ht
        exact h.test ht
    · cases hs
  | exit t =>
    simp only [lockStep] at hs
    split at hs
    · next ht =>
      rw [← Option.some.inj hs]
      exact h.exit ht
    · cases hs

def LockAction.thread : LockAction → ℕ
  | .ticket t => t
  | .test t => t
  | .exit t => t

theorem lockStep_pcs {a : LockAction} (hs : lockStep s a = some s') (ht : a.thread ≠ t) :
    s'.pcs t = s.pcs t := by
  have hne : t ≠ a.thread := ht.symm
  cases a with
  | ticket u =>
    simp only [lockStep] at hs
    split at hs
    · cases hs
      exact Function.update_of_ne hne _ _
    · cases hs
  | test u =>
    simp only [lockStep] at hs
    split at hs
    · cases hs
      split_ifs
      · rfl
      · exact Function.update_of_ne hne _ _
    · cases hs
  | exit u =>
    simp only [lockStep] at hs
    split at hs
    · rw [← Option.some.inj hs]
      exact Function.update_of_ne hne _ _
    · cases hs

theorem guardedRun_pcs (as : List LockAction) (ht : ∀ a ∈ as, a.thread ≠ t)
    (hr : Runs.guardedRun lockStep Runs.anyStep s as = some s') : s'.pcs t = s.pcs t := by
  induction as generalizing s with
  | nil =>
    cases hr
    rfl
  | cons a as ih =>
    have hany : Runs.anyStep s a := trivial
    rw [Runs.guardedRun, if_pos hany, Option.bind_eq_some_iff] at hr
    obtain ⟨r, hs, hr⟩ := hr
    rw [ih (fun b hb => ht b (List.mem_cons_of_mem a hb)) hr]
    exact lockStep_pcs hs (ht a List.mem_cons_self)

/-- At most one thread is inside, and while none is, one of the threads that wait is let in next. -/
theorem lock_exclusive (s : LockState)
    (hr : Runs.Reaches lockStep ticketOk LockState.initial s) :
    (∀ t u, s.pcs t = .inside → s.pcs u = .inside → t = u) ∧
    ((∀ t, s.pcs t ≠ .inside) → (∃ t k, s.pcs t = .waiting k) →
      ∃ t, s.pcs t = .waiting s.lock.lockIndex) := by
  have h : Queued s := hr.invariant (fun _ _ _ h hok hs => h.step hok hs) queued_initial
  constructor
  · intro t u ht hu
    exact h.inside_unique hu (Or.inr ⟨ht, rfl⟩)
  · rintro hnone ⟨t, k, ht⟩
    have hrange := h.range t k (Or.inl ht)
    obtain ⟨u, hu | hu⟩ := h.holder s.lock.lockIndex (Nat.le_refl _) (by omega)
    · exact ⟨u, hu⟩
    · exact absurd hu.1 (hnone u)

/-- Three threads that arrive one after the other, each of which enters and leaves. -/
def sampleQueue : List LockAction :=
  [.ticket 1, .test 1, .ticket 2, .ticket 3, .test 3, .exit 1, .test 2, .exit 2, .test 3]

theorem lock_exclusive_sample :
    ∃ s, Runs.Reaches lockStep ticketOk LockState.initial s ∧ s.pcs 3 = .inside ∧
      ∀ t, s.pcs t = .inside → t = 3 := by
  have hrun : ∃ s, Runs.guardedRun lockStep ticketOk LockState.initial sampleQueue = some s := by
    rw [← Option.isSome_iff_exists]
    decide
  obtain ⟨s, hs⟩ := hrun
  have hr := Runs.reaches_of_guardedRun _ hs
  have h3 : s.pcs 3 = .inside := Runs.eq_of_map (fun s : LockState => s.pcs 3) hs (by decide)
  exact ⟨s, hr, h3, fun t ht => (lock_exclusive s hr).1 t 3 ht h3⟩

/-- A third thread that comes while the second is inside takes its ticket and enters, and one that
comes too late for `LockIndex` waits for ever. -/
theorem lock_shared :
    (∃ s, Runs.Reaches lockStep Runs.anyStep LockState.initial s ∧
      s.pcs 2 = .inside ∧ s.pcs 3 = .inside) ∧
    (∃ s, Runs.Reaches lockStep Runs.anyStep LockState.initial s ∧
      (∀ t, s.pcs t ≠ .inside) ∧ s.pcs 4 = .waiting 1 ∧
      ∀ t, s.pcs t ≠ .waiting s.lock.lockIndex) := by
  have htwo : ∃ s, Runs.guardedRun lockStep Runs.anyStep LockState.initial
      [.ticket 1, .test 1, .ticket 2, .exit 1, .test 2, .ticket 3, .test 3] = some s := by
    rw [← Option.isSome_iff_exists]
    decide
  obtain ⟨s, hs⟩ := htwo
  have hend : (s.pcs 2, s.pcs 3) = (.inside, .inside) :=
    Runs.eq_of_map (fun s : LockState => (s.pcs 2, s.pcs 3)) hs (by decide)
  have hstuck : ∃ s, Runs.guardedRun lockStep Runs.anyStep LockState.initial
      (sampleQueue ++ [.ticket 4, .exit 3]) = some s := by
    rw [← Option.isSome_iff_exists]
    decide
  obtain ⟨r, hr⟩ := hstuck
  have hlast : (r.lock.lockIndex, r.pcs 1, r.pcs 2, r.pcs 3, r.pcs 4) =
      (3, .outside, .outside, .outside, .waiting 1) :=
    Runs.eq_of_map (fun s : LockState => (s.lock.lockIndex, s.pcs 1, s.pcs 2, s.pcs 3, s.pcs 4)) hr
      (by decide)
  simp only [Prod.mk.injEq] at hend hlast
  obtain ⟨hindex, h1, h2, h3, h4⟩ := hlast
  have hpcs (t : ℕ) : r.pcs t = .outside ∨ r.pcs t = .waiting 1 := by
    by_cases hnamed : t ∈ [1, 2, 3, 4]
    · simp only [List.mem_cons, List.not_mem_nil, or_false] at hnamed
      rcases hnamed with rfl | rfl | rfl | rfl
      · exact Or.inl h1
      · exact Or.inl h2
      · exact Or.inl h3
      · exact Or.inr h4
    · left
      refine guardedRun_pcs _ (fun a ha he => hnamed ?_) hr
      have hthreads : ∀ b ∈ sampleQueue ++ [.ticket 4, .exit 3], b.thread ∈ [1, 2, 3, 4] := by
        decide
      exact he ▸ hthreads a ha
  refine ⟨⟨s, Runs.reaches_of_guardedRun _ hs, hend⟩,
    r, Runs.reaches_of_guardedRun _ hr, fun t ht => ?_, h4, fun t ht => ?_⟩
  · rcases hpcs t with h | h
    · cases h.symm.trans ht
    · cases h.symm.trans ht
  · rw [hindex] at ht
    rcases hpcs t with h | h
    · cases h.symm.trans ht
    · cases h.symm.trans ht

end DevOs.Management
