import DevOs.Lib.Runs
import DevOs.Lib.Words
import Mathlib.Logic.Function.Basic

/-!
# Command slots of an AHCI port

`AhciAllocateCommand` looks for a slot whose bit is clear in `UsedCommandSlots` and sets the bit.
`AhciSataRead` and `AhciIssueCommand` enter the thread into `PendingCommands`, set the bit of the
slot in `CommandIssue` and wait for its bit in `DoneCommands`, which `AhciInterruptHandler` sets for
every pending slot whose command the controller has finished. Each statement of a thread and each
slot of the handler is one step, and the controller finishes commands in any order.

Beside a run, `Commands` notes for each slot the commands whose owners have not seen them done.
There is at most one a slot, the bit of a slot in `DoneCommands` belongs to it, and its owner finds
that bit, in every run in which a slot is claimed only while it is free and the handler acknowledges
only what is done.
-/

namespace DevOs.Ahci

open Words

/-- What follows the allocation of a slot: `AhciSataRead`, which still has `remaining` transfers to
issue after this one, or `AhciIssueCommand`. -/
inductive Caller where
  | read (remaining : ℕ)
  | issue
deriving DecidableEq, Repr

/-- The next statement of a thread. -/
inductive Pc where
  | outside
  | clean (remaining i : ℕ)
  | cleanFound (remaining i : ℕ)
  | cleanRelease (remaining i : ℕ)
  | readMask (k : Caller)
  | scan (k : Caller) (mask : BitVec 32) (i : ℕ)
  | claim (k : Caller) (mask : BitVec 32) (i : ℕ)
  | allocated (k : Caller) (i : ℕ)
  | store (k : Caller) (i : ℕ)
  | posted (k : Caller) (i : ℕ)
  | wait (threadPending : Bool) (i : ℕ)
  | waitFound (i : ℕ)
  | waitRelease (i : ℕ)
  | await (i : ℕ)
  | awaitFound (i : ℕ)
  | awaitRelease (i : ℕ)
deriving DecidableEq, Repr

/-- The fields of `AHCI_DEVICE_PORT` and `HBA_PORT` that the commands use, with the program counters
of the threads and, while the interrupt handler runs, what is left of its copy of `CommandIssue` and
its slot. -/
structure Port where
  usedCommandSlots : BitVec 32
  pendingCommands : ℕ → Option ℕ
  doneCommands : BitVec 32
  commandIssue : BitVec 32
  sataActive : BitVec 32
  maxCommandSlots : ℕ
  pcs : ℕ → Pc
  handler : Option (BitVec 32 × ℕ)

def Port.initial (maxCommandSlots : ℕ) (sataActive : BitVec 32) : Port where
  usedCommandSlots := 0
  pendingCommands := fun _ => none
  doneCommands := 0
  commandIssue := 0
  sataActive := sataActive
  maxCommandSlots := maxCommandSlots
  pcs := fun _ => .outside
  handler := none

/-- `w & ~(1 << i)` -/
def bitClear (w : BitVec 32) (i : ℕ) : BitVec 32 := w &&& ~~~(BitVec.twoPow 32 i)

/-- `__SyncBitTestAndSet`: only the low three bits of the index count, and `not eax` makes both
results different from zero. -/
def syncBitTestAndSet (w : BitVec 32) (i : ℕ) : BitVec 32 × BitVec 32 :=
  let carry : BitVec 32 := if w.getLsbD (i % 8) then 1 else 0
  (~~~carry, bitTestAndSet w (i % 8))

namespace Port

def setPc (p : Port) (t : ℕ) (pc : Pc) : Port := { p with pcs := Function.update p.pcs t pc }

def setPending (p : Port) (i : ℕ) (th : Option ℕ) : Port :=
  { p with pendingCommands := Function.update p.pendingCommands i th }

/-- `AhciSataRead` with the given number of transfers still to be issued. -/
def ahciSataRead (remaining : ℕ) : Pc := if remaining = 0 then .wait false 0 else .clean remaining 0

/-- Where a thread goes on after it has set the bit of its slot in `CommandIssue`. -/
def afterIssue (i : ℕ) : Caller → Pc
  | .read remaining => ahciSataRead remaining
  | .issue => .await i

/-- The next statement of the thread `t`. An unlocked read-modify-write, as of `DoneCommands` and
`CommandIssue`, is one step: no other party comes between its load and its store. -/
def threadStep (p : Port) (t : ℕ) : Option Port :=
  match p.pcs t with
  | .outside => none
  -- `AhciSataRead` clears the reads that are done before it allocates the next one
  | .clean n i =>
    if i < p.maxCommandSlots then
      if p.pendingCommands i = some t ∧
        p.doneCommands.getLsbD i then some (p.setPc t (.cleanFound n i))
      else some (p.setPc t (.clean n (i + 1)))
    else some (p.setPc t (.readMask (.read (n - 1))))
  | .cleanFound n i =>
    some ({ p with doneCommands := bitClear p.doneCommands i }.setPc t (.cleanRelease n i))
  | .cleanRelease n i => some ((p.setPending i none).setPc t (.clean n (i + 1)))
  -- `AhciAllocateCommand`
  | .readMask k => some (p.setPc t (.scan k (p.commandIssue ||| p.sataActive) 0))
  | .scan k mask i =>
    if i < p.maxCommandSlots then
      if !mask.getLsbD 0 && !p.usedCommandSlots.getLsbD i then some (p.setPc t (.claim k mask i))
      else some (p.setPc t (.scan k (mask >>> 1) (i + 1)))
    else some (p.setPc t (.readMask k))
  | .claim k mask i =>
    let r := syncBitTestAndSet p.usedCommandSlots i
    some ({ p with usedCommandSlots := r.2 }.setPc t
      (if r.1 = 0 then .scan k mask (i + 1) else .allocated k i))
  -- `AhciIssueCommand` tests the slot once more
  | .allocated k i =>
    if k = .issue ∧ p.pendingCommands i ≠ none then some (p.setPc t .outside)
    else some (p.setPc t (.store k i))
  | .store k i => some ((p.setPending i (some t)).setPc t (.posted k i))
  | .posted k i =>
    some ({ p with commandIssue := bitTestAndSet p.commandIssue i }.setPc t (afterIssue i k))
  -- `AhciSataRead` waits until no slot is pending for the thread
  | .wait threadPending i =>
    if i < p.maxCommandSlots then
      if p.pendingCommands i ≠ some t then some (p.setPc t (.wait threadPending (i + 1)))
      else if p.doneCommands.getLsbD i then some (p.setPc t (.waitFound i))
      else some (p.setPc t (.wait true (i + 1)))
    else some (p.setPc t (if threadPending then .wait false 0 else .outside))
  | .waitFound i =>
      some ({ p with doneCommands := bitClear p.doneCommands i }.setPc t (.waitRelease i))
  | .waitRelease i => some ((p.setPending i none).setPc t (.wait true (i + 1)))
  -- `AhciIssueCommand` waits for its own slot
  | .await i => some (p.setPc t (if p.doneCommands.getLsbD i then .awaitFound i else .await i))
  | .awaitFound i =>
      some ({ p with doneCommands := bitClear p.doneCommands i }.setPc t (.awaitRelease i))
  | .awaitRelease i => some ((p.setPending i none).setPc t .outside)

/-- One slot of `AhciInterruptHandler`, its read-modify-writes of both masks in one step. -/
def handleSlot (p : Port) (cmdIssue : BitVec 32) (c : ℕ) : Port :=
  let p := { p with handler := some (cmdIssue >>> 1, c + 1) }
  if p.pendingCommands c ≠ none ∧ cmdIssue.getLsbD 0 = false then
    { p with
      doneCommands := bitTestAndSet p.doneCommands c
      usedCommandSlots := bitClear p.usedCommandSlots c }
  else p

end Port

/-- The steps of the threads, the controller and the interrupt handler. -/
inductive Action where
  | read (t transfers : ℕ)
  | issue (t : ℕ)
  | step (t : ℕ)
  | complete (c : ℕ)
  | interrupt
  | handle
deriving DecidableEq, Repr

def ahciStep (p : Port) : Action → Option Port
  | .read t transfers =>
    if p.pcs t = .outside then some (p.setPc t (Port.ahciSataRead transfers)) else none
  | .issue t => if p.pcs t = .outside then some (p.setPc t (.readMask .issue)) else none
  | .step t => p.threadStep t
  | .complete c =>
    if p.commandIssue.getLsbD c then some { p with commandIssue := bitClear p.commandIssue c }
      else none
  | .interrupt =>
    match p.handler with
    | none => some { p with handler := some (p.commandIssue, 0) }
    | some _ => none
  | .handle =>
    match p.handler with
    | none => none
    | some (cmdIssue, c) =>
      if c < p.maxCommandSlots then some (p.handleSlot cmdIssue c)
        else some { p with handler := none }

/-- How far the command of a slot is. -/
inductive Phase where
  | claimed
  | issued
  | completed
  | acknowledged
deriving DecidableEq, Repr

/-- For each slot, the owners of the commands that hold it and how far these are. -/
abbrev Commands := ℕ → List (ℕ × Phase)

namespace Commands

def claim (g : Commands) (t i : ℕ) : Commands := Function.update g i ((t, .claimed) :: g i)

/-- The owner `t` of a command in the slot `i` gives it up or sees it done. -/
def drop (g : Commands) (t i : ℕ) : Commands := Function.update g i ((g i).filter fun x => x.1 ≠ t)

/-- A command in the phase `a`, of the thread `t` if one is named, comes to the phase `b`. -/
def advanced (t : Option ℕ) (a b : Phase) (x : ℕ × Phase) : ℕ × Phase :=
  if x.2 = a ∧ (t = none ∨ t = some x.1) then (x.1, b) else x

def advance (g : Commands) (t : Option ℕ) (i : ℕ) (a b : Phase) : Commands :=
  Function.update g i ((g i).map (advanced t a b))

end Commands

def noteStep (p : Port) (t : ℕ) (g : Commands) : Commands :=
  match p.pcs t with
  | .claim _ _ i => if (syncBitTestAndSet p.usedCommandSlots i).1 = 0 then g else g.claim t i
  | .allocated k i => if k = .issue ∧ p.pendingCommands i ≠ none then g.drop t i else g
  | .posted _ i => g.advance (some t) i .claimed .issued
  | .cleanFound _ i => g.drop t i
  | .waitFound i => g.drop t i
  | .awaitFound i => g.drop t i
  | _ => g

def Port.acknowledges (p : Port) : Option ℕ :=
  match p.handler with
  | some (cmdIssue, c) =>
    if c < p.maxCommandSlots ∧ p.pendingCommands c ≠ none ∧
      cmdIssue.getLsbD 0 = false then some c else none
  | none => none

def noteAction (p : Port) (a : Action) (g : Commands) : Commands :=
  match a with
  | .step t => noteStep p t g
  | .complete c => g.advance none c .issued .completed
  | .handle =>
    match p.acknowledges with
    | some c => g.advance none c .completed .acknowledged
    | none => g
  | _ => g

/-- What a thread is about to do to a slot: enter itself, issue the command, wait for it alone,
clear the bit in `DoneCommands`, or clear the entry in `PendingCommands`. -/
inductive Stage where
  | away
  | claims
  | posts
  | awaits
  | consumes
  | releases
deriving DecidableEq, Repr

def Pc.stageAt (pc : Pc) (i : ℕ) : Stage :=
  match pc with
  | .allocated _ j => if j = i then .claims else .away
  | .store _ j => if j = i then .claims else .away
  | .posted _ j => if j = i then .posts else .away
  | .await j => if j = i then .awaits else .away
  | .cleanFound _ j => if j = i then .consumes else .away
  | .waitFound j => if j = i then .consumes else .away
  | .awaitFound j => if j = i then .consumes else .away
  | .cleanRelease _ j => if j = i then .releases else .away
  | .waitRelease j => if j = i then .releases else .away
  | .awaitRelease j => if j = i then .releases else .away
  | _ => .away

def Port.stage (p : Port) (t i : ℕ) : Stage := (p.pcs t).stageAt i

/-- A slot is claimed only below 8, while its bit is still clear and no thread is entered there. The
handler acknowledges a slot only when its command is not issued any more, and its thread is neither
about to issue it nor to clear its entry. -/
def stepOk (p : Port) : Action → Bool
  | .step t =>
    match p.pcs t with
    | .claim _ _ i =>
        decide (i < 8) && !p.usedCommandSlots.getLsbD i && (p.pendingCommands i).isNone
    | _ => true
  | .handle =>
    match p.acknowledges with
    | some c => !p.commandIssue.getLsbD c && (p.pendingCommands c).all fun t =>
        decide (p.stage t c ≠ .posts) && decide (p.stage t c ≠ .releases)
    | none => true
  | _ => true

/-- What the state says about a slot whose commands are listed. -/
inductive SlotOk (p : Port) (i : ℕ) : List (ℕ × Phase) → Prop where
  | free (hdone : p.doneCommands.getLsbD i = false) (hissue : p.commandIssue.getLsbD i = false)
      (hall : ∀ u, p.stage u i = .away ∧ p.pendingCommands i ≠ some u ∨
        p.stage u i = .releases ∧ p.pendingCommands i = some u) : SlotOk p i []
  | claimed (t : ℕ) (hi : i < 32) (hdone : p.doneCommands.getLsbD i = false)
      (hissue : p.commandIssue.getLsbD i = false) (hused : p.usedCommandSlots.getLsbD i = true)
      (hpend : p.pendingCommands i = none) (ht : p.stage t i = .claims)
      (hothers : ∀ u, u ≠ t → p.stage u i = .away) : SlotOk p i [(t, .claimed)]
  | posted (t : ℕ) (hi : i < 32) (hdone : p.doneCommands.getLsbD i = false)
      (hissue : p.commandIssue.getLsbD i = false) (hpend : p.pendingCommands i = some t)
      (ht : p.stage t i = .posts) (hothers : ∀ u, u ≠ t → p.stage u i = .away) :
      SlotOk p i [(t, .claimed)]
  | issued (t : ℕ) (hdone : p.doneCommands.getLsbD i = false)
      (hissue : p.commandIssue.getLsbD i = true) (hpend : p.pendingCommands i = some t)
      (ht : p.stage t i = .away ∨ p.stage t i = .awaits)
      (hothers : ∀ u, u ≠ t → p.stage u i = .away) : SlotOk p i [(t, .issued)]
  | completed (t : ℕ) (hi : i < 32) (hdone : p.doneCommands.getLsbD i = false)
      (hissue : p.commandIssue.getLsbD i = false) (hpend : p.pendingCommands i = some t)
      (ht : p.stage t i = .away ∨ p.stage t i = .awaits)
      (hothers : ∀ u, u ≠ t → p.stage u i = .away) : SlotOk p i [(t, .completed)]
  | acknowledged (t : ℕ) (hdone : p.doneCommands.getLsbD i = true)
      (hissue : p.commandIssue.getLsbD i = false) (hpend : p.pendingCommands i = some t)
      (ht : p.stage t i = .away ∨ p.stage t i = .awaits ∨ p.stage t i = .consumes)
      (hothers : ∀ u, u ≠ t → p.stage u i = .away) : SlotOk p i [(t, .acknowledged)]

variable {p p' : Port} {g : Commands} {t u i j c : ℕ} {l : List (ℕ × Phase)} {pc pc' : Pc}

/-- The two states say the same about the slot. -/
structure SameSlot (p p' : Port) (i : ℕ) : Prop where
  done : p'.doneCommands.getLsbD i = p.doneCommands.getLsbD i
  issue : p'.commandIssue.getLsbD i = p.commandIssue.getLsbD i
  used : p'.usedCommandSlots.getLsbD i = p.usedCommandSlots.getLsbD i
  pending : p'.pendingCommands i = p.pendingCommands i
  stage : ∀ u, p'.stage u i = p.stage u i

theorem SlotOk.congr (h : SlotOk p i l) (hs : SameSlot p p' i) : SlotOk p' i l := by
  obtain ⟨hd, hc, hu, hp, hst⟩ := hs
  cases h with
  | free hdone hissue hall =>
    refine .free (hd.trans hdone) (hc.trans hissue) fun u => ?_
    rw [hst, hp]
    exact hall u
  | claimed t hi hdone hissue hused hpend ht hothers =>
    exact .claimed t hi (hd.trans hdone) (hc.trans hissue) (hu.trans hused) (hp.trans hpend)
      ((hst t).trans ht)
      fun u h => (hst u).trans (hothers u h)
  | posted t hi hdone hissue hpend ht hothers =>
    exact .posted t hi (hd.trans hdone) (hc.trans hissue) (hp.trans hpend) ((hst t).trans ht)
      fun u h => (hst u).trans (hothers u h)
  | issued t hdone hissue hpend ht hothers =>
    refine .issued t (hd.trans hdone) (hc.trans hissue) (hp.trans hpend) ?_
      fun u h => (hst u).trans (hothers u h)
    rw [hst]
    exact ht
  | completed t hi hdone hissue hpend ht hothers =>
    refine .completed t hi (hd.trans hdone) (hc.trans hissue) (hp.trans hpend) ?_
      fun u h => (hst u).trans (hothers u h)
    rw [hst]
    exact ht
  | acknowledged t hdone hissue hpend ht hothers =>
    refine .acknowledged t (hd.trans hdone) (hc.trans hissue) (hp.trans hpend) ?_
      fun u h => (hst u).trans (hothers u h)
    rw [hst]
    exact ht

theorem syncBitTestAndSet_ne_zero (w : BitVec 32) (i : ℕ) : (syncBitTestAndSet w i).1 ≠ 0 := by
  simp only [syncBitTestAndSet]
  split_ifs <;> decide

/-- What the statement of the thread `t` does, with what it has tested. -/
inductive ThreadStep (p : Port) (t : ℕ) : Pc → Port → Prop where
  | cleanFound (n i : ℕ) (hpend : p.pendingCommands i = some t)
      (hdone : p.doneCommands.getLsbD i = true) : ThreadStep p t (.clean n i)
      (p.setPc t (.cleanFound n i))
  | cleanNext (n i : ℕ) : ThreadStep p t (.clean n i) (p.setPc t (.clean n (i + 1)))
  | cleanEnd (n i : ℕ) : ThreadStep p t (.clean n i) (p.setPc t (.readMask (.read (n - 1))))
  | cleanConsume (n i : ℕ) : ThreadStep p t (.cleanFound n i)
      ({ p with doneCommands := bitClear p.doneCommands i }.setPc t (.cleanRelease n i))
  | cleanRelease (n i : ℕ) : ThreadStep p t (.cleanRelease n i)
      ((p.setPending i none).setPc t (.clean n (i + 1)))
  | readMask (k : Caller) (mask : BitVec 32) : ThreadStep p t (.readMask k)
      (p.setPc t (.scan k mask 0))
  | scanFound (k : Caller) (mask : BitVec 32) (i : ℕ) (hi : i < p.maxCommandSlots) :
      ThreadStep p t (.scan k mask i) (p.setPc t (.claim k mask i))
  | scanNext (k : Caller) (mask : BitVec 32) (i : ℕ) :
      ThreadStep p t (.scan k mask i) (p.setPc t (.scan k (mask >>> 1) (i + 1)))
  | scanAgain (k : Caller) (mask : BitVec 32) (i : ℕ) :
      ThreadStep p t (.scan k mask i) (p.setPc t (.readMask k))
  | claim (k : Caller) (mask : BitVec 32) (i : ℕ) : ThreadStep p t (.claim k mask i)
      ({ p with usedCommandSlots := (syncBitTestAndSet p.usedCommandSlots i).2 }.setPc t
      (.allocated k i))
  | refused (i : ℕ) (hpend : p.pendingCommands i ≠ none) :
      ThreadStep p t (.allocated .issue i) (p.setPc t .outside)
  | enter (k : Caller) (i : ℕ) (hk : ¬(k = .issue ∧ p.pendingCommands i ≠ none)) :
      ThreadStep p t (.allocated k i) (p.setPc t (.store k i))
  | store (k : Caller) (i : ℕ) : ThreadStep p t (.store k i)
      ((p.setPending i (some t)).setPc t (.posted k i))
  | post (k : Caller) (i : ℕ) : ThreadStep p t (.posted k i)
      ({ p with commandIssue := bitTestAndSet p.commandIssue i }.setPc t (Port.afterIssue i k))
  | waitNext (b : Bool) (i : ℕ) (hpend : p.pendingCommands i ≠ some t) :
      ThreadStep p t (.wait b i) (p.setPc t (.wait b (i + 1)))
  | waitFound (b : Bool) (i : ℕ) (hpend : p.pendingCommands i = some t)
      (hdone : p.doneCommands.getLsbD i = true) : ThreadStep p t (.wait b i)
      (p.setPc t (.waitFound i))
  | waitPending (b : Bool) (i : ℕ) : ThreadStep p t (.wait b i) (p.setPc t (.wait true (i + 1)))
  | waitAgain (b : Bool) (i : ℕ) : ThreadStep p t (.wait b i) (p.setPc t (.wait false 0))
  | waitEnd (b : Bool) (i : ℕ) : ThreadStep p t (.wait b i) (p.setPc t .outside)
  | waitConsume (i : ℕ) : ThreadStep p t (.waitFound i)
      ({ p with doneCommands := bitClear p.doneCommands i }.setPc t (.waitRelease i))
  | waitRelease (i : ℕ) : ThreadStep p t (.waitRelease i)
      ((p.setPending i none).setPc t (.wait true (i + 1)))
  | awaitFound (i : ℕ) (hdone : p.doneCommands.getLsbD i = true) :
      ThreadStep p t (.await i) (p.setPc t (.awaitFound i))
  | awaitAgain (i : ℕ) : ThreadStep p t (.await i) (p.setPc t (.await i))
  | awaitConsume (i : ℕ) : ThreadStep p t (.awaitFound i)
      ({ p with doneCommands := bitClear p.doneCommands i }.setPc t (.awaitRelease i))
  | awaitRelease (i : ℕ) : ThreadStep p t (.awaitRelease i) ((p.setPending i none).setPc t .outside)

theorem threadStep_cases (hs : p.threadStep t = some p') :
    ∃ pc, p.pcs t = pc ∧ ThreadStep p t pc p' := by
  cases hpc : p.pcs t with
  | outside => simp only [Port.threadStep, hpc, reduceCtorEq] at hs
  | clean n i =>
    simp only [Port.threadStep, hpc] at hs
    split_ifs at hs with hi hfound
    · exact ⟨_, rfl, Option.some.inj hs ▸ .cleanFound n i hfound.1 hfound.2⟩
    · exact ⟨_, rfl, Option.some.inj hs ▸ .cleanNext n i⟩
    · exact ⟨_, rfl, Option.some.inj hs ▸ .cleanEnd n i⟩
  | scan k mask i =>
    simp only [Port.threadStep, hpc] at hs
    split_ifs at hs with hi hfree
    · exact ⟨_, rfl, Option.some.inj hs ▸ .scanFound k mask i hi⟩
    · exact ⟨_, rfl, Option.some.inj hs ▸ .scanNext k mask i⟩
    · exact ⟨_, rfl, Option.some.inj hs ▸ .scanAgain k mask i⟩
  | claim k mask i =>
    simp only [Port.threadStep, hpc, if_neg (syncBitTestAndSet_ne_zero _ _)] at hs
    exact ⟨_, rfl, Option.some.inj hs ▸ .claim k mask i⟩
  | allocated k i =>
    simp only [Port.threadStep, hpc] at hs
    split_ifs at hs with hk
    · obtain ⟨rfl, hpend⟩ := hk
      exact ⟨_, rfl, Option.some.inj hs ▸ .refused i hpend⟩
    · exact ⟨_, rfl, Option.some.inj hs ▸ .enter k i hk⟩
  | wait b i =>
    simp only [Port.threadStep, hpc] at hs
    split_ifs at hs with hi hpend hdone hflag
    · exact ⟨_, rfl, Option.some.inj hs ▸ .waitNext b i hpend⟩
    · exact ⟨_, rfl, Option.some.inj hs ▸ .waitFound b i (not_not.mp hpend) hdone⟩
    · exact ⟨_, rfl, Option.some.inj hs ▸ .waitPending b i⟩
    · exact ⟨_, rfl, Option.some.inj hs ▸ .waitAgain b i⟩
    · exact ⟨_, rfl, Option.some.inj hs ▸ .waitEnd b i⟩
  | await i =>
    simp only [Port.threadStep, hpc] at hs
    split_ifs at hs with hdone
    · exact ⟨_, rfl, Option.some.inj hs ▸ .awaitFound i hdone⟩
    · exact ⟨_, rfl, Option.some.inj hs ▸ .awaitAgain i⟩
  | _ =>
    -- the other statements have one outcome
    simp only [Port.threadStep, hpc] at hs
    exact ⟨_, rfl, Option.some.inj hs ▸ by constructor⟩

theorem getLsbD_bitClear (w : BitVec 32) (i j : ℕ) :
    (bitClear w i).getLsbD j = (w.getLsbD j && decide (j ≠ i)) := by
  rw [bitClear, BitVec.getLsbD_and, BitVec.getLsbD_not, BitVec.getLsbD_twoPow]
  by_cases hj : j < 32
  · by_cases hij : j = i
    · simp [hij, hij ▸ hj]
    · simp [hj, hij, Ne.symm hij]
  · simp [BitVec.getLsbD_of_ge w j (by omega)]

theorem stage_setPc (p : Port) (t : ℕ) (pc : Pc) (u i : ℕ) :
    (p.setPc t pc).stage u i = if u = t then pc.stageAt i else p.stage u i := by
  simp only [Port.stage, Port.setPc, Function.update_apply]
  split_ifs <;> rfl

def Exclusive (p : Port) (g : Commands) : Prop := ∀ i, SlotOk p i (g i)

theorem Exclusive.at_slot {g' : Commands} (h : Exclusive p g) (hsame : ∀ j, j ≠ i → SameSlot p p' j)
    (hg : ∀ j, j ≠ i → g' j = g j) (hi : SlotOk p' i (g' i)) : Exclusive p' g' := by
  intro j
  by_cases hj : j = i
  · exact hj ▸ hi
  · rw [hg j hj]
    exact (h j).congr (hsame j hj)

theorem SameSlot.refl (p : Port) (j : ℕ) : SameSlot p p j := ⟨rfl, rfl, rfl, rfl, fun _ => rfl⟩

/-- A thread that goes on to another statement does not change what it is about to do to the slot
`j`. -/
theorem SameSlot.setPc {q : Port} (hq : SameSlot p q j) (hpc : q.pcs t = pc)
    (hstage : pc'.stageAt j = pc.stageAt j) : SameSlot p (q.setPc t pc') j := by
  refine ⟨hq.done, hq.issue, hq.used, hq.pending, fun u => ?_⟩
  rw [stage_setPc, ← hq.stage u]
  split_ifs with hu
  · rw [hstage, hu, Port.stage, hpc]
  · rfl

theorem Exclusive.setPc (h : Exclusive p g) (hpc : p.pcs t = pc)
    (hstage : ∀ j, pc'.stageAt j = pc.stageAt j) : Exclusive (p.setPc t pc') g :=
  fun j => (h j).congr ((SameSlot.refl p j).setPc hpc (hstage j))

theorem SlotOk.found (h : SlotOk p i l) (hdone : p.doneCommands.getLsbD i = true)
    (hown : p.pendingCommands i = some t ∧ p.stage t i = .away ∨ p.stage t i = .awaits)
    (hpc' : pc'.stageAt i = .consumes) : SlotOk (p.setPc t pc') i l := by
  cases h with
  | free hd => rw [hdone] at hd; cases hd
  | claimed v _ hd => rw [hdone] at hd; cases hd
  | posted v _ hd => rw [hdone] at hd; cases hd
  | issued v hd => rw [hdone] at hd; cases hd
  | completed v _ hd => rw [hdone] at hd; cases hd
  | acknowledged v hd hissue hpend hv hothers =>
    have hvt : v = t := by
      rcases hown with ⟨hp, _⟩ | hst
      · exact Option.some.inj (hpend.symm.trans hp)
      · by_contra hne
        rw [hothers t (Ne.symm hne)] at hst
        cases hst
    subst hvt
    refine .acknowledged v hd hissue hpend (Or.inr (Or.inr ?_)) fun u hu => ?_
    · rw [stage_setPc, if_pos rfl, hpc']
    · rw [stage_setPc, if_neg hu]
      exact hothers u hu

/-- A thread that is about to do something to the slot owns its command, or has just given it up. -/
theorem SlotOk.owner (h : SlotOk p i l) (hst : p.stage t i ≠ .away) :
    l = [] ∧ p.stage t i = .releases ∨ ∃ ph, l = [(t, ph)] := by
  have hsame {v : ℕ} (hothers : ∀ u, u ≠ v → p.stage u i = .away) : v = t := by
    by_contra hne
    exact hst (hothers t (Ne.symm hne))
  cases h with
  | free _ _ hall =>
    rcases hall t with ⟨h, _⟩ | ⟨h, _⟩
    · exact absurd h hst
    · exact Or.inl ⟨rfl, h⟩
  | claimed v _ _ _ _ _ _ hothers => exact Or.inr ⟨_, by rw [hsame hothers]⟩
  | posted v _ _ _ _ _ hothers => exact Or.inr ⟨_, by rw [hsame hothers]⟩
  | issued v _ _ _ _ hothers => exact Or.inr ⟨_, by rw [hsame hothers]⟩
  | completed v _ _ _ _ _ hothers => exact Or.inr ⟨_, by rw [hsame hothers]⟩
  | acknowledged v _ _ _ _ hothers => exact Or.inr ⟨_, by rw [hsame hothers]⟩

theorem SlotOk.of_consumes (h : SlotOk p i l) (hst : p.stage t i = .consumes) :
    l = [(t, .acknowledged)] ∧ p.doneCommands.getLsbD i = true ∧ p.commandIssue.getLsbD i = false ∧
      p.pendingCommands i = some t ∧ ∀ u, u ≠ t → p.stage u i = .away := by
  rcases h.owner (by rw [hst]; simp) with ⟨_, hr⟩ | ⟨ph, rfl⟩
  · rw [hst] at hr
    cases hr
  · cases h with
    | claimed _ _ _ _ _ _ ht => simp [hst] at ht
    | posted _ _ _ _ _ ht => simp [hst] at ht
    | issued _ _ _ _ ht => simp [hst] at ht
    | completed _ _ _ _ _ ht => simp [hst] at ht
    | acknowledged _ hdone hissue hpend _ hothers => exact ⟨rfl, hdone, hissue, hpend, hothers⟩

theorem SlotOk.of_releases (h : SlotOk p i l) (hst : p.stage t i = .releases) :
    l = [] ∧ p.doneCommands.getLsbD i = false ∧ p.commandIssue.getLsbD i = false ∧
      p.pendingCommands i = some t ∧ ∀ u, u ≠ t → p.stage u i = .away := by
  rcases h.owner (by rw [hst]; simp) with ⟨rfl, _⟩ | ⟨ph, rfl⟩
  · cases h with
    | free hdone hissue hall =>
      have hpend : p.pendingCommands i = some t := by
        rcases hall t with ⟨h, _⟩ | ⟨_, h⟩
        · simp [hst] at h
        · exact h
      refine ⟨rfl, hdone, hissue, hpend, fun u hu => ?_⟩
      rcases hall u with ⟨h, _⟩ | ⟨_, h⟩
      · exact h
      · exact absurd (Option.some.inj (h.symm.trans hpend)) hu
  · cases h with
    | claimed _ _ _ _ _ _ ht => simp [hst] at ht
    | posted _ _ _ _ _ ht => simp [hst] at ht
    | issued _ _ _ _ ht => simp [hst] at ht
    | completed _ _ _ _ _ ht => simp [hst] at ht
    | acknowledged _ _ _ _ ht => simp [hst] at ht

theorem SlotOk.of_claims (h : SlotOk p i l) (hst : p.stage t i = .claims) :
    l = [(t, .claimed)] ∧ i < 32 ∧ p.doneCommands.getLsbD i = false ∧
    p.commandIssue.getLsbD i = false ∧
      p.pendingCommands i = none ∧ ∀ u, u ≠ t → p.stage u i = .away := by
  rcases h.owner (by rw [hst]; simp) with ⟨_, hr⟩ | ⟨ph, rfl⟩
  · rw [hst] at hr
    cases hr
  · cases h with
    | claimed _ hi hdone hissue _ hpend _ hothers => exact ⟨rfl, hi, hdone, hissue, hpend, hothers⟩
    | posted _ _ _ _ _ ht => simp [hst] at ht
    | issued _ _ _ _ ht => simp [hst] at ht
    | completed _ _ _ _ _ ht => simp [hst] at ht
    | acknowledged _ _ _ _ ht => simp [hst] at ht

theorem SlotOk.of_posts (h : SlotOk p i l) (hst : p.stage t i = .posts) :
    l = [(t, .claimed)] ∧ i < 32 ∧ p.doneCommands.getLsbD i = false ∧
    p.commandIssue.getLsbD i = false ∧
      p.pendingCommands i = some t ∧ ∀ u, u ≠ t → p.stage u i = .away := by
  rcases h.owner (by rw [hst]; simp) with ⟨_, hr⟩ | ⟨ph, rfl⟩
  · rw [hst] at hr
    cases hr
  · cases h with
    | claimed _ _ _ _ _ _ ht => simp [hst] at ht
    | posted _ hi hdone hissue hpend _ hothers => exact ⟨rfl, hi, hdone, hissue, hpend, hothers⟩
    | issued _ _ _ _ ht => simp [hst] at ht
    | completed _ _ _ _ _ ht => simp [hst] at ht
    | acknowledged _ _ _ _ ht => simp [hst] at ht

theorem stage_other (p : Port) {pc : Pc} (hu : u ≠ t) : (p.setPc t pc).stage u i = p.stage u i := by
  rw [stage_setPc, if_neg hu]

theorem stage_self (p : Port) (t : ℕ) (pc : Pc) (i : ℕ) :
    (p.setPc t pc).stage t i = pc.stageAt i := by
  rw [stage_setPc, if_pos rfl]

theorem SlotOk.consume (h : SlotOk p i l) (hst : p.stage t i = .consumes)
    (hpc' : pc'.stageAt i = .releases) :
    SlotOk ({ p with doneCommands := bitClear p.doneCommands i }.setPc t pc') i
      (l.filter fun x => x.1 ≠ t) := by
  obtain ⟨rfl, _, hissue, hpend, hothers⟩ := h.of_consumes hst
  have hempty : [(t, Phase.acknowledged)].filter (fun x => x.1 ≠ t) = [] := by simp
  rw [hempty]
  refine .free ?_ hissue fun u => ?_
  · change (bitClear p.doneCommands i).getLsbD i = false
    simp [getLsbD_bitClear]
  · by_cases hu : u = t
    · subst hu
      exact Or.inr ⟨(stage_self _ u pc' i).trans hpc', hpend⟩
    · rw [stage_other _ hu]
      exact Or.inl ⟨hothers u hu, fun hp => hu (Option.some.inj (hp.symm.trans hpend))⟩

theorem SlotOk.release (h : SlotOk p i l) (hst : p.stage t i = .releases)
    (hpc' : pc'.stageAt i = .away) :
    SlotOk ((p.setPending i none).setPc t pc') i l := by
  obtain ⟨rfl, hdone, hissue, _, hothers⟩ := h.of_releases hst
  have hnone : ((p.setPending i none).setPc t pc').pendingCommands i = none :=
    Function.update_self _ _ _
  refine .free hdone hissue fun u => Or.inl ⟨?_, by rw [hnone]; simp⟩
  by_cases hu : u = t
  · subst hu
    exact (stage_self _ u pc' i).trans hpc'
  · rw [stage_other _ hu]
    exact hothers u hu

theorem SlotOk.claim (h : SlotOk p i l) (hi : i < 8)
    (hused : p.usedCommandSlots.getLsbD i = false) (hpend : p.pendingCommands i = none)
    (hpc' : pc'.stageAt i = .claims) :
    SlotOk ({ p with usedCommandSlots := (syncBitTestAndSet p.usedCommandSlots i).2 }.setPc t pc') i
      ((t, .claimed) :: l) := by
  cases h with
  | free hdone hissue hall =>
    refine .claimed t (by
      omega) hdone hissue ?_ hpend ((stage_self _ t pc' i).trans hpc') fun u hu => ?_
    · change (bitTestAndSet p.usedCommandSlots (i % 8)).getLsbD i = true
      rw [Nat.mod_eq_of_lt hi, getLsbD_bitTestAndSet]
      simp
      omega
    · rw [stage_other _ hu]
      rcases hall u with ⟨h, _⟩ | ⟨_, h⟩
      · exact h
      · rw [hpend] at h
        cases h
  | claimed _ _ _ _ hu => rw [hused] at hu; cases hu
  | posted _ _ _ _ hp => rw [hpend] at hp; cases hp
  | issued _ _ _ hp => rw [hpend] at hp; cases hp
  | completed _ _ _ _ hp => rw [hpend] at hp; cases hp
  | acknowledged _ _ _ hp => rw [hpend] at hp; cases hp

theorem SlotOk.post (h : SlotOk p i l) (hst : p.stage t i = .claims)
    (hpc' : pc'.stageAt i = .posts) :
    SlotOk ((p.setPending i (some t)).setPc t pc') i l := by
  obtain ⟨rfl, hi, hdone, hissue, _, hothers⟩ := h.of_claims hst
  refine .posted t hi hdone hissue (Function.update_self _ _ _) ((stage_self _ t pc' i).trans hpc')
    fun u hu => ?_
  rw [stage_other _ hu]
  exact hothers u hu

theorem SlotOk.issue (h : SlotOk p i l) (hst : p.stage t i = .posts)
    (hpc' : pc'.stageAt i = .away ∨ pc'.stageAt i = .awaits) :
    SlotOk ({ p with commandIssue := bitTestAndSet p.commandIssue i }.setPc t pc') i
      (l.map (Commands.advanced (some t) .claimed .issued)) := by
  obtain ⟨rfl, hi, hdone, _, hpend, hothers⟩ := h.of_posts hst
  have hlist : [(t, Phase.claimed)].map (Commands.advanced (some t) .claimed .issued) =
      [(t, .issued)] := by
    simp [Commands.advanced]
  rw [hlist]
  refine .issued t hdone ?_ hpend ?_ fun u hu => ?_
  · change (bitTestAndSet p.commandIssue i).getLsbD i = true
    simp [hi]
  · rw [stage_self]
    exact hpc'
  · rw [stage_other _ hu]
    exact hothers u hu

theorem SlotOk.complete (h : SlotOk p c l) (hc : p.commandIssue.getLsbD c = true) :
    SlotOk { p with commandIssue := bitClear p.commandIssue c } c
      (l.map (Commands.advanced none .issued .completed)) := by
  cases h with
  | free _ hissue => rw [hc] at hissue; cases hissue
  | claimed _ _ _ hissue => rw [hc] at hissue; cases hissue
  | posted _ _ _ hissue => rw [hc] at hissue; cases hissue
  | completed _ _ _ hissue => rw [hc] at hissue; cases hissue
  | acknowledged _ _ hissue => rw [hc] at hissue; cases hissue
  | issued v hdone _ hpend hv hothers =>
    refine .completed v (BitVec.lt_of_getLsbD hc) hdone ?_ hpend hv hothers
    change (bitClear p.commandIssue c).getLsbD c = false
    simp [getLsbD_bitClear]

/-- The handler acknowledges a command that is completed, or one that it has acknowledged before. -/
theorem SlotOk.acknowledge {q : Port} (h : SlotOk p c l) (hpend : p.pendingCommands c = some t)
    (hc : p.commandIssue.getLsbD c = false) (hposts : p.stage t c ≠ .posts)
    (hreleases : p.stage t c ≠ .releases)
    (hdone' : q.doneCommands = bitTestAndSet p.doneCommands c)
    (hissue' : q.commandIssue = p.commandIssue) (hpend' : q.pendingCommands = p.pendingCommands)
    (hpcs' : q.pcs = p.pcs) :
    SlotOk q c (l.map (Commands.advanced none .completed .acknowledged)) := by
  have hstage (u : ℕ) : q.stage u c = p.stage u c := by
    rw [Port.stage, hpcs', Port.stage]
  have hset (hi : c < 32) : q.doneCommands.getLsbD c = true := by
    rw [hdone']
    simp [hi]
  cases h with
  | free _ _ hall =>
    rcases hall t with ⟨_, h⟩ | ⟨h, _⟩
    · exact absurd hpend h
    · exact absurd h hreleases
  | claimed _ _ _ _ _ hp => rw [hpend] at hp; cases hp
  | posted v _ _ _ hp hv =>
    obtain rfl := Option.some.inj (hpend.symm.trans hp)
    exact absurd hv hposts
  | issued _ _ hissue => rw [hc] at hissue; cases hissue
  | completed v hi _ _ hp hv hothers =>
    refine .acknowledged v (hset hi) (hissue' ▸ hc) (hpend' ▸ hp) ?_ fun u hu => ?_
    · rw [hstage]
      exact hv.imp_right Or.inl
    · rw [hstage]
      exact hothers u hu
  | acknowledged v hd _ hp hv hothers =>
    refine .acknowledged v (hset (BitVec.lt_of_getLsbD hd)) (hissue' ▸ hc) (hpend' ▸ hp) ?_
      fun u hu => ?_
    · rw [hstage]
      exact hv
    · rw [hstage]
      exact hothers u hu

theorem sameSlot_done (p : Port) (hj : j ≠ i) :
    SameSlot p { p with doneCommands := bitClear p.doneCommands i } j := by
  refine ⟨?_, rfl, rfl, rfl, fun _ => rfl⟩
  change (bitClear p.doneCommands i).getLsbD j = _
  simp [getLsbD_bitClear, hj]

theorem sameSlot_pending (p : Port) (th : Option ℕ) (hj : j ≠ i) :
    SameSlot p (p.setPending i th) j :=
  ⟨rfl, rfl, rfl, Function.update_of_ne hj _ _, fun _ => rfl⟩

theorem sameSlot_used (p : Port) (hi : i < 8) (hj : j ≠ i) :
    SameSlot p { p with usedCommandSlots := (syncBitTestAndSet p.usedCommandSlots i).2 } j := by
  refine ⟨rfl, rfl, ?_, rfl, fun _ => rfl⟩
  change (bitTestAndSet p.usedCommandSlots (i % 8)).getLsbD j = _
  rw [Nat.mod_eq_of_lt hi, getLsbD_bitTestAndSet]
  simp [hj]

theorem sameSlot_issue (p : Port) (hj : j ≠ i) :
    SameSlot p { p with commandIssue := bitTestAndSet p.commandIssue i } j := by
  refine ⟨rfl, ?_, rfl, rfl, fun _ => rfl⟩
  change (bitTestAndSet p.commandIssue i).getLsbD j = _
  simp [hj]

theorem Exclusive.consume (h : Exclusive p g) (hpc : p.pcs t = pc)
    (hst : ∀ j, pc.stageAt j = if i = j then .consumes else .away)
    (hst' : ∀ j, pc'.stageAt j = if i = j then .releases else .away) :
    Exclusive ({ p with doneCommands := bitClear p.doneCommands i }.setPc t pc') (g.drop t i) := by
  refine h.at_slot (i := i) (fun j hj => ?_) (fun j hj => Function.update_of_ne hj _ _) ?_
  · exact (sameSlot_done p hj).setPc hpc (by rw [hst, hst', if_neg hj.symm, if_neg hj.symm])
  · rw [Commands.drop, Function.update_self]
    refine (h i).consume ?_ ?_
    · rw [Port.stage, hpc, hst, if_pos rfl]
    · rw [hst', if_pos rfl]

theorem Exclusive.release (h : Exclusive p g) (hpc : p.pcs t = pc)
    (hst : ∀ j, pc.stageAt j = if i = j then .releases else .away)
    (hst' : ∀ j, pc'.stageAt j = .away) :
    Exclusive ((p.setPending i none).setPc t pc') g := by
  refine h.at_slot (i := i) (fun j hj => ?_) (fun j _ => rfl) ?_
  · exact (sameSlot_pending p none hj).setPc hpc (by rw [hst, hst', if_neg hj.symm])
  · refine (h i).release ?_ ?_
    · rw [Port.stage, hpc, hst, if_pos rfl]
    · rw [hst']

theorem Exclusive.found (h : Exclusive p g) (hpc : p.pcs t = pc)
    (hdone : p.doneCommands.getLsbD i = true)
    (hst : (∀ j, pc.stageAt j = .away) ∧ p.pendingCommands i = some t ∨
      ∀ j, pc.stageAt j = if i = j then .awaits else .away)
    (hst' : ∀ j, pc'.stageAt j = if i = j then .consumes else .away) :
    Exclusive (p.setPc t pc') g := by
  refine h.at_slot (i := i) (fun j hj => ?_) (fun j _ => rfl) ?_
  · refine (SameSlot.refl p j).setPc hpc ?_
    rw [hst', if_neg hj.symm]
    rcases hst with ⟨hst, _⟩ | hst
    · rw [hst]
    · rw [hst, if_neg hj.symm]
  · refine (h i).found hdone ?_ (by rw [hst', if_pos rfl])
    rw [Port.stage, hpc]
    rcases hst with ⟨hst, hp⟩ | hst
    · exact Or.inl ⟨hp, by rw [hst]⟩
    · exact Or.inr (by rw [hst, if_pos rfl])

theorem stageAt_ahciSataRead (n j : ℕ) : (Port.ahciSataRead n).stageAt j = .away := by
  unfold Port.ahciSataRead
  split_ifs <;> rfl

theorem stageAt_afterIssue (i j : ℕ) (k : Caller) : (Port.afterIssue i k).stageAt j = .away ∨
    i = j ∧ (Port.afterIssue i k).stageAt j = .awaits := by
  cases k with
  | read n => exact Or.inl (stageAt_ahciSataRead n j)
  | issue =>
    by_cases hij : i = j
    · exact Or.inr ⟨hij, if_pos hij⟩
    · exact Or.inl (if_neg hij)

theorem Exclusive.claim {k : Caller} {mask : BitVec 32} (h : Exclusive p g)
    (hpc : p.pcs t = .claim k mask i) (hi : i < 8) (hused : p.usedCommandSlots.getLsbD i = false)
    (hpend : p.pendingCommands i = none) :
    Exclusive ({ p with usedCommandSlots := (syncBitTestAndSet p.usedCommandSlots i).2 }.setPc t
      (.allocated k i)) (g.claim t i) := by
  refine h.at_slot (i := i) (fun j hj => ?_) (fun j hj => Function.update_of_ne hj _ _) ?_
  · refine (sameSlot_used p hi hj).setPc hpc ?_
    simp [Pc.stageAt, hj.symm]
  · rw [Commands.claim, Function.update_self]
    exact (h i).claim hi hused hpend (by simp [Pc.stageAt])

theorem Exclusive.store {k : Caller} (h : Exclusive p g) (hpc : p.pcs t = .store k i) :
    Exclusive ((p.setPending i (some t)).setPc t (.posted k i)) g := by
  refine h.at_slot (i := i) (fun j hj => ?_) (fun j _ => rfl) ?_
  · refine (sameSlot_pending p (some t) hj).setPc hpc ?_
    simp [Pc.stageAt, hj.symm]
  · refine (h i).post ?_ (by simp [Pc.stageAt])
    rw [Port.stage, hpc]
    exact if_pos rfl

theorem Exclusive.post {k : Caller} (h : Exclusive p g) (hpc : p.pcs t = .posted k i) :
    Exclusive ({ p with commandIssue := bitTestAndSet p.commandIssue i }.setPc t
      (Port.afterIssue i k))
      (g.advance (some t) i .claimed .issued) := by
  refine h.at_slot (i := i) (fun j hj => ?_) (fun j hj => Function.update_of_ne hj _ _) ?_
  · refine (sameSlot_issue p hj).setPc hpc ?_
    rw [(stageAt_afterIssue i j k).resolve_right fun hij => hj hij.1.symm]
    exact (if_neg hj.symm).symm
  · rw [Commands.advance, Function.update_self]
    refine (h i).issue ?_ ((stageAt_afterIssue i i k).imp_right And.right)
    rw [Port.stage, hpc]
    exact if_pos rfl

theorem Exclusive.threadStep (h : Exclusive p g) (hok : stepOk p (.step t) = true)
    (hs : p.threadStep t = some p') : Exclusive p' (noteStep p t g) := by
  obtain ⟨pc, hpc, hstep⟩ := threadStep_cases hs
  cases hstep with
  | cleanFound n i hpend hdone | waitFound b i hpend hdone =>
    simp only [noteStep, hpc]
    exact h.found hpc hdone (Or.inl ⟨fun _ => rfl, hpend⟩) fun _ => rfl
  | awaitFound i hdone =>
    simp only [noteStep, hpc]
    exact h.found hpc hdone (Or.inr fun _ => rfl) fun _ => rfl
  | cleanConsume | waitConsume | awaitConsume =>
    simp only [noteStep, hpc]
    exact h.consume hpc (fun _ => rfl) fun _ => rfl
  | cleanRelease | waitRelease | awaitRelease =>
    simp only [noteStep, hpc]
    exact h.release hpc (fun _ => rfl) fun _ => rfl
  | claim k mask i =>
    simp only [noteStep, hpc, if_neg (syncBitTestAndSet_ne_zero _ _)]
    simp only [stepOk, hpc, Bool.and_eq_true, decide_eq_true_eq, Bool.not_eq_true',
      Option.isNone_iff_eq_none] at hok
    exact h.claim hpc hok.1.1 hok.1.2 hok.2
  | refused i hpend =>
    have hclaims : p.stage t i = .claims := by
      rw [Port.stage, hpc]
      exact if_pos rfl
    exact absurd ((h i).of_claims hclaims).2.2.2.2.1 hpend
  | enter k i hk =>
    simp only [noteStep, hpc, if_neg hk]
    exact h.setPc hpc fun _ => rfl
  | store k i =>
    simp only [noteStep, hpc]
    exact h.store hpc
  | post k i =>
    simp only [noteStep, hpc]
    exact h.post hpc
  | _ =>
    simp only [noteStep, hpc]
    exact h.setPc hpc fun _ => rfl

theorem acknowledges_eq_some (ha : p.acknowledges = some c) :
    ∃ cmdIssue, p.handler = some (cmdIssue, c) ∧
    c < p.maxCommandSlots ∧ p.pendingCommands c ≠ none ∧ cmdIssue.getLsbD 0 = false := by
  unfold Port.acknowledges at ha
  split at ha
  · next cmdIssue d hh =>
    split_ifs at ha with hd
    obtain rfl := Option.some.inj ha
    exact ⟨cmdIssue, hh, hd⟩
  · cases ha

theorem Exclusive.handle (h : Exclusive p g) (hok : stepOk p .handle = true)
    (hs : ahciStep p .handle = some p') : Exclusive p' (noteAction p .handle g) := by
  cases hack : p.acknowledges with
  | some c =>
    obtain ⟨cmdIssue, hh, hc, hpend, hbit⟩ := acknowledges_eq_some hack
    obtain ⟨t, ht⟩ := Option.ne_none_iff_exists'.mp hpend
    simp only [stepOk, hack, ht, Option.all_some, Bool.and_eq_true, Bool.not_eq_true',
      decide_eq_true_eq]
      at hok
    simp only [ahciStep, hh, if_pos hc, Option.some.injEq] at hs
    simp only [noteAction, hack, ← hs]
    have hslot : p.handleSlot cmdIssue c = { p with
        handler := some (cmdIssue >>> 1, c + 1)
        doneCommands := bitTestAndSet p.doneCommands c
        usedCommandSlots := bitClear p.usedCommandSlots c } := if_pos ⟨hpend, hbit⟩
    rw [hslot]
    refine h.at_slot (i := c) (fun j hj => ⟨?_, rfl, ?_, rfl, fun _ => rfl⟩)
      (fun j hj => Function.update_of_ne hj _ _) ?_
    · change (bitTestAndSet p.doneCommands c).getLsbD j = _
      simp [hj]
    · change (bitClear p.usedCommandSlots c).getLsbD j = _
      simp [getLsbD_bitClear, hj]
    · rw [Commands.advance, Function.update_self]
      exact (h c).acknowledge ht hok.1 hok.2.1 hok.2.2 rfl rfl rfl rfl
  | none =>
    have hsame (q : Option (BitVec 32 × ℕ)) : Exclusive { p with handler := q } g :=
      fun j => (h j).congr ⟨rfl, rfl, rfl, rfl, fun _ => rfl⟩
    simp only [noteAction, hack]
    cases hh : p.handler with
    | none => simp only [ahciStep, hh, reduceCtorEq] at hs
    | some x =>
      obtain ⟨cmdIssue, c⟩ := x
      simp only [ahciStep, hh] at hs
      split_ifs at hs with hc
      · have hnot : ¬ (p.pendingCommands c ≠ none ∧ cmdIssue.getLsbD 0 = false) := by
          intro hcond
          have hsome : p.acknowledges = some c := by
            simp only [Port.acknowledges, hh, if_pos (⟨hc, hcond⟩ : _ ∧ _)]
          rw [hack] at hsome
          cases hsome
        have hslot : p.handleSlot cmdIssue c = { p with handler := some (cmdIssue >>> 1, c + 1) } :=
          if_neg hnot
        rw [← Option.some.inj hs, hslot]
        exact hsame _
      · rw [← Option.some.inj hs]
        exact hsame none

theorem Exclusive.step {a : Action} (h : Exclusive p g) (hok : stepOk p a = true)
    (hs : ahciStep p a = some p') : Exclusive p' (noteAction p a g) := by
  cases a with
  | read t n =>
    simp only [ahciStep] at hs
    split_ifs at hs with hpc
    rw [← Option.some.inj hs]
    exact h.setPc hpc (stageAt_ahciSataRead n)
  | issue t =>
    simp only [ahciStep] at hs
    split_ifs at hs with hpc
    rw [← Option.some.inj hs]
    exact h.setPc hpc fun _ => rfl
  | step t => exact h.threadStep hok hs
  | complete c =>
    simp only [ahciStep] at hs
    split_ifs at hs with hc
    rw [← Option.some.inj hs]
    refine h.at_slot (i := c) (fun j hj => ⟨rfl, ?_, rfl, rfl, fun _ => rfl⟩)
      (fun j hj => Function.update_of_ne hj _ _) ?_
    · change (bitClear p.commandIssue c).getLsbD j = _
      simp [getLsbD_bitClear, hj]
    · rw [noteAction, Commands.advance, Function.update_self]
      exact (h c).complete hc
  | interrupt =>
    simp only [ahciStep] at hs
    split at hs
    · rw [← Option.some.inj hs]
      exact fun j => (h j).congr ⟨rfl, rfl, rfl, rfl, fun _ => rfl⟩
    · cases hs
  | handle => exact h.handle hok hs

theorem exclusive_initial (maxCommandSlots : ℕ) (sataActive : BitVec 32) :
    Exclusive (.initial maxCommandSlots sataActive) (fun _ => []) := by
  intro i
  refine .free ?_ ?_ fun u => Or.inl ⟨rfl, Option.some_ne_none u |>.symm⟩
  · exact BitVec.getLsbD_zero
  · exact BitVec.getLsbD_zero

/-- The state after the listed steps of a port with the given number of slots. -/
def sampleRun (maxCommandSlots : ℕ) (sataActive : BitVec 32) (steps : List Action) :
    Option (Port × Commands) :=
  Runs.guardedRun (Runs.watched ahciStep noteAction) Runs.anyStep
    (.initial maxCommandSlots sataActive, fun _ => []) steps

/-- The thread `t` makes `n` steps. -/
def sampleSteps (t n : ℕ) : List Action := List.replicate n (.step t)

def twoReads : List Action :=
  [.read 1 1, .read 2 1] ++ sampleSteps 1 6 ++
    (List.replicate 3 [Action.step 2, .step 1]).flatten ++
    sampleSteps 2 7

/-- Both commands are completed before one interrupt, whose handler acknowledges both. -/
def bothDone : List Action := [.complete 1, .complete 0, .interrupt, .handle, .handle, .handle]

def sampleRead (t n : ℕ) : List Action := .read t 1 :: sampleSteps t n

def sampleBoth : List Action :=
  sampleRead 1 4 ++ sampleRead 2 4 ++ [.step 1, .step 2]

def sampleInTurn : List Action := sampleRead 1 21 ++ sampleRead 2 21

/-- A second thread allocates a slot after the interrupt for the command of the first one. -/
def sampleEarly : List Action :=
  sampleRead 1 8 ++ .complete 0 :: .interrupt :: .handle :: sampleRead 2 5

def samplePremature : List Action :=
  sampleRead 1 7 ++ .interrupt :: .handle :: sampleSteps 1 2

/-- Two threads issue a command in the same slot, and the second one sees it done. -/
def sampleLost : List Action :=
  [.issue 1, .issue 2, .step 1, .step 1, .step 2, .step 2, .step 1, .step 2, .step 1, .step 2,
    .step 1, .step 1, .step 2, .step 2, .complete 0, .interrupt, .handle, .step 2, .step 2]

end DevOs.Ahci
