import DevOs.Lib.Choice
import DevOs.Lib.Runs
import DevOs.Lib.Threads
import Mathlib.Data.List.FinRange
import Mathlib.Data.Nat.Bitwise
import Mathlib.Data.Nat.ModEq
import Mathlib.Data.Fintype.Basic

/-!
# The asynchronous schedule of an EHCI controller

The queue heads of the open queues are threaded through their horizontal links, in the order in
which the queues were opened. `EhciOpenAsyncQueue` puts a queue behind `LastAsyncQueue`.
`EhciCloseAsyncQueue` looks for the neighbours of a queue by the numbers of the slots instead, and
it leaves `LastAsyncQueue` alone, but for slot 0.
-/

namespace DevOs.Usb

open DevOs.Choice DevOs.Runs DevOs.Threads

abbrev ehciMaxQh : ℕ := 0x100

/-- `AssignedMemory`, which is allocated with the alignment `0x1000`. -/
structure AssignedMemory where
  start : ℕ
  aligned : 0x1000 ∣ start

/-- `(UINT32)(UINT64)QueueHead`, for the queue head at `EHCI_QH_START + i *
EHCI_ALIGNED_QH_SIZE`. -/
def AssignedMemory.queueHead (m : AssignedMemory) (i : Fin ehciMaxQh) : ℕ :=
  (m.start + 0x1000 + i * 0x60) % 2 ^ 32

/-- The transfer fields of a queue head are left out. -/
structure QueueHead where
  horizontalLinkPointer : ℕ
  headOfReclamationListFlag : Bool
deriving DecidableEq, Repr

/-- A slot of `AsyncQueues`. The field `queueHead` is the number of a queue head, or NULL. -/
structure AsyncQueue where
  present : Bool
  id : Fin ehciMaxQh
  queueHead : Option (Fin ehciMaxQh)
deriving DecidableEq, Repr

structure EhciDevice where
  asyncQueues : Fin ehciMaxQh → AsyncQueue
  queueHeads : Fin ehciMaxQh → QueueHead
  asyncListAddress : ℕ
  asyncScheduleEnable : Bool
  lastAsyncQueue : Option (Fin ehciMaxQh)

/-- `EHCI_TYPE_QUEUE_HEAD << 1` -/
def queueHeadType : ℕ := 1 <<< 1

def linkTo (m : AssignedMemory) (i : Fin ehciMaxQh) : ℕ := m.queueHead i ||| queueHeadType

def terminate : ℕ := 1 ||| queueHeadType

/-- The first slot from `b` on that meets a condition. -/
def firstFrom (p : Fin ehciMaxQh → Bool) (b : ℕ) : Option (Fin ehciMaxQh) :=
  (List.finRange ehciMaxQh).find? fun i => decide (b ≤ i.val) && p i

/-- The last slot below `b` that meets a condition. -/
def lastBelow (p : Fin ehciMaxQh → Bool) (b : ℕ) : Option (Fin ehciMaxQh) :=
  (List.finRange ehciMaxQh).reverse.find? fun i => decide (i.val < b) && p i

def AsyncQueue.zero : AsyncQueue := ⟨false, ⟨0, Nat.succ_pos _⟩, none⟩

def QueueHead.zero : QueueHead := ⟨0, false⟩

namespace EhciDevice

def present (e : EhciDevice) (i : Fin ehciMaxQh) : Bool := (e.asyncQueues i).present

def link (e : EhciDevice) (i : Fin ehciMaxQh) : ℕ := (e.queueHeads i).horizontalLinkPointer

def flag (e : EhciDevice) (i : Fin ehciMaxQh) : Bool := (e.queueHeads i).headOfReclamationListFlag

def setLink (e : EhciDevice) (i : Fin ehciMaxQh) (w : ℕ) : EhciDevice :=
  { e with
    queueHeads := Function.update e.queueHeads i
      { e.queueHeads i with horizontalLinkPointer := w } }

def setFlag (e : EhciDevice) (i : Fin ehciMaxQh) : EhciDevice :=
  { e with
    queueHeads := Function.update e.queueHeads i
      { e.queueHeads i with headOfReclamationListFlag := true } }

def setQueue (e : EhciDevice) (i : Fin ehciMaxQh) (q : AsyncQueue) : EhciDevice :=
  { e with asyncQueues := Function.update e.asyncQueues i q }

/-- `ObjZeroMemory` of the queue head and of the queue. -/
def zero (e : EhciDevice) (k head : Fin ehciMaxQh) : EhciDevice :=
  { e with
    queueHeads := Function.update e.queueHeads head QueueHead.zero
    asyncQueues := Function.update e.asyncQueues k AsyncQueue.zero }

end EhciDevice

/-- `EhciOpenAsyncQueue`. There is no result when a field of NULL is accessed. -/
def ehciOpenAsyncQueue (m : AssignedMemory) (e : EhciDevice) :
    Option (EhciDevice × Option (Fin ehciMaxQh)) :=
  match firstFrom (fun i => !e.present i) 0 with
  | none => some (e, none)
  | some i =>
    let e := (e.setQueue i ⟨true, i, some i⟩).setLink i terminate
    match e.lastAsyncQueue with
    | some last => do
      let head ← (e.asyncQueues last).queueHead
      pure ({ e.setLink head (linkTo m i) with lastAsyncQueue := some i }, some i)
    | none => some ({ e.setFlag i with
        asyncListAddress := m.queueHead i, asyncScheduleEnable := true, lastAsyncQueue :=
          some i }, some i)

/-- `EhciCloseAsyncQueue`, which always returns TRUE. There is no result when a field of NULL is
accessed, as that of the controller of a queue that is not open is, or a slot outside
`AsyncQueues`. The waits for the controller, which follow every change of `AsyncScheduleEnable`
to 0, are left out. -/
def ehciCloseAsyncQueue (m : AssignedMemory) (e : EhciDevice) (k : Fin ehciMaxQh) :
    Option EhciDevice := do
  let head ← (e.asyncQueues k).queueHead
  let id := (e.asyncQueues k).id.val
  if id = 0 then
    match firstFrom e.present 1 with
    | some i =>
      let base ← (e.asyncQueues i).queueHead
      pure { (e.setFlag base).zero k head with
        asyncListAddress := m.queueHead base, lastAsyncQueue :=
          some i, asyncScheduleEnable := true }
    | none => pure { e.zero k head with
        asyncListAddress := 0, lastAsyncQueue := none, asyncScheduleEnable := false }
  else
    -- the condition `i >= 0` of the downward loop holds of every `UINT`: without a queue below it
    -- leaves the array
    let previousQueue ← lastBelow e.present id
    let previous ← (e.asyncQueues previousQueue).queueHead
    match firstFrom e.present (id + 1) with
    | some nextQueue =>
      let next ← (e.asyncQueues nextQueue).queueHead
      pure ((e.setLink previous (linkTo m next)).zero k head)
    | none => pure ((e.setLink previous terminate).zero k head)

inductive AsyncCall where
  | openQueue
  | closeQueue (k : Fin ehciMaxQh)
deriving DecidableEq, Repr

def asyncStep (m : AssignedMemory) (e : EhciDevice) : AsyncCall → Option EhciDevice
  | .openQueue => (ehciOpenAsyncQueue m e).map Prod.fst
  | .closeQueue k => ehciCloseAsyncQueue m e k

def CallValid (e : EhciDevice) : AsyncCall → Prop
  | .openQueue => True
  | .closeQueue k => e.present k = true

/-- The state in which `ehci.c` leaves a controller. The register of the list holds any value. -/
def EhciDevice.initial (asyncListAddress : ℕ) : EhciDevice where
  asyncQueues := fun _ => AsyncQueue.zero
  queueHeads := fun _ => QueueHead.zero
  asyncListAddress := asyncListAddress
  asyncScheduleEnable := false
  lastAsyncQueue := none

/-- The controller comes from the link to the queue head. The lowest five bits are no part of its
address. -/
def Leads (m : AssignedMemory) (w : ℕ) (i : Fin ehciMaxQh) : Prop :=
  w % 2 = 0 ∧ w / 32 * 32 = m.queueHead i

instance (m : AssignedMemory) (w : ℕ) (i : Fin ehciMaxQh) : Decidable (Leads m w i) :=
  inferInstanceAs (Decidable (_ ∧ _))

def Ends (w : ℕ) : Prop := w % 2 = 1

/-- The schedule consists of the queue heads of the list. -/
structure Scheduled (m : AssignedMemory) (e : EhciDevice) (l : List (Fin ehciMaxQh)) : Prop where
  visited : if e.asyncScheduleEnable then Thread (Leads m) Ends e.link e.asyncListAddress l
    else l = []
  once : l.Nodup
  present : ∀ i, e.present i = true ↔ i ∈ l
  flagged : ∀ i, e.flag i = true ↔ l.head? = some i
  last : e.lastAsyncQueue = l.getLast?

def ScheduleRight (m : AssignedMemory) (e : EhciDevice) : Prop := ∃ l, Scheduled m e l

/-- No slot between `p` and `k` has an open queue. -/
def NearestBelow (e : EhciDevice) (k p : Fin ehciMaxQh) : Prop :=
  e.present p = true ∧ p < k ∧ ∀ i, e.present i = true → i < k → i ≤ p

def NearestAbove (e : EhciDevice) (k q : Fin ehciMaxQh) : Prop :=
  e.present q = true ∧ k < q ∧ ∀ i, e.present i = true → k < i → q ≤ i

/-- The queue of slot 0 is the only one, or the first of two. Another queue stands between those of
the nearest slots. -/
def Closable (m : AssignedMemory) (e : EhciDevice) (k : Fin ehciMaxQh) : Prop :=
  if k.val = 0 then
    (∀ i, e.present i = true → i = k) ∨
      ∃ j, j ≠ k ∧ e.present j = true ∧ (∀ i, e.present i = true → i = k ∨ i = j) ∧
      Leads m (e.link k) j
  else (∃ p, NearestBelow e k p ∧ Leads m (e.link p) k) ∧ ∃ q, NearestAbove e k q ∧
    Leads m (e.link k) q

def KeepsSchedule (m : AssignedMemory) (e : EhciDevice) : AsyncCall → Prop
  | .openQueue => True
  | .closeQueue k => Closable m e k

instance (e : EhciDevice) : (c : AsyncCall) → Decidable (CallValid e c)
  | .openQueue => .isTrue trivial
  | .closeQueue k => inferInstanceAs (Decidable (e.present k = true))

instance (e : EhciDevice) (k p : Fin ehciMaxQh) : Decidable (NearestBelow e k p) :=
  inferInstanceAs (Decidable (_ ∧ _ ∧ _))

instance (e : EhciDevice) (k q : Fin ehciMaxQh) : Decidable (NearestAbove e k q) :=
  inferInstanceAs (Decidable (_ ∧ _ ∧ _))

instance (m : AssignedMemory) (e : EhciDevice) (k : Fin ehciMaxQh) :
    Decidable (Closable m e k) := by
  unfold Closable
  infer_instance

instance (m : AssignedMemory) (e : EhciDevice) : (c : AsyncCall) → Decidable (KeepsSchedule m e c)
  | .openQueue => .isTrue trivial
  | .closeQueue k => inferInstanceAs (Decidable (Closable m e k))

variable {m : AssignedMemory} {e e' : EhciDevice} {l : List (Fin ehciMaxQh)}
    {i j k h p q : Fin ehciMaxQh} {w b : ℕ}

theorem queueHead_lines (m : AssignedMemory) (i : Fin ehciMaxQh) :
    m.queueHead i = 32 * (m.queueHead i / 32) := by
  obtain ⟨c, hc⟩ := m.aligned
  rw [AssignedMemory.queueHead, hc]
  omega

theorem queueHead_inj (h : m.queueHead i = m.queueHead j) : i = j := by
  have hmod : Nat.ModEq (2 ^ 32) (i * 0x60) (j * 0x60) :=
    Nat.ModEq.add_left_cancel' (m.start + 0x1000) h
  have hi : i.val < 0x100 := i.isLt
  have hj : j.val < 0x100 := j.isLt
  have heq := hmod.eq_of_lt_of_lt (by omega) (by omega)
  apply Fin.ext
  omega

theorem linkTo_eq (m : AssignedMemory) (i : Fin ehciMaxQh) :
    linkTo m i = 32 * (m.queueHead i / 32) + 2 := by
  have hor := Nat.two_pow_add_eq_or_of_lt (show 2 < 2 ^ 5 by decide) (m.queueHead i / 32)
  calc m.queueHead i ||| queueHeadType = 2 ^ 5 * (m.queueHead i / 32) ||| 2 :=
        congrArg (· ||| 2) (queueHead_lines m i)
    _ = 32 * (m.queueHead i / 32) + 2 := hor.symm

theorem leads_linkTo : Leads m (linkTo m i) j ↔ i = j := by
  have hlines := queueHead_lines m i
  rw [Leads, linkTo_eq]
  constructor
  · rintro ⟨-, haddr⟩
    apply queueHead_inj (m := m)
    omega
  · rintro rfl
    omega

theorem leads_queueHead : Leads m (m.queueHead i) j ↔ i = j := by
  have hlines := queueHead_lines m i
  constructor
  · rintro ⟨-, haddr⟩
    apply queueHead_inj (m := m)
    omega
  · rintro rfl
    unfold Leads
    omega

theorem ends_terminate : Ends terminate := rfl

theorem leads_reads (m : AssignedMemory) : Reads (Leads m) Ends where
  unique := fun _ _ _ ha hb => queueHead_inj (ha.2.symm.trans hb.2)
  not_ends := fun _ _ ha he => by
    have hodd : _ % 2 = 1 := he
    have heven := ha.1
    omega

variable {c : Fin ehciMaxQh → Bool}

theorem firstFrom_eq_some : firstFrom c b = some i ↔
    b ≤ i.val ∧ c i = true ∧ ∀ j : Fin ehciMaxQh, b ≤ j.val → c j = true → i ≤ j := by
  rw [firstFrom, find?_eq_some_of_pairwise (List.pairwise_lt_finRange _) fun _ _ => lt_asymm]
  simp only [List.mem_finRange, true_and, Bool.and_eq_true, decide_eq_true_eq, true_implies, not_lt,
    and_imp, and_assoc]

theorem firstFrom_eq_none :
    firstFrom c b = none ↔ ∀ j : Fin ehciMaxQh, b ≤ j.val → c j = false := by
  simp [firstFrom, List.find?_eq_none]

theorem lastBelow_eq_some : lastBelow c b = some i ↔
    i.val < b ∧ c i = true ∧ ∀ j : Fin ehciMaxQh, j.val < b → c j = true → j ≤ i := by
  have hdesc : (List.finRange ehciMaxQh).reverse.Pairwise fun x y => y < x :=
    List.pairwise_reverse.mpr (List.pairwise_lt_finRange _)
  rw [lastBelow, find?_eq_some_of_pairwise hdesc fun x y => lt_asymm (a := y) (b := x)]
  simp only [List.mem_reverse, List.mem_finRange, true_and, Bool.and_eq_true, decide_eq_true_eq,
    true_implies, not_lt, and_imp, and_assoc]

namespace EhciDevice

theorem link_setLink : (e.setLink i w).link = Function.update e.link i w := by
  funext j
  rcases eq_or_ne j i with rfl | hne
  · simp [link, setLink]
  · simp [link, setLink, hne]

theorem flag_setLink : (e.setLink i w).flag = e.flag := by
  funext j
  rcases eq_or_ne j i with rfl | hne
  · simp [flag, setLink]
  · simp [flag, setLink, hne]

theorem link_setFlag : (e.setFlag i).link = e.link := by
  funext j
  rcases eq_or_ne j i with rfl | hne
  · simp [link, setFlag]
  · simp [link, setFlag, hne]

theorem flag_setFlag : (e.setFlag i).flag = Function.update e.flag i true := by
  funext j
  rcases eq_or_ne j i with rfl | hne
  · simp [flag, setFlag]
  · simp [flag, setFlag, hne]

theorem link_zero : (e.zero k h).link = Function.update e.link h 0 := by
  funext j
  rcases eq_or_ne j h with rfl | hne
  · simp [link, zero, QueueHead.zero]
  · simp [link, zero, hne]

theorem flag_zero : (e.zero k h).flag = Function.update e.flag h false := by
  funext j
  rcases eq_or_ne j h with rfl | hne
  · simp [flag, zero, QueueHead.zero]
  · simp [flag, zero, hne]

end EhciDevice

end DevOs.Usb
