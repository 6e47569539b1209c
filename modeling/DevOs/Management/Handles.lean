import DevOs.Lib.Runs
import DevOs.Lib.Slots
import Mathlib.Data.BitVec

/-!
# Handle tables

A handle table is a chain of iterators, each of 120 lists of 120 entries. `OpenHandle` takes the
first entry that is not present, allocates the list at the first null pointer it meets, and opens a
handle to each list or iterator that it allocates. Lists and iterators are named by their addresses,
which `AllocatePool` gives out in increasing order, and a handle by its list and its index there.

`OpenHandle` never stores the list of an entry, through which `CloseHandle` counts the entry out,
and with all lists of the last iterator full it replaces the first list of that iterator. Until then
every open handle keeps its entry, is found by its data and has an identity of its own.
-/

namespace DevOs.Management

open Slots

/-- `HANDLE_COUNT_PER_LIST` -/
abbrev HandleIndex := Fin 120

instance neZero_handles : NeZero 120 := ⟨by decide⟩

def handleFlagPresent : BitVec 64 := 1
def handleFlagFreeOnExit : BitVec 64 := 2
def handleKernelAllocate : ℕ := 6

/-- `HANDLE_ENTRY`, without the fields that are not used here. -/
structure HandleEntry where
  handleId : ℕ
  flags : BitVec 64
  dataType : ℕ
  thread : ℕ
  releaseProcedure : ℕ
  data : ℕ
  handleList : Option ℕ
deriving DecidableEq, Repr

def HandleEntry.zero : HandleEntry := ⟨0, 0, 0, 0, 0, 0, none⟩

def HandleEntry.present (e : HandleEntry) : Bool := e.flags &&& handleFlagPresent ≠ 0

/-- `HANDLE_LIST` -/
structure HandleList where
  handleCount : ℕ
  handles : HandleIndex → HandleEntry

def HandleList.zero : HandleList := ⟨0, fun _ => HandleEntry.zero⟩

def HandleList.slots (l : HandleList) : HandleIndex → Option HandleEntry :=
  fun x => if (l.handles x).present then some (l.handles x) else none

/-- The parameters of `OpenHandle`. -/
structure OpenRequest where
  thread : ℕ
  flags : BitVec 64
  dataType : ℕ
  data : ℕ
  releaseProcedure : ℕ
deriving DecidableEq, Repr

/-- The entry with the fields that `OpenHandle` writes. -/
def HandleEntry.fill (e : HandleEntry) (req : OpenRequest) (handleId : ℕ) : HandleEntry :=
  { e with
    thread := req.thread
    dataType := req.dataType
    flags := req.flags ||| handleFlagPresent
    handleId := handleId
    data := req.data
    releaseProcedure := req.releaseProcedure }

def HandleList.fill (l : HandleList) (x : HandleIndex) (req : OpenRequest) (handleId : ℕ) :
    HandleList where
  handleCount := (l.handleCount + 1) % 2 ^ 64
  handles := Function.update l.handles x ((l.handles x).fill req handleId)

/-- `HANDLE_ITERATOR` -/
structure HandleIterator where
  lists : HandleIndex → Option ℕ
  next : Option ℕ

def HandleIterator.zero : HandleIterator := ⟨fun _ => none, none⟩

/-- The memory of the lists and iterators, with the address that is given out next. -/
structure HandleMemory where
  lists : ℕ → HandleList
  iterators : ℕ → HandleIterator
  brk : ℕ

/-- `HANDLE`, the address of an entry. -/
abbrev Handle := ℕ × HandleIndex

def freeRequest (thread address : ℕ) : OpenRequest :=
  ⟨thread, handleFlagFreeOnExit, handleKernelAllocate, address, 0⟩

def calculateId (iteratorId : ℕ) (i x : HandleIndex) : ℕ :=
  (iteratorId * 120 * 120 + i * 120 + x) % 2 ^ 64

/-- What the scan of the lists of an iterator comes to. -/
inductive Room where
  | slot (i : HandleIndex) (list : ℕ) (x : HandleIndex)
  | missing (i : HandleIndex)
  | full
deriving DecidableEq, Repr

namespace HandleMemory

def entry (m : HandleMemory) (h : Handle) : HandleEntry := (m.lists h.1).handles h.2

def roomIn (m : HandleMemory) (it : HandleIterator) : List HandleIndex → Room
  | [] => .full
  | i :: is =>
    match it.lists i with
    | none => .missing i
    | some a =>
      if (m.lists a).handleCount < 120 then
        match firstFree (m.lists a).slots with
        | some x => .slot i a x
        | none => m.roomIn it is
      else m.roomIn it is

def room (m : HandleMemory) (it : ℕ) : Room := m.roomIn (m.iterators it) (List.finRange 120)

/-- The entry is written and counted. `HandleList` is not written. -/
def fill (m : HandleMemory) (h : Handle) (req : OpenRequest) (handleId : ℕ) : HandleMemory :=
  { m with lists := Function.update m.lists h.1 ((m.lists h.1).fill h.2 req handleId) }

/-- A list is allocated, cleared and stored at the place `i` of an iterator. -/
def allocateList (m : HandleMemory) (it : ℕ) (i : HandleIndex) : HandleMemory where
  lists := Function.update m.lists m.brk HandleList.zero
  iterators := Function.update m.iterators it
    { m.iterators it with lists := Function.update (m.iterators it).lists i (some m.brk) }
  brk := m.brk + 1

def allocateIterator (m : HandleMemory) (it : ℕ) : HandleMemory :=
  { m with
    iterators := Function.update
      (Function.update m.iterators it { m.iterators it with next := some m.brk })
      m.brk HandleIterator.zero
    brk := m.brk + 1 }

/-- `OpenHandle` at the iterator `it`. It calls itself with the table's own iterator, and is out of
fuel at zero. -/
def openFrom (table : ℕ) : ℕ → ℕ → ℕ → HandleMemory → OpenRequest →
    Option (Option Handle × HandleMemory)
  | 0, _, _, _, _ => none
  | fuel + 1, it, iteratorId, m, req =>
    if req.data = 0 then some (none, m)
    else match m.room it with
      | .slot i a x => some (some (a, x), m.fill (a, x) req (calculateId iteratorId i x))
      | .missing i =>
        (openFrom table fuel table 0 (m.allocateList it i) (freeRequest req.thread m.brk)).bind
          fun r => openFrom table fuel table 0 r.2 req
      | .full =>
        match (m.iterators it).next with
        | some n => openFrom table fuel n (iteratorId + 1) m req
        | none =>
          -- the list is stored in the full iterator, not in the new one
          let m' := (m.allocateIterator it).allocateList it 0
          (openFrom table fuel table 0 m' (freeRequest req.thread m.brk)).bind
            fun r => openFrom table fuel table 0 r.2 req

def openHandle (m : HandleMemory) (table fuel : ℕ) (req : OpenRequest) :
    Option (Option Handle × HandleMemory) :=
  openFrom table fuel table 0 m req

/-- `CreateHandleTable`: the address of the table, which begins with its first iterator, and the
memory. -/
def createHandleTable (m : HandleMemory) : Option (ℕ × HandleMemory) :=
  let table := m.brk
  let m₁ :=
    { m with iterators := Function.update m.iterators table HandleIterator.zero, brk := m.brk + 1 }
  let m₂ := m₁.allocateList table 0
  (m₂.openHandle table 3 (freeRequest 0 table)).bind fun r =>
    (r.2.openHandle table 3 (freeRequest 0 m₁.brk)).map fun r => (table, r.2)

def chainFrom (m : HandleMemory) : ℕ → ℕ → List ℕ
  | 0, _ => []
  | fuel + 1, it =>
    match (m.iterators it).next with
    | none => [it]
    | some n => it :: m.chainFrom fuel n

def chain (m : HandleMemory) (table : ℕ) : List ℕ := m.chainFrom m.brk table

def listsOf (m : HandleMemory) (table : ℕ) : List ℕ :=
  (m.chain table).flatMap fun it => contents (m.iterators it).lists

def getHandle (m : HandleMemory) (table data : ℕ) : Option Handle :=
  if data = 0 then none
  else (m.listsOf table).findSome? fun a =>
    if (m.lists a).handleCount ≠ 0 then
      ((List.finRange 120).find? fun x => (m.entry (a, x)).data =
        data && (m.entry (a, x)).present).map
        fun x => (a, x)
    else none

/-- `CloseHandle`, with the results of the release procedures. `RemoteFreePool` does nothing, and
neither `CloseFile` nor a release procedure touches the table. Nothing is returned when the list is
null. -/
def closeHandle (release : ℕ → Handle → ℤ) (m : HandleMemory) :
    Option Handle → Option (ℤ × HandleMemory)
  | none => some (-1, m)
  | some h =>
    let e := m.entry h
    if !e.present then some (0, m)
    else
      let result := if e.releaseProcedure ≠ 0 then release e.releaseProcedure h else 0
      let m := { m with lists := Function.update m.lists h.1 { m.lists h.1 with
        handles := Function.update (m.lists h.1).handles h.2 { e with flags := 0 } } }
      match e.handleList with
      | none => none
      | some l => some (result, { m with lists := Function.update m.lists l { m.lists l with
          handleCount := ((m.lists l).handleCount + (2 ^ 64 - 1)) % 2 ^ 64 } })

end HandleMemory

def HandleMemory.IsOpen (m : HandleMemory) (table : ℕ) (h : Handle) : Prop :=
  h.1 ∈ m.listsOf table ∧ (m.entry h).present = true

/-- A table of one iterator, whose lists count their entries and whose entries have their own
numbers and no list. -/
structure Tabled (m : HandleMemory) (table : ℕ) : Prop where
  next : (m.iterators table).next = none
  allocated : table < m.brk
  below : ∀ i a, (m.iterators table).lists i = some a → a < m.brk
  inj : ∀ i j a, (m.iterators table).lists i = some a → (m.iterators table).lists j = some a → i = j
  counted : ∀ i a, (m.iterators table).lists i = some a →
    (m.lists a).handleCount = (contents (m.lists a).slots).length
  entries : ∀ i a x, (m.iterators table).lists i = some a → (m.entry (a, x)).present = true →
    (m.entry (a, x)).handleId = i.val * 120 + x.val ∧ (m.entry (a, x)).data ≠ 0
  unlisted : ∀ i a x, (m.iterators table).lists i = some a → (m.entry (a, x)).handleList = none

variable {m m' : HandleMemory} {table a : ℕ} {i x : HandleIndex} {req : OpenRequest} {h : Handle}

theorem HandleEntry.present_zero : HandleEntry.zero.present = false := by decide

theorem HandleEntry.present_fill (e : HandleEntry) (req : OpenRequest) (handleId : ℕ) :
    (e.fill req handleId).present = true := by
  have hbit : ((req.flags ||| handleFlagPresent) &&& handleFlagPresent) ≠ 0 := by
    intro hz
    have := congrArg (fun w => BitVec.getLsbD w 0) hz
    simp [handleFlagPresent] at this
  exact decide_eq_true hbit

theorem HandleList.slots_fill (l : HandleList) (x : HandleIndex) (req : OpenRequest)
    (handleId : ℕ) :
    (l.fill x req handleId).slots =
      Function.update l.slots x (some ((l.handles x).fill req handleId)) := by
  funext y
  simp only [slots, fill, Function.update_apply]
  split_ifs with hy hp hp
  · rfl
  · exact absurd (HandleEntry.present_fill _ _ _) hp
  · rfl
  · rfl

theorem HandleList.slots_eq_none {l : HandleList} :
    l.slots x = none ↔ (l.handles x).present = false := by
  rw [slots]
  split_ifs with hp
  · simp [hp]
  · simp [hp]

theorem HandleList.slots_zero : HandleList.zero.slots = fun _ => none := by
  funext y
  exact slots_eq_none.mpr HandleEntry.present_zero

theorem Tabled.listsOf (ht : Tabled m table) :
    m.listsOf table = contents (m.iterators table).lists := by
  obtain ⟨n, hn⟩ := Nat.exists_eq_succ_of_ne_zero (Nat.ne_zero_of_lt ht.allocated)
  simp only [HandleMemory.listsOf, HandleMemory.chain, hn, HandleMemory.chainFrom, ht.next,
    List.flatMap_cons, List.flatMap_nil, List.append_nil]

theorem Tabled.isOpen_iff (ht : Tabled m table) : m.IsOpen table h ↔
    (∃ i, (m.iterators table).lists i = some h.1) ∧ (m.entry h).present = true := by
  rw [HandleMemory.IsOpen, ht.listsOf, mem_contents]

def Kept (table : ℕ) (m m' : HandleMemory) : Prop :=
  ∀ h, m.IsOpen table h → m'.IsOpen table h ∧ m'.entry h = m.entry h

theorem Kept.refl (m : HandleMemory) : Kept table m m := fun _ ho => ⟨ho, rfl⟩

theorem Kept.trans {m'' : HandleMemory} (h₁ : Kept table m m') (h₂ : Kept table m' m'') :
    Kept table m m'' := by
  intro h ho
  obtain ⟨ho', he⟩ := h₁ h ho
  obtain ⟨ho'', he'⟩ := h₂ h ho'
  exact ⟨ho'', he'.trans he⟩

theorem entry_fill_self (m : HandleMemory) (h : Handle) (req : OpenRequest) (handleId : ℕ) :
    (m.fill h req handleId).entry h = (m.entry h).fill req handleId := by
  simp only [HandleMemory.entry, HandleMemory.fill, Function.update_self, HandleList.fill]

theorem entry_fill_of_ne {h' : Handle} (hne : h' ≠ h) (m : HandleMemory) (req : OpenRequest)
    (handleId : ℕ) :
    (m.fill h req handleId).entry h' = m.entry h' := by
  simp only [HandleMemory.entry, HandleMemory.fill, Function.update_apply]
  split_ifs with hl
  · have hx : h'.2 ≠ h.2 := fun hx => hne (Prod.ext hl hx)
    rw [hl, HandleList.fill]
    exact Function.update_of_ne hx _ _
  · rfl

theorem calculateId_table (i x : HandleIndex) : calculateId 0 i x = i.val * 120 + x.val := by
  rw [calculateId, Nat.mod_eq_of_lt (by omega)]
  omega

theorem Tabled.fill (ht : Tabled m table) (hi : (m.iterators table).lists i = some a)
    (hx : (m.lists a).slots x = none) (hdata : req.data ≠ 0) :
    Tabled (m.fill (a, x) req (calculateId 0 i x)) table := by
  refine ⟨ht.next, ht.allocated, ht.below, ht.inj, fun j b hj => ?_, fun j b y hj hp => ?_,
    fun j b y hj => ?_⟩
  · change (m.iterators table).lists j = some b at hj
    have hcount := ht.counted j b hj
    simp only [HandleMemory.fill, Function.update_apply]
    split_ifs with hb
    · subst hb
      have hlen :=
        (contents_put hx ((m.lists b).handles x |>.fill req (calculateId 0 i x))).length_eq
      rw [List.length_cons] at hlen
      have hle := length_contents_le (m.lists b).slots
      rw [HandleList.slots_fill, hlen, HandleList.fill, hcount]
      exact Nat.mod_eq_of_lt (by omega)
    · exact hcount
  · change (m.iterators table).lists j = some b at hj
    by_cases he : (b, y) = (a, x)
    · obtain ⟨rfl, rfl⟩ := Prod.mk.inj he
      obtain rfl := ht.inj j i b hj hi
      rw [entry_fill_self]
      exact ⟨calculateId_table j y, hdata⟩
    · rw [entry_fill_of_ne he] at hp ⊢
      exact ht.entries j b y hj hp
  · change (m.iterators table).lists j = some b at hj
    have hold := ht.unlisted j b y hj
    by_cases he : (b, y) = (a, x)
    · rw [he] at hold ⊢
      rw [entry_fill_self]
      exact hold
    · rw [entry_fill_of_ne he]
      exact hold

theorem Tabled.kept_fill (ht : Tabled m table) (hi : (m.iterators table).lists i = some a)
    (hx : (m.lists a).slots x = none) (hdata : req.data ≠ 0) :
    Kept table m (m.fill (a, x) req (calculateId 0 i x)) := by
  intro h ho
  have hne : h ≠ (a, x) := by
    rintro rfl
    have hp := HandleList.slots_eq_none.mp hx
    exact absurd ho.2 (by rw [HandleMemory.entry, hp]; simp)
  have he := entry_fill_of_ne hne m req (calculateId 0 i x)
  refine ⟨?_, he⟩
  rw [(ht.fill hi hx hdata).isOpen_iff, he]
  exact ht.isOpen_iff.mp ho

theorem Tabled.open_fill (ht : Tabled m table) (hi : (m.iterators table).lists i = some a)
    (hx : (m.lists a).slots x = none) (hdata : req.data ≠ 0) :
    (m.fill (a, x) req (calculateId 0 i x)).IsOpen table (a, x) := by
  rw [(ht.fill hi hx hdata).isOpen_iff, entry_fill_self]
  exact ⟨⟨i, hi⟩, HandleEntry.present_fill _ _ _⟩

theorem Tabled.allocateList (ht : Tabled m table) (hi : (m.iterators table).lists i = none) :
    Tabled (m.allocateList table i) table := by
  have hlists (j : HandleIndex) (b : ℕ)
    (hj : ((m.allocateList table i).iterators table).lists j = some b) :
      j = i ∧ b = m.brk ∨ (m.iterators table).lists j = some b ∧ b ≠ m.brk := by
    simp only [HandleMemory.allocateList, Function.update_self, Function.update_apply] at hj
    split_ifs at hj with he
    · exact Or.inl ⟨he, (Option.some.inj hj).symm⟩
    · exact Or.inr ⟨hj, Nat.ne_of_lt (ht.below j b hj)⟩
  have hnew : (m.allocateList table i).lists m.brk = HandleList.zero := Function.update_self _ _ _
  have hold (b : ℕ) (hb : b ≠ m.brk) : (m.allocateList table i).lists b = m.lists b :=
    Function.update_of_ne hb _ _
  refine ⟨?_, Nat.lt_succ_of_lt ht.allocated, fun j b hj => ?_, fun j k b hj hk => ?_,
    fun j b hj => ?_, fun j b y hj hp => ?_, fun j b y hj => ?_⟩
  · simp only [HandleMemory.allocateList, Function.update_self]
    exact ht.next
  · rcases hlists j b hj with ⟨_, rfl⟩ | ⟨hj, _⟩
    · exact Nat.lt_succ_self _
    · exact Nat.lt_succ_of_lt (ht.below j b hj)
  · rcases hlists j b hj with ⟨rfl, rfl⟩ | ⟨hj, hne⟩
    · rcases hlists k _ hk with ⟨rfl, _⟩ | ⟨_, hne⟩
      · rfl
      · exact absurd rfl hne
    · rcases hlists k b hk with ⟨_, hb⟩ | ⟨hk, _⟩
      · exact absurd hb hne
      · exact ht.inj j k b hj hk
  · rcases hlists j b hj with ⟨_, rfl⟩ | ⟨hj, hne⟩
    · rw [hnew, HandleList.slots_zero, contents_none]
      rfl
    · rw [hold b hne]
      exact ht.counted j b hj
  · rw [HandleMemory.entry] at hp ⊢
    rcases hlists j b hj with ⟨_, rfl⟩ | ⟨hj, hne⟩
    · rw [hnew] at hp
      exact absurd hp (Bool.eq_false_iff.mp HandleEntry.present_zero)
    · rw [hold b hne] at hp ⊢
      exact ht.entries j b y hj hp
  · rw [HandleMemory.entry]
    rcases hlists j b hj with ⟨_, rfl⟩ | ⟨hj, hne⟩
    · rw [hnew]
      rfl
    · rw [hold b hne]
      exact ht.unlisted j b y hj

theorem Tabled.kept_allocateList (ht : Tabled m table) (hi : (m.iterators table).lists i = none) :
    Kept table m (m.allocateList table i) := by
  intro h ho
  obtain ⟨⟨j, hj⟩, hp⟩ := ht.isOpen_iff.mp ho
  have hne : h.1 ≠ m.brk := Nat.ne_of_lt (ht.below j _ hj)
  have he : (m.allocateList table i).entry h = m.entry h := by
    rw [HandleMemory.entry, HandleMemory.entry]
    exact congrArg (fun l => HandleList.handles l h.2) (Function.update_of_ne hne _ _)
  refine ⟨(ht.allocateList hi).isOpen_iff.mpr ⟨⟨j, ?_⟩, he ▸ hp⟩, he⟩
  have hji : j ≠ i := by
    rintro rfl
    rw [hi] at hj
    cases hj
  simp only [HandleMemory.allocateList, Function.update_self, Function.update_of_ne hji]
  exact hj

theorem roomIn_slot {it : HandleIterator} (is : List HandleIndex)
    (hr : m.roomIn it is = .slot i a x) :
    it.lists i = some a ∧ (m.lists a).slots x = none := by
  induction is with
  | nil => cases hr
  | cons j is ih =>
    rw [HandleMemory.roomIn] at hr
    cases hj : it.lists j with
    | none => simp only [hj, reduceCtorEq] at hr
    | some b =>
      simp only [hj] at hr
      split_ifs at hr with hc
      · cases hfree : firstFree (m.lists b).slots with
        | none =>
          simp only [hfree] at hr
          exact ih hr
        | some y =>
          simp only [hfree, Room.slot.injEq] at hr
          obtain ⟨rfl, rfl, rfl⟩ := hr
          exact ⟨hj, firstFree_eq_some hfree⟩
      · exact ih hr

theorem roomIn_missing {it : HandleIterator} (is : List HandleIndex)
    (hr : m.roomIn it is = .missing i) :
    it.lists i = none := by
  induction is with
  | nil => cases hr
  | cons j is ih =>
    rw [HandleMemory.roomIn] at hr
    cases hj : it.lists j with
    | none =>
      simp only [hj, Room.missing.injEq] at hr
      exact hr ▸ hj
    | some b =>
      simp only [hj] at hr
      split_ifs at hr with hc
      · cases hfree : firstFree (m.lists b).slots with
        | none =>
          simp only [hfree] at hr
          exact ih hr
        | some y => simp only [hfree, reduceCtorEq] at hr
      · exact ih hr

theorem roomIn_stored {it it' : HandleIterator} (is : List HandleIndex)
    (hr : m.roomIn it is = .missing i) (hit : ∀ j, j ≠ i → it'.lists j = it.lists j)
    (hi : it'.lists i = some a) (hsame : ∀ j b, it.lists j = some b → m'.lists b = m.lists b)
    (hcount : (m'.lists a).handleCount < 120) (hfree : firstFree (m'.lists a).slots = some x) :
    m'.roomIn it' is = .slot i a x := by
  induction is with
  | nil => cases hr
  | cons j is ih =>
    rw [HandleMemory.roomIn] at hr ⊢
    by_cases hji : j = i
    · subst hji
      simp only [hi, if_pos hcount, hfree]
    · rw [hit j hji]
      cases hj : it.lists j with
      | none =>
        simp only [hj, Room.missing.injEq] at hr
        exact absurd hr hji
      | some b =>
        simp only [hj] at hr ⊢
        rw [hsame j b hj]
        split_ifs at hr ⊢ with hc
        · cases hfree : firstFree (m.lists b).slots with
          | none =>
            simp only [hfree] at hr ⊢
            exact ih hr
          | some y => simp only [hfree, reduceCtorEq] at hr
        · exact ih hr

/-- What a call of `OpenHandle` does when it returns the handle `h`. -/
structure Opened (table : ℕ) (m : HandleMemory) (req : OpenRequest) (h : Handle)
    (m' : HandleMemory) :
    Prop where
  tabled : Tabled m' table
  kept : Kept table m m'
  isOpen : m'.IsOpen table h
  data : (m'.entry h).data = req.data
  flags : (m'.entry h).flags = req.flags ||| handleFlagPresent

theorem openFrom_slot (fuel : ℕ) (hr : m.room table = .slot i a x) (hdata : req.data ≠ 0) :
    HandleMemory.openFrom table (fuel + 1) table 0 m req =
      some (some (a, x), m.fill (a, x) req (calculateId 0 i x)) := by
  rw [HandleMemory.openFrom, if_neg hdata]
  simp only [hr]

theorem Tabled.opened_slot (ht : Tabled m table) (hr : m.room table = .slot i a x)
    (hdata : req.data ≠ 0) :
    Opened table m req (a, x) (m.fill (a, x) req (calculateId 0 i x)) := by
  obtain ⟨hi, hx⟩ := roomIn_slot _ hr
  refine ⟨ht.fill hi hx hdata, ht.kept_fill hi hx hdata, ht.open_fill hi hx hdata, ?_, ?_⟩
  · rw [entry_fill_self]
    rfl
  · rw [entry_fill_self]
    rfl

theorem Tabled.opened_two {req₁ req₂ : OpenRequest} (ht : Tabled m table)
    (hr : m.room table = .missing i) (hdata₁ : req₁.data ≠ 0) (hdata₂ : req₂.data ≠ 0) :
    ∃ h₁ m₁ h₂ m₂,
      (∀ fuel, HandleMemory.openFrom table (fuel + 1) table 0 (m.allocateList table i) req₁ =
        some (some h₁, m₁)) ∧ Opened table m req₁ h₁ m₁ ∧
      (∀ fuel, HandleMemory.openFrom table (fuel + 1) table 0 m₁ req₂ = some (some h₂, m₂)) ∧
      Opened table m₁ req₂ h₂ m₂ := by
  have hi : (m.iterators table).lists i = none := roomIn_missing _ hr
  have ht₁ := ht.allocateList hi
  have hstored : ((m.allocateList table i).iterators table).lists i = some m.brk := by
    simp only [HandleMemory.allocateList, Function.update_self]
  have hothers (j : HandleIndex) (hj : j ≠ i) :
      ((m.allocateList table i).iterators table).lists j = (m.iterators table).lists j := by
    simp only [HandleMemory.allocateList, Function.update_self, Function.update_of_ne hj]
  have hbelow (j : HandleIndex) (b : ℕ) (hj : (m.iterators table).lists j = some b) : b ≠ m.brk :=
    Nat.ne_of_lt (ht.below j b hj)
  have hzero : (m.allocateList table i).lists m.brk = HandleList.zero := Function.update_self _ _ _
  obtain ⟨x, hx⟩ : ∃ x, firstFree ((m.allocateList table i).lists m.brk).slots = some x := by
    refine exists_firstFree ?_
    rw [hzero, HandleList.slots_zero, contents_none]
    decide
  have hroom₁ : (m.allocateList table i).room table = .slot i m.brk x := by
    refine roomIn_stored _ hr hothers hstored (fun j b hj => ?_) ?_ hx
    · exact Function.update_of_ne (hbelow j b hj) _ _
    · rw [hzero]
      decide
  have hopened₁ := ht₁.opened_slot hroom₁ hdata₁
  have hcount : (((m.allocateList table i).fill (m.brk, x) req₁
      (calculateId 0 i x)).lists m.brk).handleCount = 1 := by
    simp only [HandleMemory.fill, Function.update_self, HandleList.fill, hzero]
    rfl
  obtain ⟨y, hy⟩ : ∃ y, firstFree (((m.allocateList table i).fill (m.brk, x) req₁
      (calculateId 0 i x)).lists m.brk).slots = some y := by
    refine exists_firstFree ?_
    rw [← hopened₁.tabled.counted i m.brk hstored, hcount]
    decide
  have hroom₂ : ((m.allocateList table i).fill (m.brk, x) req₁ (calculateId 0 i x)).room table =
      .slot i m.brk y := by
    refine roomIn_stored _ hr hothers hstored (fun j b hj => ?_) ?_ hy
    · have hb := hbelow j b hj
      simp only [HandleMemory.fill, Function.update_of_ne hb]
      exact Function.update_of_ne hb _ _
    · rw [hcount]
      decide
  exact ⟨_, _, _, _, fun fuel => openFrom_slot fuel hroom₁ hdata₁,
    { hopened₁ with kept := (ht.kept_allocateList hi).trans hopened₁.kept },
    fun fuel => openFrom_slot fuel hroom₂ hdata₂, hopened₁.tabled.opened_slot hroom₂ hdata₂⟩

theorem Tabled.opened_missing (ht : Tabled m table) (hr : m.room table = .missing i)
    (hdata : req.data ≠ 0) :
    ∃ h m', (∀ fuel, HandleMemory.openFrom table (fuel + 2) table 0 m req = some (some h, m')) ∧
      Opened table m req h m' := by
  have hbrk : (freeRequest req.thread m.brk).data ≠ 0 := Nat.ne_zero_of_lt ht.allocated
  obtain ⟨_, m₁, h₂, m₂, hrun₁, hopened₁, hrun₂, hopened₂⟩ := ht.opened_two hr hbrk hdata
  refine ⟨h₂, m₂, fun fuel => ?_, { hopened₂ with kept := hopened₁.kept.trans hopened₂.kept }⟩
  rw [HandleMemory.openFrom, if_neg hdata]
  simp only [hr]
  rw [hrun₁ fuel, Option.bind_some, hrun₂ fuel]

theorem Tabled.opened (ht : Tabled m table) (hr : m.room table ≠ .full) (hdata : req.data ≠ 0) :
    ∃ h m', (∀ fuel, m.openHandle table (fuel + 2) req = some (some h, m')) ∧
    Opened table m req h m' := by
  cases hroom : m.room table with
  | slot i a x =>
      exact ⟨_, _, fun fuel => openFrom_slot (fuel + 1) hroom hdata, ht.opened_slot hroom hdata⟩
  | missing i => exact ht.opened_missing hroom hdata
  | full => exact absurd hroom hr

theorem createHandleTable_opened (hbrk : 0 < m.brk) :
    ∃ m₁ h₁ m₂ h₂ m₃, Tabled m₁ m.brk ∧ (∀ i, (m₁.iterators m.brk).lists i = none) ∧
      (∀ fuel, HandleMemory.openFrom m.brk (fuel + 1) m.brk 0 (m₁.allocateList m.brk 0)
        (freeRequest 0 m.brk) =
        some (some h₁, m₂)) ∧ Tabled m₂ m.brk ∧
      (∀ fuel, HandleMemory.openFrom m.brk (fuel + 1) m.brk 0 m₂ (freeRequest 0 (m.brk + 1)) =
        some (some h₂, m₃)) ∧ Tabled m₃ m.brk ∧
      m.createHandleTable = some (m.brk, m₃) := by
  let m₁ : HandleMemory :=
    { m with iterators := Function.update m.iterators m.brk HandleIterator.zero, brk := m.brk + 1 }
  have hit : m₁.iterators m.brk = HandleIterator.zero := Function.update_self _ _ _
  have hempty (i : HandleIndex) : (m₁.iterators m.brk).lists i = none := by
    rw [hit]
    rfl
  have hnone (i : HandleIndex) (a : ℕ) : (m₁.iterators m.brk).lists i ≠ some a := by
    rw [hempty]
    exact (Option.some_ne_none a).symm
  have ht : Tabled m₁ m.brk := by
    refine ⟨by rw [hit]; rfl, Nat.lt_succ_self _, fun i a hi => absurd hi (hnone i a),
      fun i j a hi => absurd hi (hnone i a), fun i a hi => absurd hi (hnone i a),
      fun i a x hi => absurd hi (hnone i a), fun i a x hi => absurd hi (hnone i a)⟩
  have hr : m₁.room m.brk = .missing 0 := by
    rw [HandleMemory.room, hit, List.finRange_succ]
    rfl
  have htable : (freeRequest 0 m.brk).data ≠ 0 := Nat.pos_iff_ne_zero.mp hbrk
  have hlist : (freeRequest 0 m₁.brk).data ≠ 0 := Nat.succ_ne_zero _
  obtain ⟨h₁, m₂, h₂, m₃, hrun₁, hopened₁, hrun₂, hopened₂⟩ := ht.opened_two hr htable hlist
  refine ⟨m₁, h₁, m₂, h₂, m₃, ht, hempty, hrun₁, hopened₁.tabled, hrun₂, hopened₂.tabled, ?_⟩
  have hopen₁ : (m₁.allocateList m.brk 0).openHandle m.brk 3 (freeRequest 0 m.brk) = _ := hrun₁ 2
  have hopen₂ : m₂.openHandle m.brk 3 (freeRequest 0 m₁.brk) = _ := hrun₂ 2
  change ((m₁.allocateList m.brk 0).openHandle m.brk 3 (freeRequest 0 m.brk)).bind _ = _
  rw [hopen₁, Option.bind_some, hopen₂]
  rfl

theorem createHandleTable_tabled (hbrk : 0 < m.brk) :
    ∃ table m', m.createHandleTable = some (table, m') ∧ Tabled m' table := by
  obtain ⟨_, _, _, _, m₃, _, _, _, _, _, ht₃, hcreate⟩ := createHandleTable_opened hbrk
  exact ⟨m.brk, m₃, hcreate, ht₃⟩

/-- A handle whose data no other open handle has is the one that `GetHandle` finds. -/
theorem Tabled.getHandle (ht : Tabled m table) (ho : m.IsOpen table h)
    (hunique : ∀ h', m.IsOpen table h' → (m.entry h').data = (m.entry h).data → h' = h) :
    m.getHandle table (m.entry h).data = some h := by
  obtain ⟨⟨i, hi⟩, hp⟩ := ht.isOpen_iff.mp ho
  have hdata : (m.entry h).data ≠ 0 := (ht.entries i h.1 h.2 hi hp).2
  rw [HandleMemory.getHandle, if_neg hdata]
  generalize hsearch : List.findSome? _ (m.listsOf table) = result
  cases result with
  | none =>
    rw [List.findSome?_eq_none_iff] at hsearch
    have hlist := hsearch h.1 ho.1
    have hcount : (m.lists h.1).handleCount ≠ 0 := by
      rw [ht.counted i h.1 hi]
      have hmem : m.entry h ∈ contents (m.lists h.1).slots := mem_contents.mpr ⟨h.2, if_pos hp⟩
      exact Nat.ne_of_gt (List.length_pos_of_mem hmem)
    rw [if_pos hcount, Option.map_eq_none_iff, List.find?_eq_none] at hlist
    have hnot := hlist h.2 (List.mem_finRange h.2)
    exact absurd (by rw [hp]; simp) hnot
  | some h' =>
    obtain ⟨a, ha, hfound⟩ := List.exists_of_findSome?_eq_some hsearch
    split_ifs at hfound with hcount
    obtain ⟨x, hx, rfl⟩ := Option.map_eq_some_iff.mp hfound
    have hsome := List.find?_some hx
    rw [Bool.and_eq_true, decide_eq_true_eq] at hsome
    rw [hunique (a, x) ⟨ha, hsome.2⟩ hsome.1]

theorem Tabled.handleId_inj {h' : Handle} (ht : Tabled m table) (ho : m.IsOpen table h)
    (ho' : m.IsOpen table h') (hid : (m.entry h).handleId = (m.entry h').handleId) : h = h' := by
  obtain ⟨⟨i, hi⟩, hp⟩ := ht.isOpen_iff.mp ho
  obtain ⟨⟨j, hj⟩, hp'⟩ := ht.isOpen_iff.mp ho'
  rw [(ht.entries i h.1 h.2 hi hp).1, (ht.entries j h'.1 h'.2 hj hp').1] at hid
  have hx : h.2 = h'.2 := Fin.ext (by omega)
  have hij : i = j := Fin.ext (by omega)
  rw [hij, hj] at hi
  exact Prod.ext (Option.some.inj hi).symm hx

def HandleMemory.HasRoom (m : HandleMemory) (table : ℕ) : Prop :=
  ∃ i, ∀ a ∈ (m.iterators table).lists i, (m.lists a).handleCount < 120

instance (m : HandleMemory) (table : ℕ) : Decidable (m.HasRoom table) :=
  inferInstanceAs
    (Decidable (∃ i, ∀ a ∈ (m.iterators table).lists i, (m.lists a).handleCount < 120))

theorem roomIn_full {it : HandleIterator} (is : List HandleIndex) (hr : m.roomIn it is = .full)
    (hi : i ∈ is) : ∃ a, it.lists i = some a ∧
      ((m.lists a).handleCount < 120 → firstFree (m.lists a).slots = none) := by
  induction is with
  | nil => cases hi
  | cons j is ih =>
    rw [HandleMemory.roomIn] at hr
    cases hj : it.lists j with
    | none => simp only [hj, reduceCtorEq] at hr
    | some b =>
      simp only [hj] at hr
      have hrest : m.roomIn it is = .full ∧
          ((m.lists b).handleCount < 120 → firstFree (m.lists b).slots = none) := by
        split_ifs at hr with hc
        · cases hfree : firstFree (m.lists b).slots with
          | none =>
            simp only [hfree] at hr
            exact ⟨hr, fun _ => rfl⟩
          | some y => simp only [hfree, reduceCtorEq] at hr
        · exact ⟨hr, fun h => absurd h hc⟩
      rcases List.mem_cons.mp hi with rfl | hi
      · exact ⟨b, hj, hrest.2⟩
      · exact ih hrest.1 hi

theorem roomIn_eq_full {it : HandleIterator} (is : List HandleIndex)
    (h : ∀ i ∈ is, ∃ a, it.lists i = some a ∧ ¬ (m.lists a).handleCount < 120) :
    m.roomIn it is = .full := by
  induction is with
  | nil => rfl
  | cons j is ih =>
    obtain ⟨a, ha, hc⟩ := h j List.mem_cons_self
    rw [HandleMemory.roomIn]
    simp only [ha, if_neg hc]
    exact ih fun i hi => h i (List.mem_cons_of_mem j hi)

theorem Tabled.room_eq_full (ht : Tabled m table) : m.room table = .full ↔ ¬ m.HasRoom table := by
  constructor
  · rintro hr ⟨i, hi⟩
    obtain ⟨a, ha, hfree⟩ := roomIn_full _ hr (List.mem_finRange i)
    have hlt := hi a ha
    have hcount := ht.counted i a ha
    obtain ⟨x, hx⟩ := exists_firstFree (hcount ▸ hlt)
    rw [hfree hlt] at hx
    cases hx
  · intro hno
    refine roomIn_eq_full _ fun i _ => ?_
    by_contra hcon
    refine hno ⟨i, fun a ha => ?_⟩
    by_contra hlt
    exact hcon ⟨a, ha, hlt⟩

/-- The calls on a table. -/
inductive HandleCall where
  | openHandle (req : OpenRequest)
  | closeHandle (h : Option Handle)

/-- A call that returns. The fuel is enough to walk through all iterators. -/
def handleStep (release : ℕ → Handle → ℤ) (table : ℕ) (m : HandleMemory) :
    HandleCall → Option HandleMemory
  | .openHandle req => (m.openHandle table (m.brk + 4) req).map Prod.snd
  | .closeHandle h => (m.closeHandle release h).map Prod.snd

/-- No open handle is closed, and none is opened when the first iterator is full. -/
def handleOk (table : ℕ) (m : HandleMemory) : HandleCall → Prop
  | .openHandle req => req.data = 0 ∨ m.HasRoom table
  | .closeHandle h => ∀ x ∈ h, (m.entry x).present = false

instance (table : ℕ) (m : HandleMemory) : (a : HandleCall) → Decidable (handleOk table m a)
  | .openHandle req => inferInstanceAs (Decidable (req.data = 0 ∨ m.HasRoom table))
  | .closeHandle h => inferInstanceAs (Decidable (∀ x ∈ h, (m.entry x).present = false))

theorem closeHandle_absent (release : ℕ → Handle → ℤ) {h : Option Handle}
    (hh : ∀ x ∈ h, (m.entry x).present = false) : ∃ r, m.closeHandle release h = some (r, m) := by
  cases h with
  | none => exact ⟨-1, rfl⟩
  | some x =>
    refine ⟨0, ?_⟩
    simp only [HandleMemory.closeHandle, hh x rfl, Bool.not_false, if_true]

/-- Every call that is allowed returns, keeps the open handles and leaves a table of the same
kind. -/
theorem Tabled.step {c : HandleCall} (release : ℕ → Handle → ℤ) (ht : Tabled m table)
    (hok : handleOk table m c) :
    ∃ m', handleStep release table m c = some m' ∧ Tabled m' table ∧ Kept table m m' := by
  cases c with
  | openHandle req =>
    by_cases hdata : req.data = 0
    · refine ⟨m, ?_, ht, Kept.refl m⟩
      have hnone : m.openHandle table (m.brk + 4) req = some (none, m) := by
        rw [HandleMemory.openHandle, HandleMemory.openFrom, if_pos hdata]
      rw [handleStep, hnone]
      rfl
    · have hroom : m.room table ≠ .full := fun hf => ht.room_eq_full.mp hf (hok.resolve_left hdata)
      obtain ⟨h, m', hrun, hopened⟩ := ht.opened hroom hdata
      refine ⟨m', ?_, hopened.tabled, hopened.kept⟩
      rw [handleStep, hrun (m.brk + 2)]
      rfl
  | closeHandle h =>
    obtain ⟨r, hr⟩ := closeHandle_absent release hok
    refine ⟨m, ?_, ht, Kept.refl m⟩
    rw [handleStep, hr]
    rfl

theorem Tabled.reaches {release : ℕ → Handle → ℤ} (ht : Tabled m table)
    (hr : Runs.Reaches (handleStep release table) (handleOk table) m m') :
    Tabled m' table ∧ Kept table m m' := by
  refine hr.invariant (I := fun n => Tabled n table ∧ Kept table m n) ?_ ⟨ht, Kept.refl m⟩
  rintro n c n' ⟨hn, hkept⟩ hok hs
  obtain ⟨n'', hs', hn', hkept'⟩ := hn.step release hok
  obtain rfl := Option.some.inj (hs'.symm.trans hs)
  exact ⟨hn', hkept.trans hkept'⟩

theorem Tabled.closeHandle_open (release : ℕ → Handle → ℤ) (ht : Tabled m table)
    (ho : m.IsOpen table h) :
    m.closeHandle release (some h) = none := by
  obtain ⟨⟨i, hi⟩, hp⟩ := ht.isOpen_iff.mp ho
  have hlist := ht.unlisted i h.1 h.2 hi
  simp only [HandleMemory.closeHandle, hp, Bool.not_true, Bool.false_eq_true, if_false]
  rw [show (m.entry h).handleList = none from hlist]

theorem room_first {it : HandleIterator} (hi : it.lists 0 = some a)
    (hcount : (m.lists a).handleCount < 120) (hfree : firstFree (m.lists a).slots = some x) :
    m.roomIn it (List.finRange 120) = .slot 0 a x := by
  rw [List.finRange_succ, HandleMemory.roomIn]
  simp only [hi, if_pos hcount, hfree]

theorem Tabled.isOpen_of_full (ht : Tabled m table) (hfull : ¬ m.HasRoom table) {i : HandleIndex}
    (ha : (m.iterators table).lists i = some a) : m.IsOpen table (a, 0) := by
  refine ht.isOpen_iff.mpr ⟨⟨i, ha⟩, ?_⟩
  have hlt : ¬ (m.lists a).handleCount < 120 := by
    intro hlt
    refine hfull ⟨i, fun b hb => ?_⟩
    obtain rfl := Option.some.inj (ha.symm.trans hb)
    exact hlt
  have hcount := ht.counted i a ha
  have hnone : firstFree (m.lists a).slots = none := firstFree_of_full (hcount ▸ Nat.not_lt.mp hlt)
  have hsome := firstFree_eq_none hnone 0
  rw [Ne, HandleList.slots_eq_none, Bool.not_eq_false] at hsome
  exact hsome

/-- With the first iterator full, `OpenHandle` replaces its first list, whose handles are lost. -/
theorem Tabled.opened_full (ht : Tabled m table) (hfull : ¬ m.HasRoom table)
    (hdata : req.data ≠ 0) :
    ∃ h m', (∀ fuel, m.openHandle table (fuel + 2) req = some (some h, m')) ∧
      ∃ h', m.IsOpen table h' ∧ ¬ m'.IsOpen table h' := by
  have hroom := ht.room_eq_full.mpr hfull
  obtain ⟨a₀, ha₀, hfree₀⟩ := roomIn_full _ hroom (List.mem_finRange 0)
  have hlost : m.IsOpen table (a₀, 0) := ht.isOpen_of_full hfull ha₀
  let m₁ := (m.allocateIterator table).allocateList table 0
  have hne : table ≠ m.brk := Nat.ne_of_lt ht.allocated
  have hit : m₁.iterators table =
      ⟨Function.update (m.iterators table).lists 0 (some (m.brk + 1)), some m.brk⟩ := by
    simp only [m₁, HandleMemory.allocateList, HandleMemory.allocateIterator, Function.update_self,
      Function.update_of_ne hne]
  have hnew : m₁.iterators m.brk = HandleIterator.zero := by
    simp only [m₁, HandleMemory.allocateList, HandleMemory.allocateIterator,
      Function.update_of_ne hne.symm, Function.update_self]
  have hfirst : (m₁.iterators table).lists 0 = some (m.brk + 1) := by
    simp only [hit, Function.update_self]
  have hzero : m₁.lists (m.brk + 1) = HandleList.zero := Function.update_self _ _ _
  obtain ⟨x, hx⟩ : ∃ x, firstFree (m₁.lists (m.brk + 1)).slots = some x := by
    refine exists_firstFree ?_
    rw [hzero, HandleList.slots_zero, contents_none]
    decide
  have hroom₁ : m₁.room table = .slot 0 (m.brk + 1) x :=
    room_first hfirst (by rw [hzero]; decide) hx
  let m₂ := m₁.fill (m.brk + 1, x) (freeRequest req.thread m.brk) (calculateId 0 0 x)
  have hone : m₂.lists (m.brk + 1) =
      HandleList.zero.fill x (freeRequest req.thread m.brk) (calculateId 0 0 x) := by
    simp only [m₂, HandleMemory.fill, Function.update_self, hzero]
  obtain ⟨y, hy⟩ : ∃ y, firstFree (m₂.lists (m.brk + 1)).slots = some y := by
    refine exists_firstFree ?_
    have hput := (contents_put (f := HandleList.zero.slots) (i := x) (by rw [HandleList.slots_zero])
      (HandleEntry.zero.fill (freeRequest req.thread m.brk) (calculateId 0 0 x))).length_eq
    rw [hone, HandleList.slots_fill]
    refine hput.trans_lt ?_
    rw [HandleList.slots_zero, contents_none, List.length_singleton]
    decide
  have hroom₂ : m₂.room table = .slot 0 (m.brk + 1) y := by
    refine room_first hfirst ?_ hy
    rw [hone]
    change (0 + 1) % 2 ^ 64 < 120
    decide
  have hbrk : (freeRequest req.thread m.brk).data ≠ 0 := Nat.ne_zero_of_lt ht.allocated
  refine ⟨(m.brk + 1, y), m₂.fill (m.brk + 1, y) req (calculateId 0 0 y), fun fuel => ?_,
    (a₀, 0), hlost, fun ho => ?_⟩
  · rw [HandleMemory.openHandle, HandleMemory.openFrom, if_neg hdata]
    simp only [hroom, ht.next]
    rw [openFrom_slot fuel hroom₁ hbrk, Option.bind_some]
    exact openFrom_slot fuel hroom₂ hdata
  · have hlists : (m₂.fill (m.brk + 1, y) req (calculateId 0 0 y)).listsOf table =
        contents (m₁.iterators table).lists := by
      have hbrk : (m₂.fill (m.brk + 1, y) req (calculateId 0 0 y)).brk = m.brk + 2 := rfl
      have hits : (m₂.fill (m.brk + 1, y) req (calculateId 0 0 y)).iterators = m₁.iterators := rfl
      have hnext : (m₁.iterators table).next = some m.brk := by rw [hit]
      have hend : (m₁.iterators m.brk).next = none := by rw [hnew]; rfl
      have hnone : contents (m₁.iterators m.brk).lists = [] := by
        rw [hnew]
        exact contents_none
      simp only [HandleMemory.listsOf, HandleMemory.chain, hbrk, HandleMemory.chainFrom, hits,
        hnext, hend, List.flatMap_cons, List.flatMap_nil, List.append_nil, hnone]
    have hmem := ho.1
    rw [hlists, hit] at hmem
    obtain ⟨i, hi⟩ := mem_contents.mp hmem
    simp only [Function.update_apply] at hi
    have hbelow := ht.below 0 a₀ ha₀
    split_ifs at hi with h0
    · have := Option.some.inj hi
      omega
    · exact h0 (ht.inj i 0 a₀ hi ha₀)

theorem handles_kept (release : ℕ → Handle → ℤ) (m₀ : HandleMemory) (hbrk : 0 < m₀.brk) :
    ∃ table m, m₀.createHandleTable = some (table, m) ∧
      ∀ m₁ m₂, Runs.Reaches (handleStep release table) (handleOk table) m m₁ →
        Runs.Reaches (handleStep release table) (handleOk table) m₁ m₂ →
        (∀ h, m₁.IsOpen table h → m₂.IsOpen table h ∧ (m₂.entry h).data = (m₁.entry h).data ∧
          (m₂.entry h).flags = (m₁.entry h).flags ∧ (m₂.entry h).handleId = (m₁.entry h).handleId) ∧
        (∀ h, m₂.IsOpen table h →
          (∀ h', m₂.IsOpen table h' → (m₂.entry h').data = (m₂.entry h).data → h' = h) →
          m₂.getHandle table (m₂.entry h).data = some h) ∧
        (∀ h h', m₂.IsOpen table h → m₂.IsOpen table h' →
          (m₂.entry h).handleId = (m₂.entry h').handleId → h = h') ∧
        (∀ a ∈ m₂.listsOf table, (m₂.lists a).handleCount = (contents (m₂.lists a).slots).length) ∧
        (∀ c, handleOk table m₂ c → ∃ m₃, handleStep release table m₂ c = some m₃) ∧
        (∀ req, req.data ≠ 0 → m₂.HasRoom table → ∃ h m₃,
          (∀ fuel, m₂.openHandle table (fuel + 2) req = some (some h, m₃)) ∧ m₃.IsOpen table h ∧
          (m₃.entry h).data = req.data ∧ (m₃.entry h).flags = req.flags ||| handleFlagPresent) ∧
        -- neither kind of call that is excluded does what it should
        (∀ h, m₂.IsOpen table h → m₂.closeHandle release (some h) = none) ∧
        (∀ req, req.data ≠ 0 → ¬ m₂.HasRoom table → ∃ h m₃,
          (∀ fuel, m₂.openHandle table (fuel + 2) req = some (some h, m₃)) ∧
          ∃ h', m₂.IsOpen table h' ∧ ¬ m₃.IsOpen table h') := by
  obtain ⟨table, m, hcreate, ht⟩ := createHandleTable_tabled hbrk
  refine ⟨table, m, hcreate, fun m₁ m₂ hr₁ hr₂ => ?_⟩
  have ht₁ := (ht.reaches hr₁).1
  obtain ⟨ht₂, hkept⟩ := ht₁.reaches hr₂
  refine ⟨fun h ho => ?_, fun h ho hu => ht₂.getHandle ho hu,
    fun h h' ho ho' => ht₂.handleId_inj ho ho', fun a ha => ?_, fun c hc => ?_,
    fun req hd hroom => ?_, fun h ho => ht₂.closeHandle_open release ho,
    fun req hd hno => ht₂.opened_full hno hd⟩
  · obtain ⟨ho', he⟩ := hkept h ho
    rw [he]
    exact ⟨ho', rfl, rfl, rfl⟩
  · rw [ht₂.listsOf] at ha
    obtain ⟨i, hi⟩ := mem_contents.mp ha
    exact ht₂.counted i a hi
  · obtain ⟨m₃, hs, _⟩ := ht₂.step release hc
    exact ⟨m₃, hs⟩
  · obtain ⟨h, m₃, hrun, hopened⟩ := ht₂.opened (fun hf => ht₂.room_eq_full.mp hf hroom) hd
    exact ⟨h, m₃, hrun, hopened.isOpen, hopened.data, hopened.flags⟩

def sampleMemory : HandleMemory := ⟨fun _ => HandleList.zero, fun _ => HandleIterator.zero, 1⟩

def sampleRequest (data : ℕ) : OpenRequest := ⟨0, 0, 0, data, 0⟩

theorem sampleMemory_hasRoom {table : ℕ} {m : HandleMemory}
    (hcreate : sampleMemory.createHandleTable = some (table, m)) : m.HasRoom table := by
  have h := Runs.eq_of_map (fun s : ℕ × HandleMemory => decide (s.2.HasRoom s.1)) hcreate
    (x := true)
    (by decide +kernel)
  exact of_decide_eq_true h

/-- Handles to 100, 200 and 300 are opened, and one that is not open is closed between them. -/
def sampleCalls : List HandleCall :=
  [.openHandle (sampleRequest 100), .openHandle (sampleRequest 200), .closeHandle (some (2, 7)),
    .openHandle (sampleRequest 300)]

def sampleData (m : HandleMemory) : List (Option ℕ) :=
  [100, 200, 300].map fun data => (m.getHandle 1 data).map fun h => (m.entry h).data

def sampleRun (calls : List HandleCall) : Option HandleMemory :=
  sampleMemory.createHandleTable.bind fun s =>
    Runs.guardedRun (handleStep (fun _ _ => 0) s.1) (handleOk s.1) s.2 calls

theorem handles_kept_sample :
    ∃ m m₁, sampleMemory.createHandleTable = some (1, m) ∧
      Runs.Reaches (handleStep (fun _ _ => 0) 1) (handleOk 1) m m₁ ∧
      sampleData m₁ = [some 100, some 200, some 300] ∧
      (∀ h h', m₁.IsOpen 1 h → m₁.IsOpen 1 h' → (m₁.entry h).handleId = (m₁.entry h').handleId →
        h = h') ∧
      ∀ a ∈ m₁.listsOf 1, (m₁.lists a).handleCount = (contents (m₁.lists a).slots).length := by
  obtain ⟨table, m, hcreate, hall⟩ := handles_kept (fun _ _ => 0) sampleMemory (by decide)
  obtain rfl : table = 1 := Runs.eq_of_map (fun s : ℕ × HandleMemory => s.1) hcreate (by decide)
  have hrun : (sampleRun sampleCalls).map sampleData = some [some 100, some 200, some 300] := by
    decide +kernel
  obtain ⟨m₁, hm₁, hdata⟩ := Option.map_eq_some_iff.mp hrun
  rw [sampleRun, hcreate, Option.bind_some] at hm₁
  have hr := Runs.reaches_of_guardedRun _ hm₁
  obtain ⟨-, -, hids, hcounts, -⟩ := hall m m₁ (.refl m) hr
  exact ⟨m, m₁, hcreate, hr, hdata, hids, hcounts⟩

/-- The first handle that is opened in a new table cannot be closed: its list is null. -/
theorem handle_close_null :
    ∃ table m h m₁, sampleMemory.createHandleTable = some (table, m) ∧
      m.openHandle table 4 (sampleRequest 100) = some (some h, m₁) ∧ m₁.IsOpen table h ∧
      m₁.closeHandle (fun _ _ => 0) (some h) = none := by
  obtain ⟨table, m, hcreate, ht⟩ := createHandleTable_tabled (m := sampleMemory) (by decide)
  have hroom : m.room table ≠ .full :=
    fun hf => ht.room_eq_full.mp hf (sampleMemory_hasRoom hcreate)
  obtain ⟨h, m₁, hrun, hopened⟩ := ht.opened hroom (show (sampleRequest 100).data ≠ 0 by decide)
  exact ⟨table, m, h, m₁, hcreate, hrun 2, hopened.isOpen,
    hopened.tabled.closeHandle_open _ hopened.isOpen⟩

end DevOs.Management
