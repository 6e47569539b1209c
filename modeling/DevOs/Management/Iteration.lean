import DevOs.Management.Handles
import Mathlib.Data.List.Sort

/-!
# Iteration over a handle table

`GetNextHandle` goes through the entries of a list and on to the next list, and returns `NULL` at
the first entry that is not present. It looks for the end of the iterator before it looks for the
end of a list, so that after the last list it reads the pointer to the next iterator as a pointer to
a list. So an iteration returns the handles in front of the first entry that is free, and all
handles when there are none behind it.
-/

namespace DevOs.Management

open Slots

def handleServerConnection : ℕ := 7

/-- `HANDLE_ITERATION_STRUCTURE` -/
structure HandleIteration where
  listIndex : ℕ
  handleIndex : ℕ
  isSet : Bool
  usable : Bool
  handleIterator : ℕ
deriving DecidableEq, Repr

def HandleIteration.zero : HandleIteration := ⟨0, 0, false, false, 0⟩

def startHandleIteration (table : ℕ) (it : HandleIteration) : HandleIteration × Bool :=
  if it.isSet then (it, false) else (⟨0, 0, true, true, table⟩, true)

namespace HandleMemory

/-- `Lists[i]`. Behind the lists is `Next`, which points to no list. -/
def listAt (m : HandleMemory) (it i : ℕ) : Option (Option ℕ) :=
  if i < 120 then some ((m.iterators it).lists (Fin.ofNat 120 i))
  else if i = 120 ∧ (m.iterators it).next = none then some none
  else none

/-- `GetNextHandle` comes to the next iterator, then to the next list. -/
def advance (m : HandleMemory) (it : HandleIteration) : HandleIteration :=
  let it :=
    if it.listIndex = 120 then
      match (m.iterators it.handleIterator).next with
      | none => { it with listIndex := 0, handleIndex := 0, usable := false }
      | some next => { it with listIndex := 0, handleIndex := 0, handleIterator := next }
    else it
  if it.handleIndex = 120 then { it with listIndex := it.listIndex + 1, handleIndex := 0 } else it

def takeEntry (m : HandleMemory) (it : HandleIteration) :
    Option (Option Handle × HandleIteration) :=
  match m.listAt it.handleIterator it.listIndex with
  | none => none
  | some none => some (none, it)
  | some (some list) =>
    let handle := (list, Fin.ofNat 120 it.handleIndex)
    if (m.entry handle).present then
      some (some handle, { it with handleIndex := it.handleIndex + 1 })
    else some (none, it)

def getNextHandle (m : HandleMemory) (it : HandleIteration) :
    Option (Option Handle × HandleIteration) :=
  if !it.isSet || !it.usable then some (none, it) else m.takeEntry (m.advance it)

/-- The handles that are returned before the first `NULL`. -/
def visitFrom (m : HandleMemory) : ℕ → HandleIteration → Option (List Handle)
  | 0, _ => none
  | fuel + 1, it =>
    match m.getNextHandle it with
    | none => none
    | some (none, _) => some []
    | some (some h, it) => (m.visitFrom fuel it).map fun hs => h :: hs

def visited (m : HandleMemory) (table fuel : ℕ) : Option (List Handle) :=
  m.visitFrom fuel (startHandleIteration table HandleIteration.zero).1

/-- The handles whose servers `IpcClientDestroy` disconnects from, with the fields `Data1` of the
handles. -/
def disconnected (m : HandleMemory) (table fuel : ℕ) (data1 : Handle → ℕ) (client : ℕ) :
    Option (List Handle) :=
  (m.visited table fuel).map fun hs =>
    hs.filter fun h => (m.entry h).dataType = handleServerConnection && data1 h = client

end HandleMemory

/-- The iteration ends, returns each open handle once and no other one, and so `IpcClientDestroy`
sees every connection of the client. -/
def IterationComplete (m : HandleMemory) (table : ℕ) : Prop :=
  ∃ fuel hs, m.visited table fuel = some hs ∧ hs.Nodup ∧ (∀ h, h ∈ hs ↔ m.IsOpen table h) ∧
    ∀ data1 client, ∃ ds, m.disconnected table fuel data1 client = some ds ∧ ∀ h, h ∈ ds ↔
      m.IsOpen table h ∧ (m.entry h).dataType = handleServerConnection ∧ data1 h = client

/-- The handle at the entry `k` of the lists of the first iterator, when it is present. -/
def HandleMemory.slotAt (m : HandleMemory) (table k : ℕ) : Option Handle :=
  ((m.iterators table).lists (Fin.ofNat 120 (k / 120))).bind fun list =>
    let handle := (list, Fin.ofNat 120 (k % 120))
    if (m.entry handle).present then some handle else none

/-- No entry in front of an open handle is free, and the entries behind the first iterator are
neither used nor reached. -/
structure Packed (m : HandleMemory) (table : ℕ) : Prop where
  inFront : ∀ h, m.IsOpen table h →
    ∃ k < 120 * 120, m.slotAt table k = some h ∧ ∀ j < k, m.slotAt table j ≠ none
  reached : (m.iterators table).next = none ∨ ∃ k < 120 * 120, m.slotAt table k = none

/-- The lists of the first iterator are allocated and distinct. -/
structure Shaped (m : HandleMemory) (table : ℕ) : Prop where
  allocated : table < m.brk
  below : ∀ i a, (m.iterators table).lists i = some a → a < m.brk
  inj : ∀ i j a, (m.iterators table).lists i = some a → (m.iterators table).lists j = some a → i = j

variable {m m' : HandleMemory} {table k fuel : ℕ} {it : HandleIteration} {h : Handle}
    {req : OpenRequest}

/-- The iteration has come to the entry `k` of the first iterator. -/
structure At (table k : ℕ) (it : HandleIteration) : Prop where
  isSet : it.isSet = true
  usable : it.usable = true
  handleIterator : it.handleIterator = table
  listIndex : it.listIndex < 120
  handleIndex : it.handleIndex ≤ 120
  place : it.listIndex * 120 + it.handleIndex = k

theorem at_start (table : ℕ) : At table 0 (startHandleIteration table HandleIteration.zero).1 :=
  ⟨rfl, rfl, rfl, Nat.succ_pos 119, Nat.zero_le 120, rfl⟩

theorem At.getNextHandle (ha : At table k it) :
    m.getNextHandle it = m.takeEntry ⟨k / 120, k % 120, true, true, table⟩ := by
  obtain ⟨hset, husable, hiterator, hlist, hhandle, hplace⟩ := ha
  obtain ⟨listIndex, handleIndex, isSet, usable, handleIterator⟩ := it
  dsimp only at hset husable hiterator hlist hhandle hplace
  subst hset husable hiterator
  rw [HandleMemory.getNextHandle, HandleMemory.advance]
  simp only [Bool.not_true, Bool.or_self, Bool.false_eq_true, if_false, if_neg (Nat.ne_of_lt hlist)]
  split_ifs with hend
  · rw [show k / 120 = listIndex + 1 by omega, show k % 120 = 0 by omega]
  · rw [show k / 120 = listIndex by omega, show k % 120 = handleIndex by omega]

/-- At an entry the handle there is returned, and with it the iteration comes to the next entry. -/
theorem At.next (ha : At table k it) (hk : k < 120 * 120) :
    ∃ it', m.getNextHandle it = some (m.slotAt table k, it') ∧
    (m.slotAt table k ≠ none → At table (k + 1) it') := by
  have hlt : k / 120 < 120 := by omega
  rw [ha.getNextHandle, HandleMemory.takeEntry, HandleMemory.listAt, if_pos hlt,
    HandleMemory.slotAt]
  cases (m.iterators table).lists (Fin.ofNat 120 (k / 120)) with
  | none => exact ⟨_, rfl, fun hne => absurd rfl hne⟩
  | some list =>
    dsimp only [Option.bind_some]
    split_ifs with hpresent
    · refine ⟨_, rfl, fun _ => ⟨rfl, rfl, rfl, hlt, ?_, ?_⟩⟩
      · exact Nat.succ_le_of_lt (Nat.mod_lt k (by decide))
      · dsimp only
        omega
    · exact ⟨_, rfl, fun hne => absurd rfl hne⟩

/-- Behind the last entry the pointer to the next iterator is read as that to a list. -/
theorem At.behind (ha : At table (120 * 120) it) :
    m.getNextHandle it = if (m.iterators table).next =
      none then some (none, ⟨120, 0, true, true, table⟩) else none := by
  rw [ha.getNextHandle, HandleMemory.takeEntry, HandleMemory.listAt, if_neg (Nat.lt_irrefl 120)]
  by_cases hnext : (m.iterators table).next = none
  · rw [if_pos ⟨rfl, hnext⟩, if_pos hnext]
  · rw [if_neg (fun h => hnext h.2), if_neg hnext]

/-- The entries from the entry `k` on. -/
def HandleMemory.slotsFrom (m : HandleMemory) (table k n : ℕ) : List (Option Handle) :=
  (List.range' k n).map (m.slotAt table)

/-- The handles that are returned from the entry `k` on, when this is before the end or nothing is
chained there. -/
theorem At.visitFrom {n : ℕ} (ha : At table k it) (hk : k + n = 120 * 120)
    (hreached : (m.iterators table).next = none ∨ ∃ j, k ≤ j ∧ j < 120 * 120 ∧
      m.slotAt table j = none) (fuel : ℕ) :
    m.visitFrom (fuel + n + 1) it = some (leading (m.slotsFrom table k n)) := by
  induction n generalizing k it with
  | zero =>
    obtain rfl : k = 120 * 120 := hk
    have hnext : (m.iterators table).next = none := by
      rcases hreached with hnext | ⟨j, hle, hlt, -⟩
      · exact hnext
      · omega
    rw [HandleMemory.visitFrom, ha.behind, if_pos hnext]
    rfl
  | succ n ih =>
    obtain ⟨it', hget, hnext⟩ := ha.next (m := m) (by omega)
    rw [← Nat.add_assoc, HandleMemory.visitFrom, hget, HandleMemory.slotsFrom, List.range'_succ,
      List.map_cons]
    cases hslot : m.slotAt table k with
    | none => rfl
    | some h =>
      have hrest := ih (hnext (by rw [hslot]; exact Option.some_ne_none h)) (by omega) (by
        rcases hreached with hnext | ⟨j, hle, hlt, hj⟩
        · exact Or.inl hnext
        · refine Or.inr ⟨j, ?_, hlt, hj⟩
          have hne : j ≠ k := by
            rintro rfl
            rw [hslot] at hj
            cases hj
          omega)
      dsimp only
      rw [hrest, leading]
      rfl

/-- With every entry present and another iterator chained, the iteration reads the iterator as a
list. -/
theorem At.visitFrom_none (ha : At table k it) (hk : k ≤ 120 * 120)
    (hfull : ∀ j, k ≤ j → j < 120 * 120 → m.slotAt table j ≠ none)
    (hnext : (m.iterators table).next ≠ none) (fuel : ℕ) : m.visitFrom fuel it = none := by
  induction fuel generalizing k it with
  | zero => rfl
  | succ fuel ih =>
    rw [HandleMemory.visitFrom]
    by_cases hend : k = 120 * 120
    · subst hend
      rw [ha.behind, if_neg hnext]
    · have hlt : k < 120 * 120 := by omega
      have hslot := hfull k (Nat.le_refl k) hlt
      obtain ⟨it', hget, hat⟩ := ha.next (m := m) hlt
      obtain ⟨h, hh⟩ := Option.ne_none_iff_exists'.mp hslot
      rw [hget, hh]
      dsimp only
      rw [ih (hat hslot) (by omega) (fun j hj => hfull j (by omega))]
      rfl

theorem visitFrom_mono {hs : List Handle} (hv : m.visitFrom fuel it = some hs) (d : ℕ) :
    m.visitFrom (fuel + d) it = some hs := by
  induction fuel generalizing it hs with
  | zero => cases hv
  | succ fuel ih =>
    rw [HandleMemory.visitFrom] at hv
    rw [Nat.succ_add, HandleMemory.visitFrom]
    split at hv
    · cases hv
    · exact hv
    · rename_i h it' hget
      obtain ⟨rest, hrest, hcons⟩ := Option.map_eq_some_iff.mp hv
      rw [ih hrest, Option.map_some, hcons]

theorem mem_leading_slots : h ∈ leading (m.slotsFrom table 0 (120 * 120)) ↔
    ∃ k < 120 * 120, m.slotAt table k = some h ∧ ∀ j < k, m.slotAt table j ≠ none := by
  have hget (k : ℕ) (x : Handle) : (m.slotsFrom table 0 (120 * 120))[k]? = some (some x) ↔
      k < 120 * 120 ∧ m.slotAt table k = some x := by
    rw [HandleMemory.slotsFrom, List.getElem?_map, Option.map_eq_some_iff]
    constructor
    · rintro ⟨j, hj, hslot⟩
      obtain ⟨hlt, hj⟩ := List.getElem?_eq_some_iff.mp hj
      rw [List.length_range'] at hlt
      rw [List.getElem_range', Nat.zero_add, Nat.one_mul] at hj
      exact ⟨hlt, hj ▸ hslot⟩
    · rintro ⟨hlt, hslot⟩
      refine ⟨k, ?_, hslot⟩
      rw [List.getElem?_range' hlt, Nat.zero_add, Nat.one_mul]
  rw [mem_leading]
  constructor
  · rintro ⟨k, hk, hbefore⟩
    obtain ⟨hlt, hslot⟩ := (hget k h).mp hk
    refine ⟨k, hlt, hslot, fun j hj => ?_⟩
    obtain ⟨y, hy⟩ := hbefore j hj
    rw [((hget j y).mp hy).2]
    exact Option.some_ne_none y
  · rintro ⟨k, hlt, hslot, hbefore⟩
    refine ⟨k, (hget k h).mpr ⟨hlt, hslot⟩, fun j hj => ?_⟩
    obtain ⟨y, hy⟩ := Option.ne_none_iff_exists'.mp (hbefore j hj)
    exact ⟨y, (hget j y).mpr ⟨Nat.lt_trans hj hlt, hy⟩⟩

theorem slotAt_eq_some : m.slotAt table k = some h ↔
    (m.iterators table).lists (Fin.ofNat 120 (k / 120)) = some h.1 ∧ Fin.ofNat 120 (k % 120) = h.2 ∧
      (m.entry h).present = true := by
  rw [HandleMemory.slotAt, Option.bind_eq_some_iff]
  constructor
  · rintro ⟨list, hlist, hentry⟩
    dsimp only at hentry
    split_ifs at hentry with hpresent
    obtain rfl := Option.some.inj hentry
    exact ⟨hlist, rfl, hpresent⟩
  · rintro ⟨hlist, hindex, hpresent⟩
    refine ⟨h.1, hlist, ?_⟩
    dsimp only
    rw [hindex, if_pos hpresent]

theorem slotAt_inj (hs : Shaped m table) {j : ℕ} (hj : j < 120 * 120) (hk : k < 120 * 120)
    (hjh : m.slotAt table j = some h) (hkh : m.slotAt table k = some h) : j = k := by
  obtain ⟨hlist, hindex, -⟩ := slotAt_eq_some.mp hjh
  obtain ⟨hlist', hindex', -⟩ := slotAt_eq_some.mp hkh
  have hrow := congrArg Fin.val (hs.inj _ _ _ hlist hlist')
  have hcolumn := congrArg Fin.val (hindex.trans hindex'.symm)
  rw [Fin.val_ofNat, Fin.val_ofNat, Nat.mod_eq_of_lt (by omega),
    Nat.mod_eq_of_lt (by omega)] at hrow
  rw [Fin.val_ofNat, Fin.val_ofNat, Nat.mod_mod, Nat.mod_mod] at hcolumn
  omega

theorem Shaped.isOpen_of_slotAt (hs : Shaped m table) (hk : m.slotAt table k = some h) :
    m.IsOpen table h := by
  obtain ⟨hlist, -, hpresent⟩ := slotAt_eq_some.mp hk
  refine ⟨?_, hpresent⟩
  obtain ⟨n, hn⟩ := Nat.exists_eq_succ_of_ne_zero (Nat.ne_zero_of_lt hs.allocated)
  rw [HandleMemory.listsOf, HandleMemory.chain, hn, HandleMemory.chainFrom]
  have hmem : h.1 ∈ contents (m.iterators table).lists := mem_contents.mpr ⟨_, hlist⟩
  split
  · rw [List.flatMap_cons]
    exact List.mem_append_left _ hmem
  · rw [List.flatMap_cons]
    exact List.mem_append_left _ hmem

theorem Shaped.leading_nodup (hs : Shaped m table) :
    (leading (m.slotsFrom table 0 (120 * 120))).Nodup := by
  refine (leading_sublist _).nodup ?_
  rw [HandleMemory.slotsFrom, List.filterMap_map, List.Nodup, List.pairwise_filterMap]
  refine (List.pairwise_lt_range' 1 Nat.one_pos).imp_of_mem ?_
  intro j k hj hk hlt x hx y hy hxy
  have hjlt := (List.mem_range'_1.mp hj).2
  have hklt := (List.mem_range'_1.mp hk).2
  subst hxy
  exact absurd (slotAt_inj hs (by omega) (by omega) hx hy) (Nat.ne_of_lt hlt)

theorem Shaped.complete_iff (hs : Shaped m table) : IterationComplete m table ↔ Packed m table := by
  have hstart := at_start table
  constructor
  · rintro ⟨fuel, hs, hvisited, -, hmem, -⟩
    have hreached : (m.iterators table).next = none ∨ ∃ k < 120 * 120, m.slotAt table k = none := by
      by_contra hnot
      rw [not_or, not_exists] at hnot
      have hnone := @At.visitFrom_none m _ _ _ hstart (Nat.zero_le _)
        (fun j _ hj hslot => hnot.2 j ⟨hj, hslot⟩) hnot.1 fuel
      rw [HandleMemory.visited, hnone] at hvisited
      cases hvisited
    have hlong := visitFrom_mono hvisited (120 * 120 + 1)
    have hrun := @At.visitFrom m _ _ _ (120 * 120) hstart (by omega)
      (hreached.imp_right fun ⟨k, hk, hslot⟩ => ⟨k, Nat.zero_le k, hk, hslot⟩) fuel
    have heq : hs = leading (m.slotsFrom table 0 (120 * 120)) :=
      Option.some.inj (hlong.symm.trans hrun)
    refine ⟨fun h ho => mem_leading_slots.mp ?_, hreached⟩
    rw [← heq]
    exact (hmem h).mpr ho
  · rintro ⟨hfront, hreached⟩
    have hrun := @At.visitFrom m _ _ _ (120 * 120) hstart (by omega)
      (hreached.imp_right fun ⟨k, hk, hslot⟩ => ⟨k, Nat.zero_le k, hk, hslot⟩) 0
    have hmem (h : Handle) : h ∈ leading (m.slotsFrom table 0 (120 * 120)) ↔ m.IsOpen table h := by
      rw [mem_leading_slots]
      exact ⟨fun ⟨k, _, hslot, _⟩ => hs.isOpen_of_slotAt hslot, hfront h⟩
    refine ⟨_, _, hrun, hs.leading_nodup, hmem, fun data1 client =>
      ⟨(leading (m.slotsFrom table 0 (120 * 120))).filter fun h =>
        (m.entry h).dataType = handleServerConnection && data1 h = client, ?_, fun h => ?_⟩⟩
    · rw [HandleMemory.disconnected, HandleMemory.visited, hrun, Option.map_some]
    · rw [List.mem_filter, hmem, Bool.and_eq_true, decide_eq_true_eq, decide_eq_true_eq]

/-- `CloseHandle` clears the flags of an entry that is present and then counts it out through its
list. With a null list the table is left with the flags cleared. -/
def HandleMemory.closed (m : HandleMemory) : Option Handle → HandleMemory
  | none => m
  | some h =>
    let e := m.entry h
    if !e.present then m
    else
      let m := { m with lists := Function.update m.lists h.1 { m.lists h.1 with
        handles := Function.update (m.lists h.1).handles h.2 { e with flags := 0 } } }
      match e.handleList with
      | none => m
      | some l => { m with lists := Function.update m.lists l { m.lists l with
          handleCount := ((m.lists l).handleCount + (2 ^ 64 - 1)) % 2 ^ 64 } }

theorem closed_of_closeHandle {release : ℕ → Handle → ℤ} {h : Option Handle} {r : ℤ}
    (hc : m.closeHandle release h = some (r, m')) : m.closed h = m' := by
  cases h with
  | none => exact congrArg Prod.snd (Option.some.inj hc)
  | some h =>
    rw [HandleMemory.closeHandle] at hc
    rw [HandleMemory.closed]
    dsimp only at hc ⊢
    by_cases hp : (!(m.entry h).present) = true
    · rw [if_pos hp] at hc ⊢
      exact congrArg Prod.snd (Option.some.inj hc)
    · rw [if_neg hp] at hc ⊢
      cases hlist : (m.entry h).handleList with
      | none =>
        rw [hlist] at hc
        cases hc
      | some l =>
        rw [hlist] at hc
        exact congrArg Prod.snd (Option.some.inj hc)

/-- What a call leaves, for an open with the depth to which `OpenHandle` comes. -/
def handleEffect (table : ℕ) (m : HandleMemory) : HandleCall × ℕ → Option HandleMemory
  | (.openHandle req, depth) => (m.openHandle table depth req).map Prod.snd
  | (.closeHandle h, _) => some (m.closed h)

theorem iterators_closed (m : HandleMemory) (h : Option Handle) :
    (m.closed h).iterators = m.iterators ∧ (m.closed h).brk = m.brk := by
  cases h with
  | none => exact ⟨rfl, rfl⟩
  | some h =>
    rw [HandleMemory.closed]
    dsimp only
    split_ifs
    · exact ⟨rfl, rfl⟩
    · cases (m.entry h).handleList with
      | none => exact ⟨rfl, rfl⟩
      | some l => exact ⟨rfl, rfl⟩

theorem Shaped.congr (hs : Shaped m table) (hiterators : m'.iterators = m.iterators)
    (hbrk : m'.brk = m.brk) :
    Shaped m' table := by
  refine ⟨?_, ?_, ?_⟩
  · rw [hbrk]
    exact hs.allocated
  · rw [hbrk, hiterators]
    exact hs.below
  · rw [hiterators]
    exact hs.inj

theorem Shaped.allocateList (hs : Shaped m table) (i : HandleIndex) (l : ℕ) :
    Shaped (m.allocateList l i) table := by
  have hlists (j : HandleIndex) (a : ℕ)
    (hj : ((m.allocateList l i).iterators table).lists j = some a) :
      table = l ∧ j = i ∧ a = m.brk ∨ (m.iterators table).lists j = some a := by
    simp only [HandleMemory.allocateList, Function.update_apply] at hj
    split_ifs at hj with hl
    · subst hl
      simp only [Function.update_apply] at hj
      split_ifs at hj with hji
      · exact Or.inl ⟨rfl, hji, (Option.some.inj hj).symm⟩
      · exact Or.inr hj
    · exact Or.inr hj
  refine ⟨Nat.lt_succ_of_lt hs.allocated, fun j a hj => ?_, fun j k a hj hk => ?_⟩
  · rcases hlists j a hj with ⟨-, -, rfl⟩ | hj
    · exact Nat.lt_succ_self m.brk
    · exact Nat.lt_succ_of_lt (hs.below j a hj)
  · rcases hlists j a hj with ⟨-, rfl, ha⟩ | hj
    · rcases hlists k a hk with ⟨-, rfl, -⟩ | hk
      · rfl
      · exact absurd (hs.below k a hk) (Nat.not_lt.mpr (Nat.le_of_eq ha.symm))
    · rcases hlists k a hk with ⟨-, -, ha⟩ | hk
      · exact absurd (hs.below j a hj) (Nat.not_lt.mpr (Nat.le_of_eq ha.symm))
      · exact hs.inj j k a hj hk

theorem Shaped.allocateIterator (hs : Shaped m table) (l : ℕ) :
    Shaped (m.allocateIterator l) table := by
  have hlists : ((m.allocateIterator l).iterators table).lists = (m.iterators table).lists := by
    simp only [HandleMemory.allocateIterator, Function.update_of_ne (Nat.ne_of_lt hs.allocated),
      Function.update_apply]
    split_ifs with hl
    · rw [hl]
    · rfl
  refine ⟨Nat.lt_succ_of_lt hs.allocated, fun j a hj => ?_, ?_⟩
  · rw [hlists] at hj
    exact Nat.lt_succ_of_lt (hs.below j a hj)
  · rw [hlists]
    exact hs.inj

theorem Shaped.openFrom {it iteratorId depth : ℕ} {r : Option Handle × HandleMemory}
    (hs : Shaped m table) (hr : HandleMemory.openFrom table depth it iteratorId m req = some r) :
    Shaped r.2 table := by
  induction depth generalizing it iteratorId m req r with
  | zero => cases hr
  | succ depth ih =>
    rw [HandleMemory.openFrom] at hr
    split_ifs at hr with hdata
    · obtain rfl := Option.some.inj hr
      exact hs
    · split at hr
      · obtain rfl := Option.some.inj hr
        exact hs.congr rfl rfl
      · obtain ⟨r₁, hr₁, hr₂⟩ := Option.bind_eq_some_iff.mp hr
        exact ih (ih (hs.allocateList _ it) hr₁) hr₂
      · split at hr
        · exact ih hs hr
        · obtain ⟨r₁, hr₁, hr₂⟩ := Option.bind_eq_some_iff.mp hr
          exact ih (ih ((hs.allocateIterator it).allocateList 0 it) hr₁) hr₂

theorem Shaped.effect {c : HandleCall × ℕ} (hs : Shaped m table)
    (hc : handleEffect table m c = some m') :
    Shaped m' table := by
  obtain ⟨call, depth⟩ := c
  cases call with
  | openHandle req =>
    obtain ⟨r, hr, rfl⟩ := Option.map_eq_some_iff.mp hc
    exact hs.openFrom hr
  | closeHandle h =>
    obtain rfl := Option.some.inj hc
    exact hs.congr (iterators_closed m h).1 (iterators_closed m h).2

theorem Shaped.reaches {guard : HandleMemory → HandleCall × ℕ → Prop} (hs : Shaped m table)
    (hr : Runs.Reaches (handleEffect table) guard m m') : Shaped m' table := by
  refine hr.invariant (I := fun n => Shaped n table) ?_ hs
  intro n c n' hn _ hc
  exact hn.effect hc

theorem Tabled.shaped (ht : Tabled m table) : Shaped m table := ⟨ht.allocated, ht.below, ht.inj⟩

def Dense (m : HandleMemory) (table : ℕ) : Prop :=
  ∀ k < 120 * 120, m.slotAt table k ≠ none → ∀ j < k, m.slotAt table j ≠ none

theorem slotAt_ne_none : m.slotAt table k ≠ none ↔
    ∃ a, (m.iterators table).lists (Fin.ofNat 120 (k / 120)) = some a ∧
      (m.lists a).slots (Fin.ofNat 120 (k % 120)) ≠ none := by
  constructor
  · intro hne
    obtain ⟨h, hh⟩ := Option.ne_none_iff_exists'.mp hne
    obtain ⟨hlist, hindex, hpresent⟩ := slotAt_eq_some.mp hh
    refine ⟨h.1, hlist, ?_⟩
    have hentry : ((m.lists h.1).handles h.2).present = true := hpresent
    rw [hindex, HandleList.slots, if_pos hentry]
    exact Option.some_ne_none _
  · rintro ⟨a, hlist, hne⟩
    have hpresent : (m.entry (a, Fin.ofNat 120 (k % 120))).present = true := by
      rw [Ne, HandleList.slots_eq_none, Bool.not_eq_false] at hne
      exact hne
    rw [slotAt_eq_some.mpr ⟨hlist, rfl, hpresent⟩]
    exact Option.some_ne_none _

theorem Tabled.packed (ht : Tabled m table) (hd : Dense m table) : Packed m table := by
  refine ⟨fun h ho => ?_, Or.inl ht.next⟩
  obtain ⟨⟨i, hi⟩, hp⟩ := ht.isOpen_iff.mp ho
  have hlt : i.val * 120 + h.2.val < 120 * 120 := by omega
  have hslot : m.slotAt table (i.val * 120 + h.2.val) = some h := by
    refine slotAt_eq_some.mpr ⟨?_, ?_, hp⟩
    · rw [show (i.val * 120 + h.2.val) / 120 = i.val by omega, Fin.ofNat_val_eq_self]
      exact hi
    · rw [show (i.val * 120 + h.2.val) % 120 = h.2.val by omega, Fin.ofNat_val_eq_self]
  refine ⟨_, hlt, hslot, hd _ hlt ?_⟩
  rw [hslot]
  exact Option.some_ne_none h

def Room.place : Room → Option HandleIndex
  | .slot i _ _ => some i
  | .missing i => some i
  | .full => none

/-- The lists in front of the place where the scan stops are allocated and full. -/
theorem roomIn_before {iterator : HandleIterator} {i j : HandleIndex} (is : List HandleIndex)
    (hsorted : is.Pairwise (· < ·)) (hr : (m.roomIn iterator is).place = some i) (hj : j ∈ is)
    (hlt : j < i) :
    ∃ a, iterator.lists j = some a ∧
    ((m.lists a).handleCount < 120 → firstFree (m.lists a).slots = none) := by
  induction is with
  | nil => cases hj
  | cons k is ih =>
    obtain ⟨hk, hsorted⟩ := List.pairwise_cons.mp hsorted
    have hstop : i ≠ k := by
      rintro rfl
      rcases List.mem_cons.mp hj with rfl | hj
      · exact Nat.lt_irrefl _ hlt
      · exact Nat.lt_asymm hlt (hk j hj)
    rw [HandleMemory.roomIn] at hr
    cases hlist : iterator.lists k with
    | none =>
      simp only [hlist, Room.place] at hr
      exact absurd (Option.some.inj hr).symm hstop
    | some b =>
      simp only [hlist] at hr
      have hskip : (m.roomIn iterator is).place = some i ∧
          ((m.lists b).handleCount < 120 → firstFree (m.lists b).slots = none) := by
        split_ifs at hr with hc
        · cases hfree : firstFree (m.lists b).slots with
          | none =>
            simp only [hfree] at hr
            exact ⟨hr, fun _ => rfl⟩
          | some y =>
            simp only [hfree, Room.place] at hr
            exact absurd (Option.some.inj hr).symm hstop
        · exact ⟨hr, fun h => absurd h hc⟩
      rcases List.mem_cons.mp hj with rfl | hj
      · exact ⟨b, hlist, hskip.2⟩
      · exact ih hsorted hskip.1 hj

theorem Tabled.slots_full {i : HandleIndex} {a : ℕ} (ht : Tabled m table)
    (hi : (m.iterators table).lists i = some a)
    (hskip : (m.lists a).handleCount < 120 → firstFree (m.lists a).slots = none) (x : HandleIndex) :
    (m.lists a).slots x ≠ none := by
  by_cases hlt : (m.lists a).handleCount < 120
  · exact firstFree_eq_none (hskip hlt) x
  · have hcount := ht.counted i a hi
    exact firstFree_eq_none (firstFree_of_full (hcount ▸ Nat.not_lt.mp hlt)) x

theorem Tabled.present_before {i : HandleIndex} (ht : Tabled m table)
    (hr : (m.room table).place = some i) (hk : k / 120 < i.val) : m.slotAt table k ≠ none := by
  have hrow : Fin.ofNat 120 (k / 120) < i := by
    rw [Fin.lt_def, Fin.val_ofNat]
    exact Nat.lt_of_le_of_lt (Nat.mod_le _ _) hk
  obtain ⟨a, ha, hskip⟩ :=
    roomIn_before (List.finRange 120) (List.sortedLT_finRange 120).pairwise hr
    (List.mem_finRange _) hrow
  exact slotAt_ne_none.mpr ⟨a, ha, ht.slots_full ha hskip _⟩

theorem roomIn_firstFree {iterator : HandleIterator} {i x : HandleIndex} {a : ℕ}
    (is : List HandleIndex) (hr : m.roomIn iterator is = .slot i a x) :
    firstFree (m.lists a).slots = some x := by
  induction is with
  | nil => cases hr
  | cons k is ih =>
    rw [HandleMemory.roomIn] at hr
    cases hlist : iterator.lists k with
    | none => simp only [hlist, reduceCtorEq] at hr
    | some b =>
      simp only [hlist] at hr
      split_ifs at hr
      · cases hfree : firstFree (m.lists b).slots with
        | none =>
          simp only [hfree] at hr
          exact ih hr
        | some y =>
          simp only [hfree, Room.slot.injEq] at hr
          obtain ⟨-, rfl, rfl⟩ := hr
          exact hfree
      · exact ih hr

theorem Tabled.dense_fill {i x : HandleIndex} {a : ℕ} (ht : Tabled m table) (hd : Dense m table)
    (hr : m.room table = .slot i a x) : Dense (m.fill (a, x) req (calculateId 0 i x)) table := by
  obtain ⟨hi, hx⟩ := roomIn_slot _ hr
  have hfirst := roomIn_firstFree _ hr
  have hbefore (j : ℕ) (hj : j < i.val * 120 + x.val) : m.slotAt table j ≠ none := by
    by_cases hlist : j / 120 < i.val
    · exact ht.present_before (by rw [hr]; rfl) hlist
    · have hsame : Fin.ofNat 120 (j / 120) = i := by
        rw [show j / 120 = i.val by omega, Fin.ofNat_val_eq_self]
      refine slotAt_ne_none.mpr ⟨a, by rw [hsame]; exact hi, firstFree_before hfirst ?_⟩
      rw [Fin.lt_def, Fin.val_ofNat]
      omega
  have hlists (b : ℕ) (y : HandleIndex) :
    ((m.fill (a, x) req (calculateId 0 i x)).lists b).slots y ≠ none ↔
      (b = a ∧ y = x) ∨ (m.lists b).slots y ≠ none := by
    simp only [HandleMemory.fill, Function.update_apply]
    split_ifs with hb
    · rw [hb, HandleList.slots_fill, Function.update_apply]
      split_ifs with hy
      · exact iff_of_true (Option.some_ne_none _) (Or.inl ⟨rfl, hy⟩)
      · exact ⟨Or.inr, fun h => h.resolve_left fun h => hy h.2⟩
    · exact ⟨Or.inr, fun h => h.resolve_left fun h => hb h.1⟩
  have hkept (j : ℕ) (hj : m.slotAt table j ≠ none) :
      (m.fill (a, x) req (calculateId 0 i x)).slotAt table j ≠ none := by
    obtain ⟨b, hb, hslot⟩ := slotAt_ne_none.mp hj
    exact slotAt_ne_none.mpr ⟨b, hb, (hlists b _).mpr (Or.inr hslot)⟩
  intro k hk hslot j hj
  obtain ⟨b, hb, hpresent⟩ := slotAt_ne_none.mp hslot
  change (m.iterators table).lists _ = some b at hb
  rcases (hlists b _).mp hpresent with ⟨rfl, hcolumn⟩ | hold
  · have hrow := congrArg Fin.val (ht.inj _ _ _ hb hi)
    have hcolumn := congrArg Fin.val hcolumn
    rw [Fin.val_ofNat, Nat.mod_eq_of_lt (by omega)] at hrow hcolumn
    exact hkept j (hbefore j (by omega))
  · exact hkept j (hd k hk (slotAt_ne_none.mpr ⟨b, hb, hold⟩) j hj)

theorem Tabled.dense_allocateList {i : HandleIndex} (ht : Tabled m table) (hd : Dense m table)
    (hi : (m.iterators table).lists i = none) : Dense (m.allocateList table i) table := by
  have hsame (k : ℕ) : (m.allocateList table i).slotAt table k ≠ none ↔
      m.slotAt table k ≠ none := by
    rw [slotAt_ne_none, slotAt_ne_none]
    simp only [HandleMemory.allocateList, Function.update_self]
    constructor
    · rintro ⟨a, ha, hslot⟩
      rw [Function.update_apply] at ha
      split_ifs at ha with hk
      · obtain rfl := Option.some.inj ha
        rw [Function.update_self, HandleList.slots_zero] at hslot
        exact absurd rfl hslot
      · refine ⟨a, ha, ?_⟩
        rw [Function.update_of_ne (Nat.ne_of_lt (ht.below _ a ha))] at hslot
        exact hslot
    · rintro ⟨a, ha, hslot⟩
      have hk : Fin.ofNat 120 (k / 120) ≠ i := by
        intro hk
        rw [hk, hi] at ha
        cases ha
      refine ⟨a, ?_, ?_⟩
      · rw [Function.update_of_ne hk]
        exact ha
      · rw [Function.update_of_ne (Nat.ne_of_lt (ht.below _ a ha))]
        exact hslot
  intro k hk hslot j hj
  exact (hsame j).mpr (hd k hk ((hsame k).mp hslot) j hj)

theorem Tabled.dense_once {r : Option Handle × HandleMemory} (ht : Tabled m table)
    (hd : Dense m table) (hr : HandleMemory.openFrom table 1 table 0 m req = some r) :
    Dense r.2 table := by
  rw [HandleMemory.openFrom] at hr
  split_ifs at hr with hdata
  · obtain rfl := Option.some.inj hr
    exact hd
  · split at hr
    · rename_i i a x hroom
      obtain rfl := Option.some.inj hr
      exact ht.dense_fill hd hroom
    · cases hr
    · split at hr
      · cases hr
      · cases hr

theorem Tabled.dense_open {h' : Option Handle} (ht : Tabled m table) (hd : Dense m table)
    (hok : m.room table ≠ .full)
    (hr : HandleMemory.openFrom table (fuel + 2) table 0 m req = some (h', m')) :
    Dense m' table := by
  by_cases hdata : req.data = 0
  · rw [HandleMemory.openFrom, if_pos hdata] at hr
    obtain ⟨-, rfl⟩ := Prod.mk.inj (Option.some.inj hr)
    exact hd
  · cases hroom : m.room table with
    | slot i a x =>
      rw [openFrom_slot (fuel + 1) hroom hdata] at hr
      obtain ⟨-, rfl⟩ := Prod.mk.inj (Option.some.inj hr)
      exact ht.dense_fill hd hroom
    | missing i =>
      have hi := roomIn_missing _ hroom
      have hbrk : (freeRequest req.thread m.brk).data ≠ 0 := Nat.ne_zero_of_lt ht.allocated
      obtain ⟨h₁, m₁, h₂, m₂, hrun₁, hopened₁, hrun₂, -⟩ := ht.opened_two hroom hbrk hdata
      rw [HandleMemory.openFrom, if_neg hdata] at hr
      simp only [hroom] at hr
      rw [hrun₁ fuel, Option.bind_some, hrun₂ fuel] at hr
      obtain ⟨-, rfl⟩ := Prod.mk.inj (Option.some.inj hr)
      have hd₁ := (ht.allocateList hi).dense_once (ht.dense_allocateList hd hi) (hrun₁ 0)
      exact hopened₁.tabled.dense_once hd₁ (hrun₂ 0)
    | full => exact absurd hroom hok

theorem openFrom_mono {it iteratorId depth : ℕ} {r : Option Handle × HandleMemory}
    (hr : HandleMemory.openFrom table depth it iteratorId m req = some r) (d : ℕ) :
    HandleMemory.openFrom table (depth + d) it iteratorId m req = some r := by
  induction depth generalizing it iteratorId m req r with
  | zero => cases hr
  | succ depth ih =>
    rw [HandleMemory.openFrom] at hr
    rw [Nat.succ_add, HandleMemory.openFrom]
    split_ifs at hr ⊢ with hdata
    · exact hr
    · split at hr
      · exact hr
      · obtain ⟨r₁, hr₁, hr₂⟩ := Option.bind_eq_some_iff.mp hr
        rw [ih hr₁, Option.bind_some]
        exact ih hr₂
      · split at hr
        · exact ih hr
        · dsimp only at hr ⊢
          obtain ⟨r₁, hr₁, hr₂⟩ := Option.bind_eq_some_iff.mp hr
          rw [ih hr₁, Option.bind_some]
          exact ih hr₂

theorem Tabled.effect {c : HandleCall × ℕ} (ht : Tabled m table) (hd : Dense m table)
    (hok : handleOk table m c.1) (hc : handleEffect table m c = some m') :
    Tabled m' table ∧ Dense m' table := by
  obtain ⟨call, depth⟩ := c
  cases call with
  | openHandle req =>
    obtain ⟨r, hr, rfl⟩ := Option.map_eq_some_iff.mp hc
    by_cases hdata : req.data = 0
    · cases depth with
      | zero => cases hr
      | succ depth =>
        rw [HandleMemory.openHandle, HandleMemory.openFrom, if_pos hdata] at hr
        obtain rfl := Option.some.inj hr
        exact ⟨ht, hd⟩
    · have hroom : m.room table ≠ .full := fun hf => ht.room_eq_full.mp hf (hok.resolve_left hdata)
      have hrun := openFrom_mono hr 2
      obtain ⟨h, m', hrun', hopened⟩ := ht.opened hroom hdata
      have heq : r = (some h, m') := Option.some.inj (hrun.symm.trans (hrun' depth))
      refine ⟨?_, ht.dense_open hd hroom hrun⟩
      rw [heq]
      exact hopened.tabled
  | closeHandle h =>
    obtain rfl := Option.some.inj hc
    have hsame : m.closed h = m := by
      obtain ⟨r, hr⟩ := closeHandle_absent (fun _ _ => 0) hok
      exact closed_of_closeHandle hr
    rw [hsame]
    exact ⟨ht, hd⟩

theorem Tabled.effects (ht : Tabled m table) (hd : Dense m table)
    (hr : Runs.Reaches (handleEffect table) (fun m c => handleOk table m c.1) m m') :
    Tabled m' table ∧ Dense m' table := by
  refine hr.invariant (I := fun n => Tabled n table ∧ Dense n table) ?_ ⟨ht, hd⟩
  intro n c n' hn hok hc
  exact hn.1.effect hn.2 hok hc

theorem createHandleTable_dense (hbrk : 0 < m.brk) :
    ∃ table m', m.createHandleTable = some (table, m') ∧ Tabled m' table ∧ Dense m' table := by
  obtain ⟨m₁, _, m₂, _, m₃, ht₁, hempty, hrun₁, ht₂, hrun₂, ht₃, hcreate⟩ :=
    createHandleTable_opened hbrk
  have hd : Dense m₁ m.brk := by
    intro k _ hslot
    obtain ⟨a, ha, -⟩ := slotAt_ne_none.mp hslot
    rw [hempty] at ha
    cases ha
  have hd₁ := (ht₁.allocateList (hempty 0)).dense_once (ht₁.dense_allocateList hd (hempty 0))
    (hrun₁ 0)
  exact ⟨m.brk, m₃, hcreate, ht₃, ht₂.dense_once hd₁ (hrun₂ 0)⟩

/-- In every table that opens and closes reach, an iteration is complete exactly when the open
handles are packed. This they are as long as no open handle is closed and none is opened when the
first iterator is full. -/
theorem iterationComplete_iff (m₀ : HandleMemory) (hbrk : 0 < m₀.brk) :
    ∃ table m, m₀.createHandleTable = some (table, m) ∧
      (∀ m₁, Runs.Reaches (handleEffect table) Runs.anyStep m m₁ →
        (IterationComplete m₁ table ↔ Packed m₁ table)) ∧
      ∀ m₁, Runs.Reaches (handleEffect table) (fun m c => handleOk table m c.1) m m₁ →
        IterationComplete m₁ table := by
  obtain ⟨table, m, hcreate, ht, hd⟩ := createHandleTable_dense hbrk
  refine ⟨table, m, hcreate, fun m₁ hr => (ht.shaped.reaches hr).complete_iff, fun m₁ hr => ?_⟩
  obtain ⟨ht₁, hd₁⟩ := ht.effects hd hr
  exact ht₁.shaped.complete_iff.mpr (ht₁.packed hd₁)

def holedCalls : List (HandleCall × ℕ) :=
  [(.openHandle (sampleRequest 100), 4), (.openHandle (sampleRequest 200), 4),
    (.closeHandle (some (2, 2)), 0)]

/-- The iteration stops at the entry of the handle that is closed, in front of the one that is
open. -/
theorem iteration_stops_at_hole :
    ∃ table m m₁, sampleMemory.createHandleTable = some (table, m) ∧
      Runs.Reaches (handleEffect table) Runs.anyStep m m₁ ∧ m₁.IsOpen table (2, 3) ∧
      m₁.visited table 3 = some [(2, 0), (2, 1)] ∧ ¬ IterationComplete m₁ table := by
  obtain ⟨table, m, hcreate, ht⟩ := createHandleTable_tabled (m := sampleMemory) (by decide)
  obtain rfl : table = 1 := Runs.eq_of_map (fun s : ℕ × HandleMemory => s.1) hcreate (by decide)
  have hsome : ((Runs.guardedRun (handleEffect 1) Runs.anyStep m holedCalls).isSome) = true :=
    Runs.eq_of_map (fun s : ℕ × HandleMemory =>
      (Runs.guardedRun (handleEffect 1) Runs.anyStep s.2 holedCalls).isSome)
      hcreate (by decide)
  obtain ⟨m₁, hrun⟩ := Option.isSome_iff_exists.mp hsome
  have hr := Runs.reaches_of_guardedRun holedCalls hrun
  have hs : Shaped m₁ 1 := ht.shaped.reaches hr
  have hwhole : sampleMemory.createHandleTable.bind (fun s =>
      Runs.guardedRun (handleEffect 1) Runs.anyStep s.2 holedCalls) = some m₁ := by
    rw [hcreate]
    exact hrun
  have hvisited : m₁.visited 1 3 = some [(2, 0), (2, 1)] :=
    Runs.eq_of_map (fun s : HandleMemory => s.visited 1 3) hwhole (by decide)
  have hfree : m₁.slotAt 1 2 = none :=
    Runs.eq_of_map (fun s : HandleMemory => s.slotAt 1 2) hwhole (by decide)
  have hslot : m₁.slotAt 1 3 = some (2, 3) :=
    Runs.eq_of_map (fun s : HandleMemory => s.slotAt 1 3) hwhole (by decide)
  have ho := hs.isOpen_of_slotAt hslot
  refine ⟨1, m, m₁, hcreate, hr, ho, hvisited, fun hcomplete => ?_⟩
  obtain ⟨k, hk, hkslot, hbefore⟩ := (hs.complete_iff.mp hcomplete).inFront (2, 3) ho
  obtain rfl := slotAt_inj hs hk (by decide) hkslot hslot
  exact hbefore 2 (by decide) hfree

def iteratedData (m : HandleMemory) : Option (List ℕ) :=
  (m.visited 1 6).map fun hs => hs.map fun h => (m.entry h).data

/-- The handles to 100, 200 and 300 are returned in turn. -/
theorem iterationComplete_three :
    ∃ m m₁, sampleMemory.createHandleTable = some (1, m) ∧
      Runs.Reaches (handleEffect 1) (fun m c => handleOk 1 m c.1) m m₁ ∧
      iteratedData m₁ = some [1, 2, 100, 200, 300] ∧ IterationComplete m₁ 1 := by
  obtain ⟨table, m, hcreate, -, hok⟩ := iterationComplete_iff sampleMemory (by decide)
  obtain rfl : table = 1 := Runs.eq_of_map (fun s : ℕ × HandleMemory => s.1) hcreate (by decide)
  have hrun : (sampleMemory.createHandleTable.bind fun s => Runs.guardedRun (handleEffect s.1)
      (fun m c => handleOk s.1 m c.1) s.2 (sampleCalls.map fun c => (c, 4))).map iteratedData =
      some (some [1, 2, 100, 200, 300]) := by
    decide +kernel
  obtain ⟨m₁, hm₁, hvisited⟩ := Option.map_eq_some_iff.mp hrun
  rw [hcreate, Option.bind_some] at hm₁
  have hr := Runs.reaches_of_guardedRun _ hm₁
  exact ⟨m, m₁, hcreate, hr, hvisited, hok m₁ hr⟩

end DevOs.Management
