import DevOs.Interrupts.Model
import DevOs.Lib.Blocks

/-!
# What a call of `KeControlIrq` does

The controllers are sorted by their identifiers, every registered one is among them, and a line is
found in the controller where the blocks of entries in front of it end. The outcomes of a call are
told apart once, with the conditions they arise under.
-/

namespace DevOs.Interrupts

/-- What `IoApicInit` keeps up: a controller is at its identifier, and the controllers are
counted. -/
structure IoApicList.Sound (l : IoApicList) : Prop where
  id : ∀ i a, l.tmp i = some a → a.ioApicId = i
  count : (Slots.contents l.tmp).length = l.numIoApics

theorem IoApicList.Sound.ioApicInit {l : IoApicList} (h : l.Sound) (a : IoApic) :
    (ioApicInit l a).Sound := by
  rw [Interrupts.ioApicInit]
  by_cases hk : (l.tmp a.ioApicId).isSome
  · rw [if_pos hk]
    exact h
  · rw [if_neg hk]
    refine ⟨?_, ?_⟩
    · intro i b hb
      change Function.update l.tmp a.ioApicId (some a) i = some b at hb
      by_cases hi : i = a.ioApicId
      · subst hi
        rw [Function.update_self] at hb
        cases hb
        rfl
      · rw [Function.update_of_ne hi] at hb
        exact h.id i b hb
    · have hfree : l.tmp a.ioApicId = none := Option.not_isSome_iff_eq_none.mp hk
      rw [(Slots.contents_put hfree a).length_eq, List.length_cons, h.count]

theorem foldl_sound (records : List MadtRecord) {l : IoApicList} (h : l.Sound) :
    (records.foldl (fun l r => match r with | .ioApic a => ioApicInit l a | _ => l) l).Sound := by
  induction records generalizing l with
  | nil => exact h
  | cons r records ih =>
    rw [List.foldl_cons]
    apply ih
    cases r with
    | ioApic a => exact h.ioApicInit a
    | ioApicIso o => exact h
    | other => exact h

theorem acpiReadMadt_sound (records : List MadtRecord) : (acpiReadMadt records).Sound := by
  apply foldl_sound
  refine ⟨?_, ?_⟩
  · intro i a h
    cases h
  · rw [Slots.contents_none]
    rfl

/-- The loop stops early when all controllers are found, so that what is left adds nothing. -/
theorem foldl_sorted {l : IoApicList} (is : List (Fin 256)) (sorted : List IoApic)
    (h : sorted.length + (is.filterMap l.tmp).length = l.numIoApics) :
    is.foldl (fun sorted i => if sorted.length = l.numIoApics then sorted
      else sorted ++ (l.tmp i).toList) sorted =
      sorted ++ is.filterMap l.tmp := by
  induction is generalizing sorted with
  | nil => simp
  | cons i is ih =>
    rw [List.foldl_cons]
    by_cases hd : sorted.length = l.numIoApics
    · have hnil : (i :: is).filterMap l.tmp = [] := List.length_eq_zero_iff.mp (by omega)
      have hrest : is.filterMap l.tmp = [] := by
        rw [List.filterMap_eq_nil_iff] at hnil ⊢
        exact fun j hj => hnil j (List.mem_cons_of_mem i hj)
      rw [if_pos hd, ih sorted (by rw [hrest]; exact hd), hrest, hnil]
    · rw [if_neg hd]
      cases hi : l.tmp i with
      | none =>
        rw [List.filterMap_cons_none hi] at h ⊢
        rw [Option.toList_none, List.append_nil]
        exact ih sorted h
      | some a =>
        rw [List.filterMap_cons_some hi] at h ⊢
        rw [Option.toList_some, ih (sorted ++ [a]) (by
          simpa [Nat.add_assoc, Nat.add_comm 1] using h),
          List.append_assoc, List.singleton_append]

theorem sortIoApics_eq {l : IoApicList} (h : l.Sound) : sortIoApics l = Slots.contents l.tmp := by
  have hcount := h.count
  rw [Slots.contents_eq] at hcount ⊢
  rw [sortIoApics, foldl_sorted (List.finRange 256) [] (by
    rw [List.length_nil, Nat.zero_add]; exact hcount),
    List.nil_append]

theorem length_sortIoApics (records : List MadtRecord) :
    (sortIoApics (acpiReadMadt records)).length = (acpiReadMadt records).numIoApics := by
  rw [sortIoApics_eq (acpiReadMadt_sound records), (acpiReadMadt_sound records).count]

theorem sortIoApics_sorted (records : List MadtRecord) :
    (sortIoApics (acpiReadMadt records)).Pairwise fun a b => a.ioApicId < b.ioApicId := by
  have hs := acpiReadMadt_sound records
  rw [sortIoApics_eq hs, Slots.contents_eq, List.pairwise_filterMap]
  refine (List.pairwise_lt_finRange 256).imp ?_
  intro i j hij a ha b hb
  rw [hs.id i a ha, hs.id j b hb]
  exact hij

theorem numIoApics_le (records : List MadtRecord) : (acpiReadMadt records).numIoApics ≤ 256 := by
  rw [← (acpiReadMadt_sound records).count]
  exact Slots.length_contents_le _

theorem ioApicGetMaxRedirectionEntry_lt (a : IoApic) : ioApicGetMaxRedirectionEntry a < 256 :=
  Nat.lt_of_le_of_lt Nat.and_le_right (by decide)

/-- The loop over the controllers finds the block of the line among the blocks of entries. -/
theorem findRedirectionEntry_eq_some {as : List IoApic} {i n k j : ℕ} {a : IoApic} :
    findRedirectionEntry as i n = some (k, a, j) ↔
      ∃ m, k = i + m ∧ as[m]? = some a ∧ Blocks.locate (as.map IoApic.size) n = some (m, j) := by
  induction as generalizing i n with
  | nil =>
    constructor
    · intro h
      cases h
    · rintro ⟨m, -, ha, -⟩
      rw [List.getElem?_nil] at ha
      cases ha
  | cons b as ih =>
    rw [findRedirectionEntry, List.map_cons, Blocks.locate]
    by_cases hb : n ≤ ioApicGetMaxRedirectionEntry b
    · rw [if_pos hb, if_pos (show n < b.size from Nat.lt_succ_of_le hb)]
      constructor
      · intro h
        cases h
        exact ⟨0, rfl, rfl, rfl⟩
      · rintro ⟨m, hk, ha, hm⟩
        cases hm
        rw [List.getElem?_cons_zero] at ha
        cases ha
        rw [hk, Nat.add_zero]
    · rw [if_neg hb, if_neg (show ¬n < b.size from fun h => hb (Nat.le_of_lt_succ h)), ih]
      constructor
      · rintro ⟨m, hk, ha, hm⟩
        exact ⟨m + 1, by omega, ha, by rw [IoApic.size, hm]; rfl⟩
      · rintro ⟨m, hk, ha, hm⟩
        obtain ⟨⟨m', j'⟩, hm', he⟩ := Option.map_eq_some_iff.mp hm
        cases he
        exact ⟨m', by omega, ha, hm'⟩

theorem findRedirectionEntry_eq_none {as : List IoApic} {i n : ℕ} :
    findRedirectionEntry as i n = none ↔ (as.map IoApic.size).sum ≤ n := by
  rw [← Blocks.locate_eq_none]
  induction as generalizing i n with
  | nil => exact ⟨fun _ => rfl, fun _ => rfl⟩
  | cons b as ih =>
    rw [findRedirectionEntry, List.map_cons, Blocks.locate]
    by_cases hb : n ≤ ioApicGetMaxRedirectionEntry b
    · rw [if_pos hb, if_pos (show n < b.size from Nat.lt_succ_of_le hb)]
      exact ⟨fun h => (by cases h), fun h => (by cases h)⟩
    · rw [if_neg hb, if_neg (show ¬n < b.size from fun h => hb (Nat.le_of_lt_succ h)), ih,
        Option.map_eq_none_iff]
      rfl

def Machine.lines (M : Machine) : ℕ := ((sortIoApics M.ioApicList).map IoApic.size).sum

/-- The entry `j` of the controller `a`, the `k`-th of the sorted ones, is the one of the line
`n`. -/
structure EntryOf (M : Machine) (n k : ℕ) (a : IoApic) (j : ℕ) : Prop where
  ioApic : (sortIoApics M.ioApicList)[k]? = some a
  entry : j < a.size
  base : (((sortIoApics M.ioApicList).take k).map IoApic.size).sum + j = n

theorem entryOf_iff {M : Machine} {n k j : ℕ} {a : IoApic} :
    EntryOf M n k a j ↔ findRedirectionEntry (sortIoApics M.ioApicList) 0 n = some (k, a, j) := by
  rw [findRedirectionEntry_eq_some]
  constructor
  · intro h
    refine ⟨k, (Nat.zero_add k).symm, h.ioApic, Blocks.locate_eq_some.mpr ⟨a.size, ?_, h.entry, ?_⟩⟩
    · rw [List.getElem?_map, h.ioApic]
      rfl
    · rw [← List.map_take]
      exact h.base
  · rintro ⟨m, hk, ha, hm⟩
    rw [Nat.zero_add] at hk
    subst hk
    obtain ⟨z, hz, hj, hn⟩ := Blocks.locate_eq_some.mp hm
    rw [List.getElem?_map, ha] at hz
    cases hz
    rw [← List.map_take] at hn
    exact ⟨ha, hj, hn⟩

theorem EntryOf.unique {M : Machine} {n k k' j j' : ℕ} {a a' : IoApic} (h : EntryOf M n k a j)
    (h' : EntryOf M n k' a' j') : k' = k ∧ a' = a ∧ j' = j := by
  have he := (entryOf_iff.mp h').symm.trans (entryOf_iff.mp h)
  cases he
  exact ⟨rfl, rfl, rfl⟩

theorem EntryOf.lt_lines {M : Machine} {n k j : ℕ} {a : IoApic} (h : EntryOf M n k a j) :
    n < M.lines := by
  by_contra hn
  have hnone := findRedirectionEntry_eq_none (i := 0).mpr (Nat.not_lt.mp hn)
  rw [entryOf_iff.mp h] at hnone
  cases hnone

theorem EntryOf.ioApic_lt {M : Machine} {n k j : ℕ} {a : IoApic} (h : EntryOf M n k a j) :
    k < 256 := by
  have hk := (List.getElem?_eq_some_iff.mp h.ioApic).1
  rw [Machine.ioApicList, length_sortIoApics] at hk
  exact Nat.lt_of_lt_of_le hk (numIoApics_le _)

theorem EntryOf.entry_lt {M : Machine} {n k j : ℕ} {a : IoApic} (h : EntryOf M n k a j) :
    j < 256 := by
  have hj := h.entry
  have ha := ioApicGetMaxRedirectionEntry_lt a
  rw [IoApic.size] at hj
  omega

@[simp] theorem wrapSwitch_table (M : Machine) (s : IrqState) :
    (wrapSwitch M s).table = s.table := by
  rw [wrapSwitch]
  split <;> rfl

def target (M : Machine) (s : IrqState) : ℕ := (wrapSwitch M s).processorSwitch

theorem target_lt {M : Machine} {s : IrqState} (hpos : 1 ≤ M.numProcessors) :
    target M s < M.numProcessors ↔ s.processorSwitch ≤ M.numProcessors := by
  rw [target, wrapSwitch]
  by_cases h : s.processorSwitch = M.numProcessors
  · rw [if_pos h]
    exact ⟨fun _ => h.le, fun _ => hpos⟩
  · rw [if_neg h]
    exact ⟨fun hlt => hlt.le, fun hle => Nat.lt_of_le_of_ne hle h⟩

theorem inUse_eq_none {d : IrqDescriptor} : d.inUse = none ↔ d.present = false := by
  rw [IrqDescriptor.inUse]
  cases d.present with
  | false => exact ⟨fun _ => rfl, fun _ => rfl⟩
  | true => exact ⟨fun h => (by cases h), fun h => (by cases h)⟩

theorem freeDescriptor_eq_some {table : IrqSlot → IrqDescriptor} {i : IrqSlot}
    (h : freeDescriptor table = some i) :
    (table i).present = false :=
  inUse_eq_none.mp (Slots.firstFree_eq_some h)

theorem freeDescriptor_eq_none {table : IrqSlot → IrqDescriptor} :
    freeDescriptor table = none ↔ ∀ i, (table i).present = true := by
  constructor
  · intro h i
    have hi := Slots.firstFree_eq_none h i
    rw [Ne, inUse_eq_none] at hi
    exact Bool.eq_true_of_not_eq_false hi
  · intro h
    cases hf : freeDescriptor table with
    | none => rfl
    | some i =>
      have hi := freeDescriptor_eq_some hf
      rw [h i] at hi
      cases hi

/-- No descriptor in use has the number `n`. -/
def Unclaimed (M : Machine) (s : IrqState) (n : ℕ) : Prop :=
  ∀ x < M.numProcessors, ∀ i, (s.table x i).present = true → (s.table x i).physicalIrqNumber ≠ n

theorem findIrq_eq_some {M : Machine} {s : IrqState} {n x : ℕ} {i : IrqSlot}
    (h : findIrq M s n = some (x, i)) :
    x < M.numProcessors ∧ (s.table x i).present = true ∧ (s.table x i).physicalIrqNumber = n := by
  obtain ⟨y, hy, hfind⟩ := List.exists_of_findSome?_eq_some h
  obtain ⟨c, hc, he⟩ := Option.map_eq_some_iff.mp hfind
  cases he
  have hp := List.find?_some hc
  obtain ⟨hpresent, hnumber⟩ := of_decide_eq_true hp
  exact ⟨List.mem_range.mp hy, hpresent, hnumber⟩

theorem findIrq_eq_none {M : Machine} {s : IrqState} {n : ℕ} :
    findIrq M s n = none ↔ Unclaimed M s n := by
  rw [findIrq, List.findSome?_eq_none_iff]
  constructor
  · intro h x hx i hp hn
    have hnone := Option.map_eq_none_iff.mp (h x (List.mem_range.mpr hx))
    have hi := List.find?_eq_none.mp hnone i (List.mem_finRange i)
    exact hi (decide_eq_true ⟨hp, hn⟩)
  · intro h x hx
    rw [Option.map_eq_none_iff, List.find?_eq_none]
    intro i _ hi
    obtain ⟨hp, hn⟩ := of_decide_eq_true hi
    exact h x (List.mem_range.mp hx) i hp hn

def IrqRequest.Valid (r : IrqRequest) : Prop := r.handler ≠ 0 ∧ r.deliveryMode ≤ 3

def line (M : Machine) (r : IrqRequest) : ℕ := (overrideIrq M r).1

/-- A call gets as far as the allocation of a descriptor: its line is below the limit of the check
in front, no descriptor has its number, and there is an entry for it. -/
structure Allocates (M : Machine) (s : IrqState) (r : IrqRequest) (k : ℕ) (a : IoApic) (j : ℕ) :
    Prop where
  valid : r.Valid
  limit : line M r ≤ 24 * M.ioApicList.numIoApics
  unclaimed : Unclaimed M s (line M r)
  entry : EntryOf M (line M r) k a j

/-- The state after a line was given to the descriptor `i` of the processor `target`. -/
def assigned (M : Machine) (s : IrqState) (r : IrqRequest) (k j : ℕ) (i : IrqSlot) : IrqState :=
  let x := target M s
  { s.put x i (lineDescriptor (s.table x i) r (line M r) (overrideIrq M r).2 k j i) with
    processorSwitch := x + 1 }

/-- The entry that is programmed for the descriptor `i`. -/
def programmed (M : Machine) (s : IrqState) (r : IrqRequest) (i : IrqSlot) : BitVec 64 :=
  (redirectionTable (slotVector i) (target M s) r.deliveryMode (overrideIrq M r).2).qword

/-- The outcomes of `KeControlIrq`. -/
inductive Controls (M : Machine) (s : IrqState) (r : IrqRequest) : IrqResult → Prop where
  | invalid (h : ¬r.Valid) : Controls M s r (.ok (.invalidParameter, s, []))
  | beyond (h : r.Valid) (hn : 24 * M.ioApicList.numIoApics < line M r) :
      Controls M s r (.ok (.outOfRange, wrapSwitch M s, []))
  | claimed (h : r.Valid) (hn : line M r ≤ 24 * M.ioApicList.numIoApics) (x : ℕ) (i : IrqSlot)
      (hx : x < M.numProcessors) (hp : (s.table x i).present = true)
      (hi : (s.table x i).physicalIrqNumber = line M r) :
      Controls M s r (.ok ((checkControl (wrapSwitch M s) r (overrideIrq M r).2 x i).1,
        (checkControl (wrapSwitch M s) r (overrideIrq M r).2 x i).2, []))
  | missing (h : r.Valid) (hn : line M r ≤ 24 * M.ioApicList.numIoApics)
      (hu : Unclaimed M s (line M r))
      (hl : M.lines ≤ line M r) : Controls M s r (.ok (.outOfRange, wrapSwitch M s, []))
  | noProcessor (k : ℕ) (a : IoApic) (j : ℕ) (h : Allocates M s r k a j)
      (hx : ¬target M s < M.numProcessors) :
      Controls M s r (.error (.processorIndex (target M s)))
  | noDescriptor (k : ℕ) (a : IoApic) (j : ℕ) (h : Allocates M s r k a j)
      (hx : target M s < M.numProcessors)
      (hi : ∀ i, (s.table (target M s) i).present = true) : Controls M s r (.error .noDescriptor)
  | assigned (k : ℕ) (a : IoApic) (j : ℕ) (i : IrqSlot) (h : Allocates M s r k a j)
      (hx : target M s < M.numProcessors) (hi : (s.table (target M s) i).present = false) :
      Controls M s r (.ok (.ok, assigned M s r k j i,
        [⟨a, (0x10 + 2 * j) % 256, (programmed M s r i).setWidth 32⟩,
          ⟨a, (0x10 + 2 * j + 1) % 256, (programmed M s r i >>> 32).setWidth 32⟩]))

/-- The two registers of an entry are written, with the numbers that an `unsigned char` holds. -/
theorem ioApicWriteRedirectionTable_eq {a : IoApic} {j : ℕ} (h : j < a.size) (t : IoApicRedTbl) :
    ioApicWriteRedirectionTable a (Fin.ofNat 256 j) t =
      .ok [⟨a, (0x10 + 2 * j) % 256, t.qword.setWidth 32⟩,
        ⟨a, (0x10 + 2 * j + 1) % 256, (t.qword >>> 32).setWidth 32⟩] := by
  have hmax := ioApicGetMaxRedirectionEntry_lt a
  rw [IoApic.size] at h
  have hj : (Fin.ofNat 256 j : ℕ) = j := Nat.mod_eq_of_lt (by omega)
  have hshift : j <<< 1 = 2 * j := by rw [Nat.shiftLeft_eq, Nat.pow_one, Nat.mul_comm]
  rw [ioApicWriteRedirectionTable, hj, hshift, if_neg (by omega)]

theorem allocateIrq_cases {M : Machine} {s : IrqState} {r : IrqRequest} {k j : ℕ} {a : IoApic}
    (h : Allocates M s r k a j) :
    Controls M s r (allocateIrq M (wrapSwitch M s) r (line M r) (overrideIrq M r).2 k a j) := by
  rw [allocateIrq, wrapSwitch_table, ← target]
  by_cases hx : target M s < M.numProcessors
  · rw [if_pos hx]
    cases hf : freeDescriptor (s.table (target M s)) with
    | none => exact .noDescriptor k a j h hx (freeDescriptor_eq_none.mp hf)
    | some i =>
      have hdone := Controls.assigned k a j i h hx (freeDescriptor_eq_some hf)
      simp only [lineDescriptor, ioApicWriteRedirectionTable_eq h.entry.entry]
      simpa only [Interrupts.assigned, lineDescriptor, IrqState.put, wrapSwitch_table,
        programmed] using hdone
  · rw [if_neg hx]
    exact .noProcessor k a j h hx

theorem keControlIrq_cases (M : Machine) (s : IrqState) (r : IrqRequest) :
    Controls M s r (keControlIrq M s r) := by
  rw [keControlIrq]
  by_cases hv : r.Valid
  · rw [if_neg (fun h => h.elim hv.1 (Nat.not_lt.mpr hv.2))]
    by_cases hn : line M r > 24 * M.ioApicList.numIoApics
    · rw [line] at hn
      simp only [if_pos hn]
      exact .beyond hv hn
    · have hle : line M r ≤ 24 * M.ioApicList.numIoApics := Nat.not_lt.mp hn
      rw [line] at hn
      simp only [if_neg hn]
      cases hf : findIrq M (wrapSwitch M s) (overrideIrq M r).1 with
      | some p =>
        obtain ⟨hx, hp, hi⟩ := findIrq_eq_some hf
        rw [wrapSwitch_table] at hp hi
        exact .claimed hv hle p.1 p.2 hx hp hi
      | none =>
        have hu : Unclaimed M s (line M r) := by
          have hnone := findIrq_eq_none.mp hf
          rwa [Unclaimed, wrapSwitch_table] at hnone
        cases he : findRedirectionEntry (sortIoApics M.ioApicList) 0 (overrideIrq M r).1 with
        | none => exact .missing hv hle hu (findRedirectionEntry_eq_none.mp he)
        | some e =>
          obtain ⟨k, a, j⟩ := e
          exact allocateIrq_cases ⟨hv, hle, hu, entryOf_iff.mpr he⟩
  · have hinv : r.handler = 0 ∨ r.deliveryMode > 3 := by
      by_contra hc
      rw [not_or] at hc
      exact hv ⟨hc.1, Nat.not_lt.mp hc.2⟩
    rw [if_pos hinv]
    exact .invalid hv

end DevOs.Interrupts
