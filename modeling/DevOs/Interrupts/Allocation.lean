import DevOs.Interrupts.Routing
import DevOs.Lib.Runs

/-!
# One index and one table for lines and messages

`KeControlIrq` advances the rotating index by one processor, `RegisterIrq` sets it to a number of
descriptors, and a message has the number 0 in the field that lines are recognised by. So after two
messages the index can be beyond the processors, and a message can stand in the way of a line.
Neither happens in a run whose messages take low descriptors and have numbers that no line can be
recognised by.
-/

namespace DevOs.Interrupts

open Runs

inductive IrqCall where
  | keControlIrq (r : IrqRequest)
  | registerIrq (q : MessageRequest)

def IrqCall.run (M : Machine) (s : IrqState) : IrqCall → Option IrqState
  | .keControlIrq r =>
    match Interrupts.keControlIrq M s r with
    | .ok (_, s', _) => some s'
    | .error _ => none
  | .registerIrq q => some (Interrupts.registerIrq M s q).1

/-- How a call of `KeControlIrq` should end: the index names a processor when it is used, and a line
that no process controls is neither refused nor skipped, nor does the kernel stop for it unless the
descriptors of the processor are all for lines. -/
def RightOutcome (M : Machine) (s : IrqState) (r : IrqRequest) : IrqResult → Prop
  | .ok (status, _, _) =>
    ¬Controlled M s (line M r) → status ≠ .irqControlledByAnotherProcess ∧ status ≠ .irqAlreadySet
  | .error .noDescriptor =>
      ¬Controlled M s (line M r) → ∀ i, (s.table (target M s) i).source = irqSourceIrq
  | .error _ => False

instance (M : Machine) (s : IrqState) (r : IrqRequest) (out : IrqResult) :
    Decidable (RightOutcome M s r out) :=
  match out with
  | .ok (_, _, _) => inferInstanceAs (Decidable (¬Controlled M s (line M r) → _ ∧ _))
  | .error .noDescriptor =>
    inferInstanceAs (Decidable (¬Controlled M s (line M r) → ∀ _ : IrqSlot, _ = irqSourceIrq))
  | .error (.processorIndex _) => .isFalse id
  | .error .redirectionEntry => .isFalse id

def RightCall (M : Machine) (s : IrqState) : IrqCall → Prop
  | .keControlIrq r => RightOutcome M s r (keControlIrq M s r)
  | .registerIrq q => ∀ x c, (registerIrq M s q).2 = some (x, c) → x < M.numProcessors

/-- The lines that `KeControlIrq` does not refuse for their number. -/
def Machine.InRange (M : Machine) (n : ℕ) : Prop := n ≤ 24 * M.ioApicList.numIoApics

/-- The processor `x` is the first one from `first` on with a descriptor that is not in use. -/
def FirstFreeFrom (M : Machine) (s : IrqState) (first x : ℕ) : Prop :=
  first ≤ x ∧ x < M.numProcessors ∧ (∃ i, (s.table x i).present = false) ∧
    ∀ y < x, first ≤ y → ∀ i, (s.table y i).present = true

/-- The processor that the next message goes to: the first one with room from the index on, or of
all. -/
def MessageTarget (M : Machine) (s : IrqState) (x : ℕ) : Prop :=
  FirstFreeFrom M s s.processorSwitch x ∨
    (∀ y < M.numProcessors, s.processorSwitch ≤ y → ∀ i, (s.table y i).present = true) ∧
    FirstFreeFrom M s 0 x

/-- The message finds a descriptor whose place, counted from one, is at most the number of
processors, and the low byte of its source is no line, or one that a process controls. -/
def MessageApart (M : Machine) (s : IrqState) (q : MessageRequest) : Prop :=
  (∀ x < M.numProcessors, MessageTarget M s x → ∃ c : IrqSlot, c + 1 ≤ M.numProcessors ∧
    (s.table x c).present = false) ∧
  (M.InRange (q.irqSource % 256) → Controlled M s (q.irqSource % 256))

/-- The line has a number of one byte, and there is room for it, or only lines are in its way. -/
def LineApart (M : Machine) (s : IrqState) (r : IrqRequest) : Prop :=
  r.Valid → M.InRange (line M r) → Unclaimed M s (line M r) → line M r < 256 ∧
    ((∃ i, (s.table (target M s) i).present = false) ∨
    ∀ i, (s.table (target M s) i).source = irqSourceIrq)

def Apart (M : Machine) (s : IrqState) : IrqCall → Prop
  | .keControlIrq r => LineApart M s r
  | .registerIrq q => MessageApart M s q

def VectorsOfSlots (M : Machine) (s : IrqState) : Prop :=
  ∀ x < M.numProcessors, ∀ i, (s.table x i).present = true →
    (s.table x i).interruptVector = slotVector i

def IrqDescriptor.IsLine (d : IrqDescriptor) : Prop := d.present = true ∧ d.source = irqSourceIrq

def LinesDistinct (M : Machine) (s : IrqState) : Prop :=
  ∀ x < M.numProcessors, ∀ y < M.numProcessors, ∀ i c, (s.table x i).IsLine → (s.table y c).IsLine →
    (s.table x i).physicalIrqNumber = (s.table y c).physicalIrqNumber → x = y ∧ i = c

structure RightState (M : Machine) (s : IrqState) : Prop where
  index : s.processorSwitch ≤ M.numProcessors
  vectors : VectorsOfSlots M s
  distinct : LinesDistinct M s
  calls : ∀ c, Apart M s c → RightCall M s c

/-- The invariant: a descriptor that was never used is not one for a line, and one for a message has
the number of a line only when a process controls the line. -/
structure Allocated (M : Machine) (s : IrqState) : Prop where
  index : s.processorSwitch ≤ M.numProcessors
  vectors : VectorsOfSlots M s
  distinct : LinesDistinct M s
  fresh : ∀ x < M.numProcessors, ∀ i, (s.table x i).present = false →
    (s.table x i).source ≠ irqSourceIrq
  messages : ∀ x < M.numProcessors, ∀ i, (s.table x i).present = true →
    (s.table x i).source ≠ irqSourceIrq →
    M.InRange (s.table x i).physicalIrqNumber → Controlled M s (s.table x i).physicalIrqNumber

variable {M : Machine} {s t : IrqState} {r : IrqRequest} {x : ℕ} {i : IrqSlot} {d : IrqDescriptor}

theorem allocated_initial (M : Machine) : Allocated M .initial := by
  refine ⟨Nat.zero_le _, ?_, ?_, ?_, ?_⟩
  · intro x _ i hp
    cases hp
  · intro x _ y _ i c hi
    cases hi.1
  · intro x _ i _ hs
    cases hs
  · intro x _ i hp
    cases hp

theorem Allocated.of_table (h : Allocated M s) (ht : t.table = s.table)
    (hindex : t.processorSwitch ≤ M.numProcessors) : Allocated M t := by
  obtain ⟨index, table⟩ := t
  subst ht
  exact ⟨hindex, h.vectors, h.distinct, h.fresh, h.messages⟩

theorem Allocated.wrapSwitch (h : Allocated M s) : Allocated M (wrapSwitch M s) := by
  refine h.of_table (wrapSwitch_table M s) ?_
  rw [Interrupts.wrapSwitch]
  split
  · exact Nat.zero_le _
  · exact h.index

/-- A line stays controlled when a descriptor that is not in use is stored, or that of a line keeps
its number. -/
theorem Controlled.put {n : ℕ} (h : Controlled M s n)
    (hd : (s.table x i).IsLine → d.IsLine ∧ d.physicalIrqNumber = (s.table x i).physicalIrqNumber) :
    Controlled M (s.put x i d) n := by
  obtain ⟨y, hy, c, hp, hs, hn⟩ := h
  refine ⟨y, hy, c, ?_⟩
  by_cases hyc : y = x ∧ c = i
  · obtain ⟨rfl, rfl⟩ := hyc
    obtain ⟨⟨hp', hs'⟩, hn'⟩ := hd ⟨hp, hs⟩
    rw [put_table_self, hn']
    exact ⟨hp', hs', hn⟩
  · rw [put_table_ne s d hyc]
    exact ⟨hp, hs, hn⟩

/-- A descriptor that is stored keeps the invariant when its vector is the one of the slot, it is
not a second one of a line, and its number is not that of a line that no process controls. -/
theorem Allocated.put (h : Allocated M s) (hv : d.interruptVector = slotVector i)
    (hp : d.present = true)
    (hd : d.IsLine → ∀ y < M.numProcessors, ∀ c, ¬(y = x ∧ c = i) → (s.table y c).IsLine →
      (s.table y c).physicalIrqNumber ≠ d.physicalIrqNumber)
    (hkeep : (s.table x i).IsLine → d.IsLine ∧
      d.physicalIrqNumber = (s.table x i).physicalIrqNumber)
    (hm : d.source ≠ irqSourceIrq → M.InRange d.physicalIrqNumber →
      Controlled M s d.physicalIrqNumber) :
    Allocated M (s.put x i d) := by
  refine ⟨h.index, ?_, ?_, ?_, ?_⟩
  · intro y hy c hc
    by_cases hyc : y = x ∧ c = i
    · obtain ⟨rfl, rfl⟩ := hyc
      rw [put_table_self]
      exact hv
    · rw [put_table_ne s d hyc] at hc ⊢
      exact h.vectors y hy c hc
  · intro y hy z hz c e hc he hn
    by_cases hyc : y = x ∧ c = i
    · by_cases hze : z = x ∧ e = i
      · exact ⟨hyc.1.trans hze.1.symm, hyc.2.trans hze.2.symm⟩
      · obtain ⟨rfl, rfl⟩ := hyc
        rw [put_table_self] at hc hn
        rw [put_table_ne s d hze] at he hn
        exact absurd hn.symm (hd hc z hz e hze he)
    · rw [put_table_ne s d hyc] at hc hn
      by_cases hze : z = x ∧ e = i
      · obtain ⟨rfl, rfl⟩ := hze
        rw [put_table_self] at he hn
        exact absurd hn (hd he y hy c hyc hc)
      · rw [put_table_ne s d hze] at he hn
        exact h.distinct y hy z hz c e hc he hn
  · intro y hy c hc
    by_cases hyc : y = x ∧ c = i
    · obtain ⟨rfl, rfl⟩ := hyc
      rw [put_table_self, hp] at hc
      cases hc
    · rw [put_table_ne s d hyc] at hc ⊢
      exact h.fresh y hy c hc
  · intro y hy c hc hs hrange
    by_cases hyc : y = x ∧ c = i
    · obtain ⟨rfl, rfl⟩ := hyc
      rw [put_table_self] at hs hrange ⊢
      exact (hm hs hrange).put hkeep
    · rw [put_table_ne s d hyc] at hc hs hrange ⊢
      exact (h.messages y hy c hc hs hrange).put hkeep

theorem Allocated.checkControl (h : Allocated M s) (hx : x < M.numProcessors)
    (hp : (s.table x i).present = true) (flags : BitVec 32) :
    Allocated M (checkControl s r flags x i).2 := by
  rw [Interrupts.checkControl]
  split
  · exact h
  · refine h.put (h.vectors x hx i hp) hp ?_ (fun hl => ⟨hl, rfl⟩) (h.messages x hx i hp)
    intro hl y hy c hyc hc hn
    obtain ⟨hyx, hci⟩ := h.distinct y hy x hx c i hc hl hn
    exact hyc ⟨hyx, hci⟩

/-- A line of one byte is given to a descriptor that is not in use, when no descriptor has its
number. -/
theorem Allocated.assigned (h : Allocated M s) (hx : target M s < M.numProcessors)
    (hi : (s.table (target M s) i).present = false) (hlt : line M r < 256)
    (hu : Unclaimed M s (line M r)) (k j : ℕ) :
    Allocated M (assigned M s r k j i) := by
  have hput := h.put (x := target M s) (i := i)
    (d := lineDescriptor (s.table (target M s) i) r (line M r) (overrideIrq M r).2 k j i) rfl
    rfl ?_ ?_
    (fun hs => absurd rfl hs)
  · exact hput.of_table rfl hx
  · intro _ y hy c _ hc heq
    refine hu y hy c hc.1 ((congrArg Fin.val heq).trans ?_)
    exact Nat.mod_eq_of_lt hlt
  · intro hl
    exact absurd (hi.symm.trans hl.1) Bool.false_ne_true

/-- The searches of `RegisterIrq` find the first free descriptor of the first processor that has
one. -/
theorem findFree_eq_some {first : ℕ} (h : findFree M s first = some (x, i)) :
    FirstFreeFrom M s first x ∧ freeDescriptor (s.table x) = some i := by
  rw [findFree, List.findSome?_eq_some_iff] at h
  obtain ⟨before, y, after, hrange, hfound, hbefore⟩ := h
  obtain ⟨c, hc, he⟩ := Option.map_eq_some_iff.mp hfound
  cases he
  have hy : x ∈ List.range' first (M.numProcessors - first) := by
    rw [hrange]
    exact List.mem_append_right _ List.mem_cons_self
  obtain ⟨hle, hlt⟩ := List.mem_range'_1.mp hy
  refine ⟨⟨hle, by omega, ⟨i, freeDescriptor_eq_some hc⟩, fun y hyx hfirst => ?_⟩, hc⟩
  have hmem : y ∈ List.range' first (M.numProcessors - first) := List.mem_range'_1.mpr ⟨hfirst, by
    omega⟩
  have hsorted := List.pairwise_lt_range' (s := first) (n := M.numProcessors - first)
  rw [hrange] at hmem hsorted
  rcases List.mem_append.mp hmem with hin | hin
  · exact freeDescriptor_eq_none.mp (Option.map_eq_none_iff.mp (hbefore y hin))
  · rcases List.mem_cons.mp hin with rfl | hin
    · exact absurd hyx (Nat.lt_irrefl _)
    · have hxy := (List.pairwise_cons.mp (List.pairwise_append.mp hsorted).2.1).1 y hin
      exact absurd hxy (by omega)

theorem findFree_eq_none {first : ℕ} (h : findFree M s first = none) :
    ∀ x, first ≤ x → x < M.numProcessors → ∀ i, (s.table x i).present = true := by
  intro x hle hlt
  have hx : x ∈ List.range' first (M.numProcessors - first) := List.mem_range'_1.mpr ⟨hle, by omega⟩
  have hnone := List.findSome?_eq_none_iff.mp h x hx
  exact freeDescriptor_eq_none.mp (Option.map_eq_none_iff.mp hnone)

theorem MessageTarget.lt (h : MessageTarget M s x) : x < M.numProcessors := by
  obtain ⟨-, hlt, -⟩ | ⟨-, -, hlt, -⟩ := h
  · exact hlt
  · exact hlt

/-- `RegisterIrq` takes the first free descriptor of its processor, or none is found and the index
becomes 0. -/
theorem registerIrq_cases (M : Machine) (s : IrqState) (q : MessageRequest) :
    (∃ x i, MessageTarget M s x ∧ freeDescriptor (s.table x) = some i ∧
      registerIrq M s q = (takeDescriptor s q x i, some (x, i))) ∨
    registerIrq M s q = ({ s with processorSwitch := 0 }, none) := by
  rw [registerIrq]
  cases hfirst : findFree M s s.processorSwitch with
  | some p =>
    obtain ⟨x, i⟩ := p
    obtain ⟨hx, hi⟩ := findFree_eq_some hfirst
    exact Or.inl ⟨x, i, Or.inl hx, hi, rfl⟩
  | none =>
    cases hsecond : findFree M s 0 with
    | some p =>
      obtain ⟨x, i⟩ := p
      obtain ⟨hx, hi⟩ := findFree_eq_some hsecond
      exact Or.inl ⟨x, i, Or.inr ⟨fun y hy hle => findFree_eq_none hfirst y hle hy, hx⟩, hi, rfl⟩
    | none => exact Or.inr rfl

theorem freeDescriptor_le {table : IrqSlot → IrqDescriptor} {c : IrqSlot}
    (h : freeDescriptor table = some i) (hc : (table c).present = false) : i ≤ c := by
  by_contra hlt
  exact Slots.firstFree_before h (not_le.mp hlt) (inUse_eq_none.mpr hc)

theorem Allocated.registerIrq (h : Allocated M s) {q : MessageRequest} (hq : MessageApart M s q) :
    Allocated M (registerIrq M s q).1 := by
  obtain ⟨x, i, hx, hi, hrun⟩ | hrun := registerIrq_cases M s q
  · rw [hrun]
    have hfree := freeDescriptor_eq_some hi
    have hsource : (s.table x i).source ≠ irqSourceIrq := h.fresh x hx.lt i hfree
    have hput := h.put (x := x) (i := i) (d := messageDescriptor (s.table x i) q x i) rfl rfl
      (fun hl => absurd hl.2 hsource) (fun hl => absurd hl.2 hsource) (fun _ => hq.2)
    obtain ⟨c, hc, hcfree⟩ := hq.1 x hx.lt hx
    have hle := Fin.le_def.mp (freeDescriptor_le hi hcfree)
    exact hput.of_table rfl (show i.val + 1 ≤ M.numProcessors by omega)
  · rw [hrun]
    exact h.of_table rfl (Nat.zero_le _)

theorem Allocated.run (h : Allocated M s) {c : IrqCall} (hg : Apart M s c)
    (hrun : c.run M s = some t) :
    Allocated M t := by
  cases c with
  | registerIrq q =>
    cases hrun
    exact h.registerIrq hg
  | keControlIrq r =>
    have hcases := keControlIrq_cases M s r
    rw [IrqCall.run] at hrun
    generalize keControlIrq M s r = out at hcases hrun
    cases hcases with
    | invalid _ =>
      cases hrun
      exact h
    | beyond _ _ =>
      cases hrun
      exact h.wrapSwitch
    | claimed _ _ x i hx hp _ =>
      cases hrun
      exact h.wrapSwitch.checkControl hx (by rw [wrapSwitch_table]; exact hp) _
    | missing _ _ _ _ =>
      cases hrun
      exact h.wrapSwitch
    | noProcessor _ _ _ _ _ => cases hrun
    | noDescriptor _ _ _ _ _ _ => cases hrun
    | assigned k a j i ha hx hi =>
      cases hrun
      exact h.assigned hx hi (hg ha.valid ha.limit ha.unclaimed).1 ha.unclaimed k j

theorem Allocated.rightCall_keControlIrq (h : Allocated M s) (hpos : 1 ≤ M.numProcessors)
    (hr : LineApart M s r) :
    RightCall M s (.keControlIrq r) := by
  have hcases := keControlIrq_cases M s r
  rw [RightCall]
  generalize keControlIrq M s r = out at hcases
  cases hcases with
  | invalid _ => exact fun _ => ⟨by decide, by decide⟩
  | beyond _ _ => exact fun _ => ⟨by decide, by decide⟩
  | claimed hv hn x i hx hp hi =>
    intro hfree
    by_cases hs : (s.table x i).source = irqSourceIrq
    · exact absurd ⟨x, hx, i, hp, hs, hi⟩ hfree
    · have hmessage := h.messages x hx i hp hs (by rw [hi]; exact hn)
      rw [hi] at hmessage
      exact absurd hmessage hfree
  | missing _ _ _ _ => exact fun _ => ⟨by decide, by decide⟩
  | noProcessor k a j ha hx => exact hx ((target_lt hpos).mpr h.index)
  | noDescriptor k a j ha hx hi =>
    intro _
    obtain ⟨i, hfree⟩ | hall := (hr ha.valid ha.limit ha.unclaimed).2
    · rw [hi i] at hfree
      cases hfree
    · exact hall
  | assigned k a j i ha hx hi => exact fun _ => ⟨by decide, by decide⟩

theorem rightCall_registerIrq (M : Machine) (s : IrqState) (q : MessageRequest) :
    RightCall M s (.registerIrq q) := by
  intro x c hres
  obtain ⟨y, i, hy, -, hrun⟩ | hrun := registerIrq_cases M s q
  · rw [hrun] at hres
    cases hres
    exact hy.lt
  · rw [hrun] at hres
    cases hres

/-- In every run whose messages and lines keep apart the state is right. -/
theorem interrupts_right (hpos : 1 ≤ M.numProcessors)
    (h : Reaches (IrqCall.run M) (Apart M) .initial s) :
    RightState M s := by
  have hs : Allocated M s := h.invariant (fun _ _ _ hi hg hr => hi.run hg hr) (allocated_initial M)
  refine ⟨hs.index, hs.vectors, hs.distinct, ?_⟩
  intro c hg
  cases c with
  | keControlIrq r => exact hs.rightCall_keControlIrq hpos hg
  | registerIrq q => exact rightCall_registerIrq M s q

def smallMachine (numProcessors : ℕ) : Machine :=
  ⟨numProcessors, some [.ioApic ⟨Fin.last 255, 23 * 2 ^ 16⟩]⟩

section Decidable

variable (M : Machine) (s : IrqState)

instance (r : IrqRequest) : Decidable r.Valid := inferInstanceAs (Decidable (_ ∧ _))

instance (n : ℕ) : Decidable (M.InRange n) := inferInstanceAs (Decidable (_ ≤ _))

instance (n : ℕ) : Decidable (Unclaimed M s n) :=
  inferInstanceAs (Decidable (∀ x < M.numProcessors, ∀ _ : IrqSlot, _ → _))

instance (first x : ℕ) : Decidable (FirstFreeFrom M s first x) :=
  inferInstanceAs (Decidable (_ ∧ _ ∧ (∃ _ : IrqSlot, _) ∧ ∀ y < x, _ → ∀ _ : IrqSlot, _))

instance (x : ℕ) : Decidable (MessageTarget M s x) :=
  inferInstanceAs (Decidable (_ ∨ (∀ y < M.numProcessors, _ → ∀ _ : IrqSlot, _) ∧ _))

instance (c : IrqCall) : Decidable (Apart M s c) :=
  match c with
  | .keControlIrq r =>
    inferInstanceAs (Decidable (r.Valid → _ → _ → _ ∧ ((∃ _ : IrqSlot, _) ∨ ∀ _ : IrqSlot, _)))
  | .registerIrq _ =>
    inferInstanceAs (Decidable ((∀ x < M.numProcessors, _ → ∃ _ : IrqSlot, _ ∧ _) ∧ (_ → _)))

end Decidable

/-- Two processors, and the line 0 before a message that has its number, and then the line 1. -/
theorem interrupts_right_small :
    ∃ s, Reaches (IrqCall.run (smallMachine 2)) (Apart (smallMachine 2)) .initial s ∧
    (s.processorSwitch, s.table 0 0 |>.source, s.table 1 0 |>.present, s.table 1 1 |>.source) =
      (2, irqSourceIrq, true, irqSourceIrq) ∧ RightState (smallMachine 2) s := by
  obtain ⟨s, hs, hsum⟩ : ∃ s,
    guardedRun (IrqCall.run (smallMachine 2)) (Apart (smallMachine 2)) .initial
      [.keControlIrq ⟨1, 0, 0, 1, 0⟩, .registerIrq ⟨0, 1, 0x10, 0, 0⟩,
      .keControlIrq ⟨1, 1, 0, 1, 0⟩] = some s ∧
      (s.processorSwitch, s.table 0 0 |>.source, s.table 1 0 |>.present, s.table 1 1 |>.source) =
        (2, irqSourceIrq, true, irqSourceIrq) :=
    Option.map_eq_some_iff.mp (by decide +kernel)
  have hr := reaches_of_guardedRun _ hs
  exact ⟨s, hr, hsum, interrupts_right (by decide) hr⟩

/-- On one processor, two messages move the index to 2, which no processor has; and after one
message, the line 0 is refused to another process. -/
theorem interrupts_wrong :
    (∃ s, Reaches (IrqCall.run (smallMachine 1)) anyStep .initial s ∧
      ¬RightCall (smallMachine 1) s (.keControlIrq ⟨1, 1, 0, 1, 0⟩)) ∧
    ∃ s, Reaches (IrqCall.run (smallMachine 1)) anyStep .initial s ∧
      ¬RightCall (smallMachine 1) s (.keControlIrq ⟨1, 0, 0, 1, 1⟩) := by
  have hone : Reaches (IrqCall.run (smallMachine 1)) anyStep .initial
      (registerIrq (smallMachine 1) .initial ⟨0, 1, 0x10, 0, 0⟩).1 :=
    Reaches.head (a := .registerIrq ⟨0, 1, 0x10, 0, 0⟩) trivial rfl (Reaches.refl _)
  have htwo : Reaches (IrqCall.run (smallMachine 1)) anyStep .initial
      (registerIrq (smallMachine 1) (registerIrq (smallMachine 1) .initial ⟨0, 1, 0x10, 0, 0⟩).1
        ⟨0, 1, 0x10, 0, 0⟩).1 :=
    hone.tail ⟨.registerIrq ⟨0, 1, 0x10, 0, 0⟩, trivial, rfl⟩
  refine ⟨⟨_, htwo, ?_⟩, ⟨_, hone, ?_⟩⟩
  · rw [RightCall]
    decide +kernel
  · rw [RightCall]
    decide +kernel

end DevOs.Interrupts
