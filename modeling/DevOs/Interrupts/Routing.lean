import DevOs.Interrupts.Control

/-!
# Which redirection entry a line goes to

The entries of the sorted controllers are numbered one after the other. A free line below the number
of entries should be programmed at its entry, and another number should be refused with the tables
as they were. The check in front counts 24 entries for a controller, the registers of an entry have
numbers of eight bits, a message interrupt has a number as a line has, and the processor for the
line may not exist or may have no free descriptor.
-/

namespace DevOs.Interrupts

/-- A process controls the line `n`. -/
def Controlled (M : Machine) (s : IrqState) (n : ℕ) : Prop :=
  ∃ x < M.numProcessors, ∃ i, (s.table x i).present = true ∧ (s.table x i).source = irqSourceIrq ∧
    (s.table x i).physicalIrqNumber = n

instance (M : Machine) (s : IrqState) (n : ℕ) : Decidable (Controlled M s n) :=
  inferInstanceAs (Decidable (∃ x < M.numProcessors, ∃ _ : IrqSlot, _ ∧ _ ∧ _))

/-- The call succeeds: a descriptor that was free is for the entry of the line, and the two
registers of this entry are written with the vector of the descriptor. -/
def Programs (M : Machine) (s : IrqState) (r : IrqRequest) : Prop :=
  ∃ k a j x i s', EntryOf M (line M r) k a j ∧ x < M.numProcessors ∧ (s.table x i).present = false ∧
    ((s'.table x i).present = true ∧ (s'.table x i).source = irqSourceIrq ∧
      (s'.table x i).virtualIoApicId = k ∧ (s'.table x i).ioApicIrqNumber = j ∧
      (s'.table x i).handler = r.handler ∧ (s'.table x i).process = r.process ∧
      (s'.table x i).interruptVector = slotVector i) ∧
    (∀ y c, ¬(y = x ∧ c = i) → s'.table y c = s.table y c) ∧
    ∃ entry : BitVec 64, entry =
      (redirectionTable (slotVector i) x r.deliveryMode (overrideIrq M r).2).qword ∧
      keControlIrq M s r = .ok (.ok, s', [⟨a, 0x10 + 2 * j, entry.setWidth 32⟩,
        ⟨a, 0x10 + 2 * j + 1, (entry >>> 32).setWidth 32⟩])

/-- A free line of a controller is programmed, and a number that is no line is out of range. -/
def RightlyRouted (M : Machine) (s : IrqState) (r : IrqRequest) : Prop :=
  (line M r < M.lines → ¬Controlled M s (line M r) → Programs M s r) ∧
    (M.lines ≤ line M r → ∃ s', keControlIrq M s r = .ok (.outOfRange, s', []) ∧ s'.table = s.table)

/-- The line is below the fixed limit, its entry has registers, no descriptor in use has its number,
and the processor for it exists and has a free descriptor. -/
structure Routable (M : Machine) (s : IrqState) (n : ℕ) : Prop where
  limit : n ≤ 24 * M.ioApicList.numIoApics
  registers : ∀ k a j, EntryOf M n k a j → j < 120
  unclaimed : Unclaimed M s n
  processor : target M s < M.numProcessors
  descriptor : ∃ i, (s.table (target M s) i).present = false

def RoutedWell (M : Machine) (s : IrqState) (r : IrqRequest) : Prop :=
  (line M r < M.lines → Controlled M s (line M r) ∨ r.Valid ∧ Routable M s (line M r)) ∧
    (M.lines ≤ line M r → r.Valid ∧
    (24 * M.ioApicList.numIoApics < line M r ∨ Unclaimed M s (line M r)))

theorem put_table_self (s : IrqState) (x : ℕ) (i : IrqSlot) (d : IrqDescriptor) :
    (s.put x i d).table x i = d := by
  change Function.update s.table x (Function.update (s.table x) i d) x i = d
  rw [Function.update_self, Function.update_self]

theorem put_table_ne (s : IrqState) {x y : ℕ} {i c : IrqSlot} (d : IrqDescriptor)
    (h : ¬(y = x ∧ c = i)) :
    (s.put x i d).table y c = s.table y c := by
  change Function.update s.table x (Function.update (s.table x) i d) y c = s.table y c
  by_cases hy : y = x
  · subst hy
    have hc : c ≠ i := fun hc => h ⟨rfl, hc⟩
    rw [Function.update_self, Function.update_of_ne hc]
  · rw [Function.update_of_ne hy]

theorem assigned_self (M : Machine) (s : IrqState) (r : IrqRequest) (k j : ℕ) (i : IrqSlot) :
    (assigned M s r k j i).table (target M s) i =
      lineDescriptor (s.table (target M s) i) r (line M r) (overrideIrq M r).2 k j i :=
  put_table_self s (target M s) i _

theorem assigned_ne {M : Machine} {s : IrqState} {r : IrqRequest} {k j y : ℕ} {i c : IrqSlot}
    (h : ¬(y = target M s ∧ c = i)) : (assigned M s r k j i).table y c = s.table y c :=
  put_table_ne s _ h

theorem programs_of_assigned {M : Machine} {s : IrqState} {r : IrqRequest} {k j : ℕ} {a : IoApic}
    {i : IrqSlot} (he : EntryOf M (line M r) k a j) (hj : j < 120)
    (hx : target M s < M.numProcessors) (hi : (s.table (target M s) i).present = false)
    (hrun : keControlIrq M s r = .ok (.ok, assigned M s r k j i,
      [⟨a, (0x10 + 2 * j) % 256, (programmed M s r i).setWidth 32⟩,
        ⟨a, (0x10 + 2 * j + 1) % 256, (programmed M s r i >>> 32).setWidth 32⟩])) :
        Programs M s r := by
  refine ⟨k, a, j, target M s, i, assigned M s r k j i, he, hx, hi, ?_, ?_, programmed M s r i,
    rfl, ?_⟩
  · rw [assigned_self]
    have hk : (Fin.ofNat 256 k : ℕ) = k := Nat.mod_eq_of_lt he.ioApic_lt
    have hj' : (Fin.ofNat 256 j : ℕ) = j := Nat.mod_eq_of_lt he.entry_lt
    exact ⟨rfl, rfl, hk, hj', rfl, rfl, rfl⟩
  · intro y c hyc
    exact assigned_ne hyc
  · have hlow : 0x10 + 2 * j < 256 := by omega
    have hhigh : 0x10 + 2 * j + 1 < 256 := by omega
    rw [hrun, Nat.mod_eq_of_lt hlow, Nat.mod_eq_of_lt hhigh]

theorem rightlyRouted_of_routedWell {M : Machine} {s : IrqState} {r : IrqRequest}
    (h : RoutedWell M s r) :
    RightlyRouted M s r := by
  obtain ⟨hline, hother⟩ := h
  refine ⟨?_, ?_⟩
  · intro hl hfree
    obtain ⟨hv, hr⟩ := (hline hl).resolve_left hfree
    have hcases := keControlIrq_cases M s r
    generalize hrun : keControlIrq M s r = out at hcases
    cases hcases with
    | invalid hv' => exact absurd hv hv'
    | beyond _ hn => exact absurd hn (Nat.not_lt.mpr hr.limit)
    | claimed _ _ x i hx hp hi => exact absurd hi (hr.unclaimed x hx i hp)
    | missing _ _ _ hn => exact absurd hl (Nat.not_lt.mpr hn)
    | noProcessor k a j ha hx => exact absurd hr.processor hx
    | noDescriptor k a j ha hx hi =>
      obtain ⟨i, hfree⟩ := hr.descriptor
      rw [hi i] at hfree
      cases hfree
    | assigned k a j i ha hx hi =>
        exact programs_of_assigned ha.entry (hr.registers k a j ha.entry) hx hi hrun
  · intro hl
    obtain ⟨hv, hn⟩ := hother hl
    have hcases := keControlIrq_cases M s r
    generalize hrun : keControlIrq M s r = out at hcases
    cases hcases with
    | invalid hv' => exact absurd hv hv'
    | beyond _ _ => exact ⟨wrapSwitch M s, rfl, wrapSwitch_table M s⟩
    | claimed _ hle x i hx hp hi => exact absurd hi (hn.resolve_left (Nat.not_lt.mpr hle) x hx i hp)
    | missing _ _ _ _ => exact ⟨wrapSwitch M s, rfl, wrapSwitch_table M s⟩
    | noProcessor k a j ha _ => exact absurd ha.entry.lt_lines (Nat.not_lt.mpr hl)
    | noDescriptor k a j ha _ _ => exact absurd ha.entry.lt_lines (Nat.not_lt.mpr hl)
    | assigned k a j i ha _ _ => exact absurd ha.entry.lt_lines (Nat.not_lt.mpr hl)

/-- A call that programs an entry came from a state in which this was possible. -/
theorem routable_of_programs {M : Machine} {s : IrqState} {r : IrqRequest} (h : Programs M s r) :
    r.Valid ∧ Routable M s (line M r) := by
  obtain ⟨k, a, j, x, i, s', he, -, -, -, -, entry, -, hrun⟩ := h
  have hcases := keControlIrq_cases M s r
  generalize hout : keControlIrq M s r = out at hcases
  rw [hrun] at hout
  cases hcases with
  | invalid _ => cases hout
  | beyond _ _ => cases hout
  | claimed _ _ _ _ _ _ _ =>
    obtain ⟨-, hrest⟩ := Prod.mk.inj (Except.ok.inj hout)
    cases (Prod.mk.inj hrest).2
  | missing _ _ _ _ => cases hout
  | noProcessor _ _ _ _ _ => cases hout
  | noDescriptor _ _ _ _ _ _ => cases hout
  | assigned k' a' j' i' ha hx hi =>
    obtain ⟨-, hrest⟩ := Prod.mk.inj (Except.ok.inj hout)
    have hfirst := (List.cons.inj (Prod.mk.inj hrest).2).1
    have hregister : 0x10 + 2 * j = (0x10 + 2 * j') % 256 := (RegisterWrite.mk.inj hfirst).2.1
    obtain ⟨-, -, hj⟩ := he.unique ha.entry
    refine ⟨ha.valid, ha.limit, ?_, ha.unclaimed, hx, i', hi⟩
    intro k'' a'' j'' he''
    obtain ⟨-, -, hj''⟩ := he.unique he''
    omega

theorem routedWell_of_rightlyRouted {M : Machine} {s : IrqState} {r : IrqRequest}
    (h : RightlyRouted M s r) :
    RoutedWell M s r := by
  obtain ⟨hline, hother⟩ := h
  refine ⟨?_, ?_⟩
  · intro hl
    by_cases hc : Controlled M s (line M r)
    · exact Or.inl hc
    · exact Or.inr (routable_of_programs (hline hl hc))
  · intro hl
    obtain ⟨s', hrun, -⟩ := hother hl
    have hcases := keControlIrq_cases M s r
    generalize hout : keControlIrq M s r = out at hcases
    rw [hrun] at hout
    cases hcases with
    | invalid _ => cases hout
    | beyond hv hn => exact ⟨hv, Or.inl hn⟩
    | claimed _ _ x i _ _ _ =>
      have hstatus := (Prod.mk.inj (Except.ok.inj hout)).1
      rw [checkControl] at hstatus
      split at hstatus <;> cases hstatus
    | missing hv _ hu _ => exact ⟨hv, Or.inr hu⟩
    | noProcessor _ _ _ _ _ => cases hout
    | noDescriptor _ _ _ _ _ _ => cases hout
    | assigned _ _ _ _ _ _ _ => cases hout

/-- Lines are routed as they should be exactly when a process has the line already, or the line is
below the fixed limit, its entry has registers, no descriptor has its number and a descriptor of the
next processor is free; and other numbers when the fixed limit is below them or no descriptor has
the number. -/
theorem keControlIrq_routes_iff (M : Machine) (s : IrqState) (r : IrqRequest) :
    RightlyRouted M s r ↔ RoutedWell M s r :=
  ⟨routedWell_of_rightlyRouted, rightlyRouted_of_routedWell⟩

/-- A controller with 26 entries, and a call for the last of its lines. -/
theorem keControlIrq_refuses_line : ¬RightlyRouted ⟨1, some [.ioApic ⟨0, 25 * 2 ^ 16⟩]⟩ .initial
    ⟨1, 25, 0, irqControlDisableOverrideCheck, 0⟩ := by
  intro hr
  have hlines : (Machine.mk 1 (some [.ioApic ⟨0, 25 * 2 ^ 16⟩])).lines = 26 := by decide +kernel
  have hfree : ¬Controlled ⟨1, some [.ioApic ⟨0, 25 * 2 ^ 16⟩]⟩ .initial 25 := by
    rintro ⟨x, -, i, hp, -⟩
    cases hp
  have hprog := hr.1 (by rw [hlines]; decide) hfree
  have hlimit : 25 ≤ 24 * 1 := (routable_of_programs hprog).2.limit
  omega

end DevOs.Interrupts
