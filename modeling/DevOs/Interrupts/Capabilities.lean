import DevOs.Interrupts.Allocation
import DevOs.Pci.Reads
import DevOs.Lib.Chains

/-!
# The capabilities of a device

`SetInterruptService` follows the pointers of the capability list until it comes to message signaled
interrupts, to the extended ones, where it stays forever, or to a pointer that is zero. It does not
notice a list that comes back to itself, it takes two bytes for the first pointer, and it does not
look whether this pointer is zero. When the configuration is reached through ports the status
register reads as zero, so that the list is not followed at all.
-/

namespace DevOs.Interrupts

open Bytes Pci Chains

/-- The parameters of `SetInterruptService`, with the process that calls it and
`LocalApicPhysicalAddress`. -/
structure ServiceRequest where
  device : DeviceObject
  handler : ℕ
  process : ℕ
  localApicPhysicalAddress : ℕ

/-- What is left when the call returns: the status, the descriptors, the configuration space, and
the reads of the capability list, each with its offset and the number of its bytes. -/
structure ServiceResult where
  status : IrqStatus
  irqs : IrqState
  ports : Ports
  reads : List (ℕ × ℕ)

/-- The six double words of `CapBuffer`: the first one, and the state behind all reads. -/
def readMsiCapability (p : Ports) (d : DeviceObject) (capOffset : ℕ) : ℕ × Ports :=
  let (first, p) := pciDeviceConfigurationRead32 p d (capOffset % 2 ^ 16)
  let p := [1, 2, 3, 4, 5].foldl
    (fun p i => (pciDeviceConfigurationRead32 p d ((capOffset + 4 * i) % 2 ^ 16)).2) p
  (first, p)

def msiReads (capOffset : ℕ) : List (ℕ × ℕ) :=
  (List.range 6).map fun i => ((capOffset + 4 * i) % 2 ^ 16, 4)

/-- Writes the address and the data of the message, and enables it. The bit 7 of the control is
`x64AddressCapable`, the bits 4 to 6 are `MultipleMessageEnable`, and the bit 0 is `MsiEnable`. -/
def writeMessage (p : Ports) (q : ServiceRequest) (capOffset control : ℕ) (icd : IrqDescriptor) :
    Ports :=
  let data := (icd.interruptVector : ℕ) ||| 1 <<< 14
  let address := (q.localApicPhysicalAddress + (icd.lapicId <<< 12) % 2 ^ 32) % 2 ^ 64
  let enabled := (control ||| 1) &&& 0xFF8F
  if control &&& 0x80 ≠ 0 then
    let p := pciDeviceConfigurationWrite64 p q.device address ((capOffset + 4) % 2 ^ 16)
    let p := pciDeviceConfigurationWrite16 p q.device data ((capOffset + 12) % 2 ^ 16)
    pciDeviceConfigurationWrite16 p q.device enabled ((capOffset + 2) % 2 ^ 16)
  else
    let p := pciDeviceConfigurationWrite32 p q.device (address % 2 ^ 32) ((capOffset + 4) % 2 ^ 16)
    let p := pciDeviceConfigurationWrite16 p q.device data ((capOffset + 8) % 2 ^ 16)
    pciDeviceConfigurationWrite16 p q.device enabled ((capOffset + 2) % 2 ^ 16)

/-- The branch for `PCI_CAPABILITY_ID_MSI`. -/
def setMsi (M : Machine) (p : Ports) (q : ServiceRequest) (s : IrqState) (capOffset : ℕ)
    (reads : List (ℕ × ℕ)) :
    ServiceResult :=
  let (first, p) := readMsiCapability p q.device capOffset
  let control := first >>> 16 &&& 0xFFFE
  let p := pciDeviceConfigurationWrite16 p q.device control ((capOffset + 2) % 2 ^ 16)
  match registerIrq M s ⟨0, q.handler, irqSourceMessageSignaledInterrupt, 0, q.process⟩ with
  | (s, none) => ⟨.outOfRange, s, p, reads ++ msiReads capOffset⟩
  | (s, some (x, c)) =>
    let s := s.put x c { s.table x c with source := irqSourceIrqMsi }
    let p := writeMessage p q capOffset control (s.table x c)
    let (_, p) := readMsiCapability p q.device capOffset
    ⟨.ok, s, p, reads ++ msiReads capOffset ++ msiReads capOffset⟩

/-- The loop over the capabilities, for a number of rounds. It does not return when they are used
up, nor from the `while(1)` at `PCI_CAPABILITY_ID_MSI_X`. The low byte of `caphdr` is
`CapabilityId`, the high byte `NextPointer`. -/
def capabilityLoop (M : Machine) (q : ServiceRequest) (s : IrqState) :
    ℕ → Ports → ℕ → ℕ → List (ℕ × ℕ) → Option ServiceResult
  | 0, _, _, _, _ => none
  | rounds + 1, p, capOffset, caphdr, reads =>
    if caphdr % 256 = 5 then some (setMsi M p q s capOffset reads)
    else if caphdr % 256 = 11 then none
    else if caphdr / 256 = 0 then some ⟨.ok, s, p, reads⟩
    else
      let capOffset := caphdr / 256
      let (caphdr, p) := pciDeviceConfigurationRead16 p q.device capOffset
      capabilityLoop M q s rounds p capOffset caphdr (reads ++ [(capOffset, 2)])

/-- The command register is set: no interrupt disable, and bus master, memory and I/O space. -/
def enableDevice (p : Ports) (d : DeviceObject) : Ports :=
  let (_, p) := pciDeviceConfigurationRead16 p d 6
  let (command, p) := pciDeviceConfigurationRead16 p d 4
  let p := pciDeviceConfigurationWrite16 p d (command &&& 0xFBFF ||| 7) 4
  (pciDeviceConfigurationRead16 p d 4).2

/-- `SetInterruptService`. The bit 4 of the status is `PCI_STATUS_CAPABILITES_LIST`, and the offset
`0x34` is `PCI_CAPABILITIES_PTR`. -/
def setInterruptService (M : Machine) (rounds : ℕ) (p : Ports) (q : ServiceRequest) (s : IrqState) :
    Option ServiceResult :=
  let p := enableDevice p q.device
  let (status, p) := pciDeviceConfigurationRead16 p q.device 6
  if status &&& 0x10 = 0 then some ⟨.ok, s, p, []⟩
  else
    let (capOffset, p) := pciDeviceConfigurationRead16 p q.device 0x34
    let (caphdr, p) := pciDeviceConfigurationRead16 p q.device capOffset
    capabilityLoop M q s rounds p capOffset caphdr [(0x34, 2), (capOffset, 2)]

variable {M : Machine} {p : Ports} {q : ServiceRequest} {s t : IrqState} {c : Buffer} {o : ℕ}

def capabilityId (c : Buffer) (o : ℕ) : ℕ := (c o).toNat

def nextPointer (c : Buffer) (o : ℕ) : ℕ := (c (o + 1)).toNat

def Passed (c : Buffer) (o : ℕ) : Prop :=
  capabilityId c o ≠ 5 ∧ capabilityId c o ≠ 11 ∧ nextPointer c o ≠ 0

/-- The configuration space has a capability list, and in it there is a capability for message
signaled interrupts before any extended one. -/
def MsiListed (c : Buffer) : Prop :=
  getLE c 6 2 &&& 0x10 ≠ 0 ∧ (c 0x34).toNat ≠ 0 ∧
    Leads (Passed c) (nextPointer c) (fun o => capabilityId c o = 5) (c 0x34).toNat

def Registered (s t : IrqState) : Prop :=
  ∃ x i, (s.table x i).present = false ∧ (t.table x i).present = true ∧
    (t.table x i).source = irqSourceIrqMsi

/-- The configuration space of the device when its capabilities are followed. -/
def configuration (p : Ports) (d : DeviceObject) : Buffer :=
  header (enableDevice p d).space d.location

/-- The loop ends, it reads in the header only, and a vector is registered exactly when the list has
message signaled interrupts. -/
def WalksRight (M : Machine) (p : Ports) (q : ServiceRequest) (s : IrqState) : Prop :=
  ∃ rounds out, setInterruptService M rounds p q s = some out ∧ (∀ r ∈ out.reads, r.1 + r.2 ≤ 256) ∧
    (Registered s out.irqs ↔ MsiListed (configuration p q.device))

/-- The header of the capability is in the configuration header, and the next one is looked at. -/
def PassedInside (c : Buffer) (o : ℕ) : Prop := o + 2 ≤ 256 ∧ Passed c o

def LastInside (c : Buffer) (o : ℕ) : Prop :=
  o + 2 ≤ 256 ∧ capabilityId c o ≠ 5 ∧ capabilityId c o ≠ 11 ∧ nextPointer c o = 0

/-- The six double words of the capability are in the configuration header. -/
def MsiInside (c : Buffer) (o : ℕ) : Prop := o + 24 ≤ 256 ∧ capabilityId c o = 5

def SomeFree (M : Machine) (s : IrqState) : Prop :=
  ∃ x < M.numProcessors, ∃ i, (s.table x i).present = false

/-- Where the list is followed, for a device whose configuration is mapped: it ends without
messages, or it comes to messages and a descriptor is free exactly when the first pointer is not
zero. -/
def FollowedWell (M : Machine) (s : IrqState) (c : Buffer) : Prop :=
  getLE c 6 2 &&& 0x10 = 0 ∨ (c 0x35).toNat = 0 ∧
    (Leads (PassedInside c) (nextPointer c) (LastInside c) (c 0x34).toNat ∨
      Leads (PassedInside c) (nextPointer c) (MsiInside c) (c 0x34).toNat ∧
      (SomeFree M s ↔ (c 0x34).toNat ≠ 0))

def WalkedWell (M : Machine) (p : Ports) (q : ServiceRequest) (s : IrqState) : Prop :=
  (q.device.pciAccessType = 0 → FollowedWell M s (configuration p q.device)) ∧
    (q.device.pciAccessType ≠ 0 → ¬MsiListed (configuration p q.device))

theorem not_registered_self (s : IrqState) : ¬Registered s s := by
  rintro ⟨x, i, hfree, hp, -⟩
  rw [hfree] at hp
  cases hp

theorem not_someFree_of_registerIrq {m : MessageRequest} (h : (registerIrq M s m).2 = none) :
    ¬SomeFree M s := by
  rw [registerIrq] at h
  cases hfirst : findFree M s s.processorSwitch with
  | some p =>
    rw [hfirst] at h
    cases h
  | none =>
    cases hsecond : findFree M s 0 with
    | some p =>
      rw [hfirst, hsecond] at h
      cases h
    | none =>
      rintro ⟨x, hx, i, hi⟩
      rw [findFree_eq_none hsecond x (Nat.zero_le x) hx i] at hi
      cases hi

theorem registered_setMsi (M : Machine) (p : Ports) (q : ServiceRequest) (s : IrqState) (o : ℕ)
    (reads : List (ℕ × ℕ)) : Registered s (setMsi M p q s o reads).irqs ↔ SomeFree M s := by
  rw [setMsi]
  have hcases :=
    registerIrq_cases M s ⟨0, q.handler, irqSourceMessageSignaledInterrupt, 0, q.process⟩
  have hnone := @not_someFree_of_registerIrq M s
    ⟨0, q.handler, irqSourceMessageSignaledInterrupt, 0, q.process⟩
  generalize registerIrq M s ⟨0, q.handler, irqSourceMessageSignaledInterrupt, 0, q.process⟩ =
    result at hcases hnone
  obtain ⟨s', icd⟩ := result
  obtain ⟨x, i, hx, hi, hrun⟩ | hrun := hcases
  · cases hrun
    have hfree := freeDescriptor_eq_some hi
    refine ⟨fun _ => ⟨x, hx.lt, i, hfree⟩, fun _ => ⟨x, i, hfree, ?_⟩⟩
    generalize ht : takeDescriptor s
      ⟨0, q.handler, irqSourceMessageSignaledInterrupt, 0, q.process⟩ x i = s'
    change ((s'.put x i { s'.table x i with source := irqSourceIrqMsi }).table x i).present = true ∧
      ((s'.put x i { s'.table x i with source := irqSourceIrqMsi }).table x i).source =
      irqSourceIrqMsi
    have hpresent : (s'.table x i).present = true := by
      subst ht
      rw [takeDescriptor, put_table_self]
      rfl
    rw [put_table_self]
    exact ⟨hpresent, rfl⟩
  · cases hrun
    refine ⟨?_, fun h => absurd h (hnone rfl)⟩
    rintro ⟨x, i, hfree, hp, -⟩
    exact absurd (hfree.symm.trans hp) Bool.false_ne_true

theorem setMsi_reads (M : Machine) (p : Ports) (q : ServiceRequest) (s : IrqState) (o : ℕ)
    (reads : List (ℕ × ℕ)) (r : ℕ × ℕ) :
    r ∈ (setMsi M p q s o reads).reads ↔ r ∈ reads ∨ r ∈ msiReads o := by
  rw [setMsi]
  generalize registerIrq M s
    ⟨0, q.handler, irqSourceMessageSignaledInterrupt, 0, q.process⟩ = result
  obtain ⟨s', _ | ⟨x, i⟩⟩ := result
  · exact List.mem_append
  · rw [List.mem_append, List.mem_append, or_assoc, or_self]

theorem msiReads_inside (h : o + 2 ≤ 256) : (∀ r ∈ msiReads o, r.1 + r.2 ≤ 256) ↔ o + 24 ≤ 256 := by
  constructor
  · intro hr
    have hlast := hr ((o + 4 * 5) % 2 ^ 16, 4) (List.mem_map.mpr ⟨5, by decide, rfl⟩)
    have hmod : (o + 4 * 5) % 2 ^ 16 = o + 4 * 5 := Nat.mod_eq_of_lt (by omega)
    rw [hmod] at hlast
    exact hlast
  · intro ho r hr
    obtain ⟨i, hi, rfl⟩ := List.mem_map.mp hr
    have hlt := List.mem_range.mp hi
    have hmod : (o + 4 * i) % 2 ^ 16 = o + 4 * i := Nat.mod_eq_of_lt (by omega)
    rw [hmod]
    omega

theorem capabilityId_eq (c : Buffer) (o : ℕ) : getLE c o 2 % 256 = capabilityId c o := by
  have hlt : (c o).toNat < 256 := (c o).isLt
  rw [getLE_two, capabilityId]
  omega

theorem nextPointer_eq (c : Buffer) (o : ℕ) : getLE c o 2 / 256 = nextPointer c o := by
  have hlt : (c o).toNat < 256 := (c o).isLt
  rw [getLE_two, nextPointer]
  omega

theorem read16_mapped (hd : q.device.pciAccessType = 0) (p : Ports) (o : ℕ) :
    pciDeviceConfigurationRead16 p q.device o = (getLE (header p.space q.device.location) o 2, p) :=
  by
  rw [pciDeviceConfigurationRead16, if_pos hd]

theorem capabilityLoop_succ (hd : q.device.pciAccessType = 0)
    (hc : header p.space q.device.location = c) (rounds o : ℕ) (reads : List (ℕ × ℕ)) :
    capabilityLoop M q s (rounds + 1) p o (getLE c o 2) reads =
      if capabilityId c o = 5 then some (setMsi M p q s o reads)
      else if capabilityId c o = 11 then none
      else if nextPointer c o = 0 then some ⟨.ok, s, p, reads⟩
      else capabilityLoop M q s rounds p (nextPointer c o) (getLE c (nextPointer c o) 2)
        (reads ++ [(nextPointer c o, 2)]) := by
  rw [capabilityLoop, capabilityId_eq, nextPointer_eq]
  simp only [read16_mapped hd, hc]

theorem reads_kept (hd : q.device.pciAccessType = 0) (hc : header p.space q.device.location = c)
    {rounds : ℕ} {reads : List (ℕ × ℕ)} {out : ServiceResult}
    (h : capabilityLoop M q s rounds p o (getLE c o 2) reads = some out) :
    ∀ r ∈ reads, r ∈ out.reads := by
  induction rounds generalizing o reads with
  | zero => cases h
  | succ rounds ih =>
    intro r hr
    rw [capabilityLoop_succ hd hc] at h
    split_ifs at h
    · cases h
      exact (setMsi_reads M p q s o reads r).mpr (Or.inl hr)
    · cases h
      exact hr
    · exact ih h r (List.mem_append_left _ hr)

/-- A loop that ends and reads in the header only came to the end of the list, or to messages. -/
theorem leads_of_capabilityLoop (hd : q.device.pciAccessType = 0)
    (hc : header p.space q.device.location = c) {rounds : ℕ} {reads : List (ℕ × ℕ)}
    {out : ServiceResult} (h : capabilityLoop M q s rounds p o (getLE c o 2) reads = some out)
    (ho : (o, 2) ∈ reads) (hin : ∀ r ∈ out.reads, r.1 + r.2 ≤ 256) :
    (Leads (PassedInside c) (nextPointer c) (LastInside c) o ∧ ¬Registered s out.irqs) ∨
      (Leads (PassedInside c) (nextPointer c) (MsiInside c) o ∧
        (Registered s out.irqs ↔ SomeFree M s)) := by
  induction rounds generalizing o reads with
  | zero => cases h
  | succ rounds ih =>
    have hinside : o + 2 ≤ 256 := hin _ (reads_kept hd hc h _ ho)
    rw [capabilityLoop_succ hd hc] at h
    split_ifs at h with hmsi hmsix hnext
    · cases h
      have hlast := (msiReads_inside hinside).mp fun r hr =>
        hin r ((setMsi_reads M p q s o reads r).mpr (Or.inr hr))
      exact Or.inr ⟨.here ⟨hlast, hmsi⟩, registered_setMsi M p q s o reads⟩
    · cases h
      exact Or.inl ⟨.here ⟨hinside, hmsi, hmsix, hnext⟩, not_registered_self s⟩
    · have hpass : PassedInside c o := ⟨hinside, hmsi, hmsix, hnext⟩
      have hmem : (nextPointer c o, 2) ∈ reads ++ [(nextPointer c o, 2)] :=
        List.mem_append_right _ (List.mem_singleton.mpr rfl)
      obtain ⟨hl, hr⟩ | ⟨hl, hr⟩ := ih h hmem
      · exact Or.inl ⟨.step hpass hl, hr⟩
      · exact Or.inr ⟨.step hpass hl, hr⟩

theorem forall_mem_snoc {reads : List (ℕ × ℕ)} (hreads : ∀ r ∈ reads, r.1 + r.2 ≤ 256)
    (ho : o + 2 ≤ 256) :
    ∀ r ∈ reads ++ [(o, 2)], r.1 + r.2 ≤ 256 := by
  intro r hr
  rcases List.mem_append.mp hr with hr | hr
  · exact hreads r hr
  · rw [List.mem_singleton.mp hr]
    exact ho

theorem capabilityLoop_of_leads (hd : q.device.pciAccessType = 0)
    (hc : header p.space q.device.location = c) {goal : ℕ → Prop} {Q : IrqState → Prop}
    (hgoal : ∀ o reads, goal o → (∀ r ∈ reads, r.1 + r.2 ≤ 256) →
      ∃ out, capabilityLoop M q s 1 p o (getLE c o 2) (reads ++ [(o, 2)]) = some out ∧
        (∀ r ∈ out.reads, r.1 + r.2 ≤ 256) ∧ Q out.irqs)
    (h : Leads (PassedInside c) (nextPointer c) goal o) (reads : List (ℕ × ℕ))
    (hreads : ∀ r ∈ reads, r.1 + r.2 ≤ 256) :
    ∃ rounds out, capabilityLoop M q s rounds p o (getLE c o 2) (reads ++ [(o, 2)]) = some out ∧
      (∀ r ∈ out.reads, r.1 + r.2 ≤ 256) ∧ Q out.irqs := by
  induction h generalizing reads with
  | here h =>
    obtain ⟨out, hrun, hout⟩ := hgoal _ reads h hreads
    exact ⟨1, out, hrun, hout⟩
  | step h _ ih =>
    obtain ⟨ho, hmsi, hmsix, hnext⟩ := h
    obtain ⟨rounds, out, hrun, hout⟩ := ih _ (forall_mem_snoc hreads ho)
    refine ⟨rounds + 1, out, ?_, hout⟩
    rw [capabilityLoop_succ hd hc, if_neg hmsi, if_neg hmsix, if_neg hnext]
    exact hrun

theorem capabilityLoop_of_last (hd : q.device.pciAccessType = 0)
    (hc : header p.space q.device.location = c)
    (h : Leads (PassedInside c) (nextPointer c) (LastInside c) o) (reads : List (ℕ × ℕ))
    (hreads : ∀ r ∈ reads, r.1 + r.2 ≤ 256) :
    ∃ rounds out, capabilityLoop M q s rounds p o (getLE c o 2) (reads ++ [(o, 2)]) = some out ∧
      (∀ r ∈ out.reads, r.1 + r.2 ≤ 256) ∧ ¬Registered s out.irqs := by
  refine capabilityLoop_of_leads hd hc (Q := fun t => ¬Registered s t) ?_ h reads hreads
  rintro o reads ⟨ho, hmsi, hmsix, hnext⟩ hreads
  refine ⟨⟨.ok, s, p, reads ++ [(o, 2)]⟩, ?_, forall_mem_snoc hreads ho, not_registered_self s⟩
  rw [capabilityLoop_succ hd hc, if_neg hmsi, if_neg hmsix, if_pos hnext]

/-- At a capability for messages the loop returns, with a vector when a descriptor is free. -/
theorem capabilityLoop_of_msi (hd : q.device.pciAccessType = 0)
    (hc : header p.space q.device.location = c)
    (h : Leads (PassedInside c) (nextPointer c) (MsiInside c) o) (reads : List (ℕ × ℕ))
    (hreads : ∀ r ∈ reads, r.1 + r.2 ≤ 256) :
    ∃ rounds out, capabilityLoop M q s rounds p o (getLE c o 2) (reads ++ [(o, 2)]) = some out ∧
      (∀ r ∈ out.reads, r.1 + r.2 ≤ 256) ∧ (Registered s out.irqs ↔ SomeFree M s) := by
  refine capabilityLoop_of_leads hd hc (Q := fun t => Registered s t ↔
    SomeFree M s) ?_ h reads hreads
  rintro o reads ⟨ho, hmsi⟩ hreads
  have hinside : o + 2 ≤ 256 := by omega
  refine ⟨setMsi M p q s o (reads ++ [(o, 2)]), ?_, ?_, registered_setMsi M p q s o _⟩
  · rw [capabilityLoop_succ hd hc, if_pos hmsi]
  · intro r hr
    rcases (setMsi_reads M p q s o _ r).mp hr with hr | hr
    · exact forall_mem_snoc hreads hinside r hr
    · exact (msiReads_inside hinside).mpr ho r hr

theorem leads_msi_of_inside (h : Leads (PassedInside c) (nextPointer c) (MsiInside c) o) :
    Leads (Passed c) (nextPointer c) (fun o => capabilityId c o = 5) o :=
  h.mono (fun _ hp => hp.2) (fun _ hg => hg.2)

theorem not_leads_msi_of_last (h : Leads (PassedInside c) (nextPointer c) (LastInside c) o) :
    ¬Leads (Passed c) (nextPointer c) (fun o => capabilityId c o = 5) o :=
  h.disjoint (fun _ hg => ⟨hg.2.1, fun hp => hp.2.2 hg.2.2.2⟩) fun _ hp => hp.2.1

theorem setInterruptService_mapped (hd : q.device.pciAccessType = 0) (M : Machine) (rounds : ℕ)
    (p : Ports) (s : IrqState) (hc : configuration p q.device = c) :
    setInterruptService M rounds p q s =
      if getLE c 6 2 &&& 0x10 = 0 then some ⟨.ok, s, enableDevice p q.device, []⟩
      else capabilityLoop M q s rounds (enableDevice p q.device) (getLE c 0x34 2)
        (getLE c (getLE c 0x34 2) 2)
        [(0x34, 2), (getLE c 0x34 2, 2)] := by
  rw [configuration] at hc
  rw [setInterruptService]
  simp only [read16_mapped hd, hc]

/-- The status register is one of the bytes that a read through the ports loses. -/
theorem ioPciRead16_status (p : Ports) (f : FunctionId) : (ioPciRead16 p f 6).1 = 0 := by
  have hlow : seen .word p.space f 6 6 = 0 := seen_of_lost ⟨by decide, by decide, by decide⟩
  have hhigh : seen .word p.space f 6 7 = 0 := seen_of_lost ⟨by decide, by decide, by decide⟩
  rw [ioPciRead16_eq p f (by decide), getLE_two, hlow, hhigh]
  rfl

theorem setInterruptService_ports (hd : q.device.pciAccessType ≠ 0) (M : Machine) (rounds : ℕ)
    (p : Ports) (s : IrqState) :
    ∃ p', setInterruptService M rounds p q s = some ⟨.ok, s, p', []⟩ := by
  have hread : (pciDeviceConfigurationRead16 (enableDevice p q.device) q.device 6).1 = 0 := by
    rw [pciDeviceConfigurationRead16, if_neg hd]
    exact ioPciRead16_status _ _
  rw [setInterruptService]
  simp only [hread, Nat.zero_and]
  exact ⟨_, rfl⟩

theorem followedWell_of_walksRight (hd : q.device.pciAccessType = 0)
    (hc : configuration p q.device = c) (h : WalksRight M p q s) : FollowedWell M s c := by
  obtain ⟨rounds, out, hrun, hin, hiff⟩ := h
  rw [setInterruptService_mapped hd M rounds p s hc] at hrun
  rw [hc] at hiff
  split_ifs at hrun with hstatus
  · exact Or.inl hstatus
  · have hkept := reads_kept hd hc hrun
    have hfirst : getLE c 0x34 2 + 2 ≤ 256 := hin _ (hkept (getLE c 0x34 2, 2) (by simp))
    have hsplit : getLE c 0x34 2 = (c 0x34).toNat + 256 * (c 0x35).toNat := getLE_two c 0x34
    have hhigh : (c 0x35).toNat = 0 := by omega
    have hstart : getLE c 0x34 2 = (c 0x34).toNat := by omega
    rw [hstart] at hrun
    refine Or.inr ⟨hhigh, ?_⟩
    obtain ⟨hl, -⟩ | ⟨hl, hr⟩ := leads_of_capabilityLoop hd hc hrun (by simp) hin
    · exact Or.inl hl
    · refine Or.inr ⟨hl, ?_⟩
      rw [← hr, hiff, MsiListed]
      exact ⟨fun hm => hm.2.1, fun hz => ⟨hstatus, hz, leads_msi_of_inside hl⟩⟩

theorem walksRight_of_followedWell (hd : q.device.pciAccessType = 0)
    (hc : configuration p q.device = c) (h : FollowedWell M s c) : WalksRight M p q s := by
  by_cases hstatus : getLE c 6 2 &&& 0x10 = 0
  · refine ⟨0, ⟨.ok, s, enableDevice p q.device, []⟩, ?_,
      fun r hr => absurd hr List.not_mem_nil, ?_⟩
    · rw [setInterruptService_mapped hd M 0 p s hc, if_pos hstatus]
    · rw [hc]
      exact ⟨fun hr => absurd hr (not_registered_self s), fun hm => absurd hstatus hm.1⟩
  · obtain ⟨hhigh, hlist⟩ := h.resolve_left hstatus
    have hstart : getLE c 0x34 2 = (c 0x34).toNat := by
      rw [getLE_two, hhigh]
      rfl
    have hreads : ∀ r ∈ [((0x34 : ℕ), (2 : ℕ))], r.1 + r.2 ≤ 256 := by decide
    rw [WalksRight, hc]
    obtain hl | ⟨hl, hfree⟩ := hlist
    · obtain ⟨rounds, out, hrun, hin, hnot⟩ :=
        capabilityLoop_of_last (M := M) (s := s) hd hc hl _ hreads
      refine ⟨rounds, out, ?_, hin, ?_⟩
      · rw [setInterruptService_mapped hd M rounds p s hc, if_neg hstatus, hstart]
        exact hrun
      · exact ⟨fun hr => absurd hr hnot, fun hm => absurd hm.2.2 (not_leads_msi_of_last hl)⟩
    · obtain ⟨rounds, out, hrun, hin, hr⟩ :=
        capabilityLoop_of_msi (M := M) (s := s) hd hc hl _ hreads
      refine ⟨rounds, out, ?_, hin, ?_⟩
      · rw [setInterruptService_mapped hd M rounds p s hc, if_neg hstatus, hstart]
        exact hrun
      · rw [hr, hfree, MsiListed]
        exact ⟨fun hz => ⟨hstatus, hz, leads_msi_of_inside hl⟩, fun hm => hm.2.1⟩

theorem walksRight_ports (hd : q.device.pciAccessType ≠ 0) :
    WalksRight M p q s ↔ ¬MsiListed (configuration p q.device) := by
  constructor
  · rintro ⟨rounds, out, hrun, -, hiff⟩ hm
    obtain ⟨p', hports⟩ := setInterruptService_ports hd M rounds p s
    rw [hports] at hrun
    cases hrun
    exact not_registered_self s (hiff.mpr hm)
  · intro hm
    obtain ⟨p', hports⟩ := setInterruptService_ports hd M 0 p s
    exact ⟨0, _, hports, fun r hr => absurd hr List.not_mem_nil,
      fun hr => absurd hr (not_registered_self s), fun hl => absurd hl hm⟩

/-- The loop does as it should exactly when, for a mapped device, there is no list, or the first
pointer is a byte and the capabilities lead inside the header to the end of the list, or to messages
with a descriptor for them just when the first pointer is not zero; and for a device behind ports,
when no messages are listed. -/
theorem setInterruptService_right_iff (M : Machine) (p : Ports) (q : ServiceRequest)
    (s : IrqState) :
    WalksRight M p q s ↔ WalkedWell M p q s := by
  by_cases hd : q.device.pciAccessType = 0
  · constructor
    · intro h
      exact ⟨fun _ => followedWell_of_walksRight hd rfl h, fun hne => absurd hd hne⟩
    · intro h
      exact walksRight_of_followedWell hd rfl (h.1 hd)
  · rw [walksRight_ports hd]
    exact ⟨fun h => ⟨fun he => absurd he hd, fun _ => h⟩, fun h => h.2 hd⟩

/-- A capability at 0x40 whose pointer is 0x40. -/
theorem setInterruptService_cycles :
    ¬WalksRight (smallMachine 1)
      ⟨0, setLE (setLE (setLE (fun _ => 0) 6 2 0x10) 0x34 1 0x40) 0x40 2 0x4001⟩
      ⟨⟨0, ⟨0, 0, 0⟩⟩, 1, 0, 0xFEE00000⟩ .initial := by
  intro h
  generalize hc : configuration
    ⟨0, setLE (setLE (setLE (fun _ => 0) 6 2 0x10) 0x34 1 0x40) 0x40 2 0x4001⟩
    ⟨0, ⟨0, 0, 0⟩⟩ = c
  have hstatus : getLE c 6 2 = 0x10 := by rw [← hc]; decide
  have hstart : (c 0x34).toNat = 0x40 := by rw [← hc]; decide
  have hid : capabilityId c 0x40 = 1 := by rw [← hc]; decide
  have hnext : nextPointer c 0x40 = 0x40 := by rw [← hc]; decide
  have hd : (ServiceRequest.mk ⟨0, ⟨0, 0, 0⟩⟩ 1 0 0xFEE00000).device.pciAccessType = 0 := rfl
  have hwell := followedWell_of_walksRight hd hc h
  rw [FollowedWell, hstatus, hstart] at hwell
  obtain hz | ⟨-, hl | ⟨hl, -⟩⟩ := hwell
  · exact absurd hz (by decide)
  · refine not_leads_of_fixed hnext ?_ hl
    rintro ⟨-, -, -, hlast⟩
    rw [hnext] at hlast
    cases hlast
  · refine not_leads_of_fixed hnext ?_ hl
    rintro ⟨-, hmsi⟩
    rw [hid] at hmsi
    cases hmsi

end DevOs.Interrupts
