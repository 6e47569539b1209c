import DevOs.Ahci.Slots

/-!
# The interrupt handler of an AHCI controller

`DriverEntry` registers the implemented ports one after the other, so that a port has a place in
`Ports` and a number `PortIndex` among the ports of the controller. The bits of the interrupt status
and the registers go by the number. `AhciInterruptHandler` goes by the place for all three. It is
right when place and number are the same for every port that either of them finds pending, and when
no pending port was left out.

The status of a port is the one that the handler finds first.
-/

namespace DevOs.Ahci

open Words

/-- The registers of `HBA_PORT` that the handler reads. -/
structure HbaPort where
  interruptStatus : BitVec 32
  commandIssue : BitVec 32
deriving DecidableEq, Repr

/-- `AHCI_DEVICE_PORT`, the part that the handler uses. -/
structure DevicePort where
  portIndex : ℕ
  pendingCommands : ℕ → Option ℕ
  doneCommands : BitVec 32
  usedCommandSlots : BitVec 32
  firstD2h : Bool

/-- `AHCI_DEVICE` with the registers of the controller. `numPortsCapability` is
`HostCapabilities.NumPorts`. -/
structure Device where
  interruptStatus : BitVec 32
  portsImplemented : BitVec 32
  numPortsCapability : BitVec 5
  hbaPorts : ℕ → HbaPort
  maxCommandSlots : ℕ
  numPorts : ℕ
  ports : ℕ → DevicePort

def d2hRegisterFisInterrupt : ℕ := 0
def pioSetupFisInterrupt : ℕ := 1
def dmaSetupFisInterrupt : ℕ := 2
def setDeviceBitsInterrupt : ℕ := 3
def unknownFisInterrupt : ℕ := 4
def descriptorProcessed : ℕ := 5
def portConnectChangeStatus : ℕ := 6
def phyRdyChangeStatus : ℕ := 22
def interfaceNonFatalErrorStatus : ℕ := 26
def interfaceFatalErrorStatus : ℕ := 27
def taskFileErrorStatus : ℕ := 30

/-- A field of a port that the handler writes. -/
inductive RegisterWrite where
  | interruptStatus (bit : ℕ)
  | unknownFisType
  | exchanged
  | deviceDetectionInitialization
  | phyRdyChange
deriving DecidableEq, Repr

/-- The loop of `DriverEntry` over the ports, with the `PortIndex` of the ports registered so
far. -/
def registerLoop : ℕ → ℕ → BitVec 32 → List ℕ → List ℕ
  | 0, _, _, ports => ports
  | n + 1, i, portsImplemented, ports =>
    registerLoop n (i + 1) (portsImplemented >>> 1)
      (if portsImplemented.getLsbD 0 then ports ++ [i] else ports)

/-- The `PortIndex` of every registered port. -/
def Device.registered (d : Device) : List ℕ :=
  registerLoop (d.numPortsCapability.toNat + 1) 0 d.portsImplemented []

/-- The device as `DriverEntry` leaves it. -/
def Device.driverEntry (d : Device) : Device :=
  { d with
    numPorts := d.registered.length
    ports := fun i => { d.ports i with portIndex := d.registered.getD i (d.ports i).portIndex } }

def finishLoop : ℕ → ℕ → BitVec 32 → DevicePort → List ℕ → DevicePort × List ℕ
  | 0, _, _, port, finished => (port, finished)
  | n + 1, c, cmdIssue, port, finished =>
    match port.pendingCommands c with
    | none => finishLoop n (c + 1) (cmdIssue >>> 1) port finished
    | some th =>
      if cmdIssue.getLsbD 0 then finishLoop n (c + 1) (cmdIssue >>> 1) port finished
      else
        finishLoop n (c + 1) (cmdIssue >>> 1)
          { port with
            doneCommands := bitTestAndSet port.doneCommands c
            usedCommandSlots := bitClear port.usedCommandSlots c }
          (finished ++ [th])

/-- A pass of the handler: the place of the port in `Ports` and the number of the registers in
`HbaPorts`. -/
structure Visit where
  port : ℕ
  hbaPort : ℕ
deriving DecidableEq, Repr

/-- What the handler did so far. `status` is the value that it wrote to the interrupt status of the
controller. -/
structure Outcome where
  status : BitVec 32
  ports : ℕ → DevicePort
  visits : List Visit
  writes : List (ℕ × RegisterWrite)
  finished : List ℕ

def finishCommands (maxCommandSlots : ℕ) (h : HbaPort) (port : DevicePort) : DevicePort × List ℕ :=
  if h.interruptStatus.getLsbD d2hRegisterFisInterrupt ||
    h.interruptStatus.getLsbD pioSetupFisInterrupt then
    finishLoop maxCommandSlots 0 h.commandIssue { port with firstD2h := true } []
  else (port, [])

/-- The writes that acknowledge a status: `hbaPort` is the number of the registers that were read,
and `own` the number of the port itself. -/
def acknowledge (hbaPort own : ℕ) (status : BitVec 32) : List (ℕ × RegisterWrite) :=
  let ack (bit : ℕ) : List (ℕ × RegisterWrite) :=
    if status.getLsbD bit then [(hbaPort, .interruptStatus bit)] else []
  ack d2hRegisterFisInterrupt ++ ack pioSetupFisInterrupt ++ ack dmaSetupFisInterrupt ++
    ack setDeviceBitsInterrupt ++
    (if status.getLsbD unknownFisInterrupt then [(hbaPort, .unknownFisType)] else []) ++
    ack descriptorProcessed ++
    (if status.getLsbD portConnectChangeStatus then
      [(own, .exchanged), (own, .deviceDetectionInitialization)] else []) ++
    (if status.getLsbD phyRdyChangeStatus then [(own, .phyRdyChange)] else []) ++
    ack interfaceNonFatalErrorStatus ++ ack interfaceFatalErrorStatus ++ ack taskFileErrorStatus

def servicePort (maxCommandSlots : ℕ) (h : HbaPort) (port : DevicePort) : DevicePort × List ℕ :=
  let (port, finished) := finishCommands maxCommandSlots h port
  (if h.interruptStatus.getLsbD phyRdyChangeStatus then { port with firstD2h := true }
    else port, finished)

/-- The body of the loop: the port at the place `i` with the registers of the number `i`. -/
def Device.visit (d : Device) (i : ℕ) (o : Outcome) : Outcome :=
  let h := d.hbaPorts i
  let (port, finished) := servicePort d.maxCommandSlots h (o.ports i)
  { o with
    ports := Function.update o.ports i port
    visits := o.visits ++ [⟨i, i⟩]
    writes := o.writes ++ acknowledge i port.portIndex h.interruptStatus
    finished := o.finished ++ finished }

def Device.handlerLoop (d : Device) : ℕ → ℕ → BitVec 32 → Outcome → Outcome
  | 0, _, _, o => o
  | n + 1, i, status, o =>
    d.handlerLoop n (i + 1) (status >>> 1) (if status.getLsbD 0 then d.visit i o else o)

/-- `AhciInterruptHandler` -/
def Device.interruptHandler (d : Device) : Outcome :=
  if d.interruptStatus = 0 then ⟨0, d.ports, [], [], []⟩
  else d.handlerLoop d.numPorts 0 d.interruptStatus ⟨d.interruptStatus, d.ports, [], [], []⟩

/-- The command in a slot is pending in the port and done by the registers. -/
def Finishes (maxCommandSlots : ℕ) (h : HbaPort) (port : DevicePort) (c : ℕ) : Bool :=
  (h.interruptStatus.getLsbD d2hRegisterFisInterrupt ||
    h.interruptStatus.getLsbD pioSetupFisInterrupt) &&
    decide (c < maxCommandSlots) && (port.pendingCommands c).isSome && !h.commandIssue.getLsbD c

/-- The handler reads the registers of the ports whose number is pending, finishes commands by these
registers on those ports and on no others, and gets to every implemented port that is pending. -/
structure Device.Serviced (d : Device) : Prop where
  visited : ∀ v, v ∈ d.interruptHandler.visits ↔
    v.port < d.numPorts ∧ v.hbaPort = (d.ports v.port).portIndex ∧
      d.interruptStatus.getLsbD (d.ports v.port).portIndex = true
  finished : ∀ i < d.numPorts, ∀ c < 32,
    (d.interruptHandler.ports i).doneCommands.getLsbD c =
      ((d.ports i).doneCommands.getLsbD c ||
        d.interruptStatus.getLsbD (d.ports i).portIndex &&
          Finishes d.maxCommandSlots (d.hbaPorts (d.ports i).portIndex) (d.ports i) c)
  all : ∀ j, d.portsImplemented.getLsbD j = true → d.interruptStatus.getLsbD j = true →
    ∃ v ∈ d.interruptHandler.visits, v.hbaPort = j

/-- Place and number agree for every port that is pending by either of them, and every implemented
port that is pending is among the first `NumPorts + 1` ports. -/
def Device.Aligned (d : Device) : Prop :=
  (∀ i < d.numPorts, d.interruptStatus.getLsbD i = true ∨
    d.interruptStatus.getLsbD (d.ports i).portIndex = true →
    (d.ports i).portIndex = i) ∧
  ∀ j, d.portsImplemented.getLsbD j = true → d.interruptStatus.getLsbD j = true →
    j < d.numPortsCapability.toNat + 1

section Loops

variable {d : Device} {o : Outcome} {port : DevicePort} {i n : ℕ}

theorem shift_getLsbD (b : BitVec 32) (i : ℕ) : (b >>> i).getLsbD 0 = b.getLsbD i := by
  rw [BitVec.getLsbD_ushiftRight, Nat.add_zero]

theorem shift_succ (b : BitVec 32) (i : ℕ) : b >>> i >>> 1 = b >>> (i + 1) :=
  (BitVec.shiftRight_add b i 1).symm

theorem registerLoop_eq (mask : BitVec 32) (n i : ℕ) (ports : List ℕ) :
    registerLoop n i (mask >>> i) ports = ports ++ (List.range' i n).filter mask.getLsbD := by
  induction n generalizing i ports with
  | zero => exact (List.append_nil ports).symm
  | succ n ih =>
    rw [registerLoop, shift_succ, ih, shift_getLsbD, List.range'_succ]
    cases hbit : mask.getLsbD i with
    | true =>
        rw [if_pos rfl, List.filter_cons_of_pos hbit, List.append_assoc, List.singleton_append]
    | false =>
        rw [if_neg Bool.false_ne_true,
          List.filter_cons_of_neg (by rw [hbit]; exact Bool.false_ne_true)]

/-- The registered ports are the implemented ones among the first `NumPorts + 1`, in ascending
order. -/
theorem registered_eq (d : Device) :
    d.registered = (List.range (d.numPortsCapability.toNat + 1)).filter
      d.portsImplemented.getLsbD := by
  have h := registerLoop_eq d.portsImplemented (d.numPortsCapability.toNat + 1) 0 []
  rw [BitVec.ushiftRight_zero, List.nil_append, ← List.range_eq_range'] at h
  exact h

theorem finishLoop_spec (cmdIssue : BitVec 32) (n c : ℕ) (port : DevicePort) (finished : List ℕ)
    (j : ℕ) :
    (finishLoop n c (cmdIssue >>> c) port finished).1.doneCommands.getLsbD j =
      (port.doneCommands.getLsbD j ||
        decide (j < 32) && decide (c ≤ j ∧ j < c + n) && (port.pendingCommands j).isSome &&
          !cmdIssue.getLsbD j) := by
  induction n generalizing c port finished with
  | zero =>
    have hno : ¬(c ≤ j ∧ j < c + 0) := by omega
    rw [finishLoop, decide_eq_false hno, Bool.and_false, Bool.false_and, Bool.false_and,
      Bool.or_false]
  | succ n ih =>
    have hself : decide (c + 1 ≤ c ∧ c < c + 1 + n) = false := decide_eq_false (by omega)
    have hself' : decide (c ≤ c ∧ c < c + (n + 1)) = true := decide_eq_true (by omega)
    have hrest : j ≠ c → decide (c + 1 ≤ j ∧ j < c + 1 + n) = decide (c ≤ j ∧ j < c + (n + 1)) :=
      fun hj => decide_eq_decide.mpr (by omega)
    rw [finishLoop, shift_succ, shift_getLsbD]
    cases hpending : port.pendingCommands c with
    | none =>
      dsimp only
      rw [ih]
      by_cases hj : j = c
      · rw [hj, hpending, Option.isSome_none, Bool.and_false, Bool.and_false]
      · rw [hrest hj]
    | some th =>
      dsimp only
      cases hissue : cmdIssue.getLsbD c with
      | true =>
        rw [if_pos rfl, ih]
        by_cases hj : j = c
        · rw [hj, hissue, Bool.not_true, Bool.and_false, Bool.and_false]
        · rw [hrest hj]
      | false =>
        rw [if_neg Bool.false_ne_true, ih]
        dsimp only
        rw [getLsbD_bitTestAndSet]
        by_cases hj : j = c
        · rw [hj, hself, hself', hissue, hpending, decide_eq_true rfl]
          cases port.doneCommands.getLsbD c <;> cases decide (c < 32) <;> rfl
        · rw [hrest hj, decide_eq_false hj, Bool.and_false, Bool.or_false]

theorem servicePort_done (maxCommandSlots : ℕ) (h : HbaPort) (port : DevicePort) {c : ℕ}
    (hc : c < 32) :
    (servicePort maxCommandSlots h port).1.doneCommands.getLsbD c =
      (port.doneCommands.getLsbD c || Finishes maxCommandSlots h port c) := by
  have hfinish : (finishCommands maxCommandSlots h port).1.doneCommands.getLsbD c =
      (port.doneCommands.getLsbD c || Finishes maxCommandSlots h port c) := by
    rw [finishCommands, Finishes]
    cases hint : h.interruptStatus.getLsbD d2hRegisterFisInterrupt ||
        h.interruptStatus.getLsbD pioSetupFisInterrupt with
    | false =>
        rw [if_neg Bool.false_ne_true, Bool.false_and, Bool.false_and, Bool.false_and,
          Bool.or_false]
    | true =>
      have hspec := finishLoop_spec h.commandIssue maxCommandSlots 0
        { port with firstD2h := true } [] c
      have hrange : decide (0 ≤ c ∧ c < 0 + maxCommandSlots) = decide (c < maxCommandSlots) :=
        decide_eq_decide.mpr (by omega)
      rw [BitVec.ushiftRight_zero, hrange, decide_eq_true hc, Bool.true_and] at hspec
      rw [if_pos rfl, Bool.true_and]
      exact hspec
  rw [servicePort]
  dsimp only
  split
  · exact hfinish
  · exact hfinish

theorem handlerLoop_visits (status : BitVec 32) (n i : ℕ) (o : Outcome) :
    (d.handlerLoop n i (status >>> i) o).visits =
      o.visits ++ ((List.range' i n).filter status.getLsbD).map fun j => ⟨j, j⟩ := by
  induction n generalizing i o with
  | zero => exact (List.append_nil o.visits).symm
  | succ n ih =>
    rw [Device.handlerLoop, shift_succ, ih, shift_getLsbD, List.range'_succ]
    cases hbit : status.getLsbD i with
    | true =>
      rw [if_pos rfl, List.filter_cons_of_pos hbit, List.map_cons, Device.visit, List.append_assoc,
        List.singleton_append]
    | false =>
        rw [if_neg Bool.false_ne_true,
          List.filter_cons_of_neg (by rw [hbit]; exact Bool.false_ne_true)]

theorem handlerLoop_ports (status : BitVec 32) (n i : ℕ) (o : Outcome) (j : ℕ) :
    (d.handlerLoop n i (status >>> i) o).ports j =
      if (i ≤ j ∧ j < i + n) ∧ status.getLsbD j = true then
        (servicePort d.maxCommandSlots (d.hbaPorts j) (o.ports j)).1
      else o.ports j := by
  induction n generalizing i o with
  | zero => rw [Device.handlerLoop, if_neg (by omega)]
  | succ n ih =>
    rw [Device.handlerLoop, shift_succ, ih, shift_getLsbD]
    by_cases hj : j = i
    · subst hj
      rw [if_neg (by omega)]
      cases hbit : status.getLsbD j with
      | true =>
        rw [if_pos rfl, if_pos ⟨by omega, rfl⟩]
        exact Function.update_self _ _ _
      | false => rw [if_neg Bool.false_ne_true, if_neg fun h => Bool.false_ne_true h.2]
    · have hports : (if status.getLsbD i = true then d.visit i o else o).ports j = o.ports j := by
        split
        · exact Function.update_of_ne hj _ _
        · rfl
      rw [hports]
      exact if_congr (and_congr_left fun _ => by omega) rfl rfl

end Loops

section Handler

variable (d : Device)

theorem mem_visits (v : Visit) :
    v ∈ d.interruptHandler.visits ↔
      v.port < d.numPorts ∧ v.hbaPort = v.port ∧ d.interruptStatus.getLsbD v.port = true := by
  rw [Device.interruptHandler]
  by_cases hzero : d.interruptStatus = 0
  · have hbit : d.interruptStatus.getLsbD v.port = false := by
      rw [hzero]
      exact BitVec.getLsbD_zero
    rw [if_pos hzero, hbit]
    exact iff_of_false List.not_mem_nil fun h => Bool.false_ne_true h.2.2
  · have h := handlerLoop_visits (d := d) d.interruptStatus d.numPorts 0
      ⟨d.interruptStatus, d.ports, [], [], []⟩
    rw [BitVec.ushiftRight_zero, List.nil_append, ← List.range_eq_range'] at h
    rw [if_neg hzero, h, List.mem_map]
    constructor
    · rintro ⟨j, hj, rfl⟩
      rw [List.mem_filter, List.mem_range] at hj
      exact ⟨hj.1, rfl, hj.2⟩
    · rintro ⟨hlt, heq, hbit⟩
      refine ⟨v.port, List.mem_filter.mpr ⟨List.mem_range.mpr hlt, hbit⟩, ?_⟩
      cases v
      cases heq
      rfl

theorem interruptHandler_ports (j : ℕ) :
    d.interruptHandler.ports j =
      if j < d.numPorts ∧ d.interruptStatus.getLsbD j = true then
        (servicePort d.maxCommandSlots (d.hbaPorts j) (d.ports j)).1
      else d.ports j := by
  rw [Device.interruptHandler]
  by_cases hzero : d.interruptStatus = 0
  · have hbit : d.interruptStatus.getLsbD j = false := by
      rw [hzero]
      exact BitVec.getLsbD_zero
    rw [if_pos hzero, hbit, if_neg fun h => Bool.false_ne_true h.2]
  · have h := handlerLoop_ports (d := d) d.interruptStatus d.numPorts 0
      ⟨d.interruptStatus, d.ports, [], [], []⟩ j
    rw [BitVec.ushiftRight_zero] at h
    rw [if_neg hzero, h]
    exact if_congr (and_congr_left fun _ => by omega) rfl rfl

theorem driverEntry_portIndex {i : ℕ} (hi : i < d.driverEntry.numPorts) :
    d.registered[i]? = some (d.driverEntry.ports i).portIndex := by
  have hlt : i < d.registered.length := hi
  have hindex : (d.driverEntry.ports i).portIndex = d.registered.getD i (d.ports i).portIndex := rfl
  rw [hindex, List.getD_eq_getElem?_getD, List.getElem?_eq_getElem hlt, Option.getD_some]

theorem exists_port_iff (j : ℕ) :
    (∃ i < d.driverEntry.numPorts, (d.driverEntry.ports i).portIndex = j) ↔
      j < d.numPortsCapability.toNat + 1 ∧ d.portsImplemented.getLsbD j = true := by
  rw [← List.mem_range, ← List.mem_filter, ← registered_eq, List.mem_iff_getElem?]
  constructor
  · rintro ⟨i, hi, rfl⟩
    exact ⟨i, driverEntry_portIndex d hi⟩
  · rintro ⟨i, hi⟩
    have hlt : i < d.driverEntry.numPorts := (List.getElem?_eq_some_iff.mp hi).1
    refine ⟨i, hlt, ?_⟩
    exact Option.some.inj ((driverEntry_portIndex d hlt).symm.trans hi)

end Handler

/-- A device as `DriverEntry` leaves it, with any commands, registers and pending bits: its
interrupts reach the right ports if and only if place and number agree for every port that is
pending and no pending port was left out. -/
theorem interrupts_serviced_iff (d : Device) : d.driverEntry.Serviced ↔ d.driverEntry.Aligned := by
  constructor
  · intro h
    constructor
    · intro i hi hbit
      rcases hbit with hplace | hnumber
      · have hv := (mem_visits d.driverEntry ⟨i, i⟩).mpr ⟨hi, rfl, hplace⟩
        exact ((h.visited _).mp hv).2.1.symm
      · have hv := (h.visited ⟨i, (d.driverEntry.ports i).portIndex⟩).mpr ⟨hi, rfl, hnumber⟩
        exact ((mem_visits _ _).mp hv).2.1
    · intro j himpl hpend
      obtain ⟨v, hv, rfl⟩ := h.all j himpl hpend
      obtain ⟨hlt, heq, -⟩ := (h.visited v).mp hv
      exact ((exists_port_iff d v.hbaPort).mp ⟨v.port, hlt, heq.symm⟩).1
  · rintro ⟨halign, hregistered⟩
    have hvisited : ∀ v, v ∈ d.driverEntry.interruptHandler.visits ↔
        v.port < d.driverEntry.numPorts ∧ v.hbaPort = (d.driverEntry.ports v.port).portIndex ∧
          d.driverEntry.interruptStatus.getLsbD (d.driverEntry.ports v.port).portIndex = true := by
      intro v
      rw [mem_visits]
      refine and_congr_right fun hlt => ?_
      constructor
      · rintro ⟨heq, hbit⟩
        have hindex := halign v.port hlt (Or.inl hbit)
        rw [hindex]
        exact ⟨heq, hbit⟩
      · rintro ⟨heq, hbit⟩
        have hindex := halign v.port hlt (Or.inr hbit)
        rw [hindex] at heq hbit
        exact ⟨heq, hbit⟩
    refine ⟨hvisited, fun i hi c hc => ?_, fun j himpl hpend => ?_⟩
    · rw [interruptHandler_ports]
      by_cases hbit : d.driverEntry.interruptStatus.getLsbD (d.driverEntry.ports i).portIndex = true
      · have hindex := halign i hi (Or.inr hbit)
        rw [hindex] at hbit ⊢
        rw [if_pos ⟨hi, hbit⟩, servicePort_done _ _ _ hc, hbit, Bool.true_and]
      · have hplace : ¬d.driverEntry.interruptStatus.getLsbD i = true := by
          intro hi'
          rw [halign i hi (Or.inl hi')] at hbit
          exact hbit hi'
        rw [if_neg fun hx => hplace hx.2, Bool.eq_false_iff.mpr hbit, Bool.false_and, Bool.or_false]
    · obtain ⟨i, hi, hindex⟩ := (exists_port_iff d j).mpr ⟨hregistered j himpl hpend, himpl⟩
      exact ⟨⟨i, j⟩, (hvisited _).mpr ⟨hi, hindex.symm, by rw [hindex]; exact hpend⟩, rfl⟩

/-- A controller with six ports of which only the third is implemented, with an interrupt of it
pending. -/
def thirdPort : Device where
  interruptStatus := 0b100
  portsImplemented := 0b100
  numPortsCapability := 5
  hbaPorts := fun _ => ⟨1, 0⟩
  maxCommandSlots := 31
  numPorts := 0
  ports := fun _ => ⟨0, fun _ => some 1, 0, 0, false⟩

/-- The port is at the first place, and the handler looks at the first bit: it reads no
registers. -/
theorem thirdPort_missed :
    thirdPort.driverEntry.interruptHandler.visits = [] ∧
    (thirdPort.driverEntry.ports 0).portIndex = 2 ∧
      ¬thirdPort.driverEntry.Serviced := by
  have hvisits : thirdPort.driverEntry.interruptHandler.visits = [] := by decide
  refine ⟨hvisits, by decide, fun h => ?_⟩
  obtain ⟨v, hv, -⟩ := h.all 2 (by decide) (by decide)
  rw [hvisits] at hv
  cases hv

end DevOs.Ahci
