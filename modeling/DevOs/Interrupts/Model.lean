import DevOs.Lib.Slots

/-!
# Interrupt lines and messages

Every processor has a table of 224 interrupt descriptors. `KeControlIrq` gives an interrupt line of
an I/O APIC to a handler: it takes a descriptor of the processor that a rotating index names and
programs the redirection entry of the line. `RegisterIrq` takes a descriptor for an interrupt that a
device sends as a message, and it moves the same index. The descriptors of both are in the same
tables. The gates of the interrupt descriptor table are left out.
-/

namespace DevOs.Interrupts

/-- `ACPI_IOAPIC`, with the register `IOAPIC_VER` of the controller. -/
structure IoApic where
  ioApicId : Fin 256
  version : ℕ
deriving DecidableEq

/-- `ACPI_IOAPIC_ISO`, an interrupt source override. -/
structure IrqOverride where
  irqSource : ℕ
  globalSysInterrupt : ℕ
  flags : BitVec 16

/-- The records of the multiple APIC description table. -/
inductive MadtRecord where
  | ioApic (a : IoApic)
  | ioApicIso (o : IrqOverride)
  | other

/-- `TMP_IoApicList` and `NumIoApics` -/
structure IoApicList where
  tmp : Fin 256 → Option IoApic
  numIoApics : ℕ

def ioApicInit (l : IoApicList) (a : IoApic) : IoApicList :=
  if (l.tmp a.ioApicId).isSome then l
  else { tmp := Function.update l.tmp a.ioApicId (some a), numIoApics := l.numIoApics + 1 }

/-- The controllers that `AcpiReadMadt` registers. -/
def acpiReadMadt (records : List MadtRecord) : IoApicList :=
  records.foldl (fun l r => match r with | .ioApic a => ioApicInit l a | _ => l)
    { tmp := fun _ => none, numIoApics := 0 }

/-- `SortedIoApics`. After the loop the code compares the length with `NumIoApics`, and
`length_sortIoApics` says that they are equal. -/
def sortIoApics (l : IoApicList) : List IoApic :=
  (List.finRange 256).foldl
    (fun sorted i => if sorted.length = l.numIoApics then sorted else sorted ++ (l.tmp i).toList) []

def ioApicGetMaxRedirectionEntry (a : IoApic) : ℕ := a.version >>> 16 &&& 0xff

def IoApic.size (a : IoApic) : ℕ := ioApicGetMaxRedirectionEntry a + 1

/-- A write of a register of a controller, `IoApicWrite`. -/
structure RegisterWrite where
  ioApic : IoApic
  register : ℕ
  value : BitVec 32
deriving DecidableEq

/-- `IOAPIC_REDTBL`. The fields that stay zero are left out. -/
structure IoApicRedTbl where
  interruptVector : BitVec 8
  deliveryMode : BitVec 3
  interruptInputPinPolarity : BitVec 1
  triggerMode : BitVec 1
  destinationField : BitVec 8

def IoApicRedTbl.qword (t : IoApicRedTbl) : BitVec 64 :=
  t.interruptVector.setWidth 64 ||| t.deliveryMode.setWidth 64 <<< 8 |||
    t.interruptInputPinPolarity.setWidth 64 <<< 13 ||| t.triggerMode.setWidth 64 <<< 15 |||
    t.destinationField.setWidth 64 <<< 56

/-- The index of a descriptor, `NUM_IRQS_PER_PROCESSOR` is `0xE0`. -/
abbrev IrqSlot := Fin 0xE0

/-- `IRQ_CONTROL_DESCRIPTOR` -/
structure IrqDescriptor where
  present : Bool
  virtualIoApicId : Fin 256
  physicalIrqNumber : Fin 256
  ioApicIrqNumber : Fin 256
  flags : BitVec 32
  process : ℕ
  handler : ℕ
  interruptVector : Fin 256
  lapicId : ℕ
  source : ℕ
deriving DecidableEq

def irqSourceIrq : ℕ := 1
def irqSourceIrqMsi : ℕ := 2

def IrqDescriptor.zero : IrqDescriptor where
  present := false
  virtualIoApicId := 0
  physicalIrqNumber := 0
  ioApicIrqNumber := 0
  flags := 0
  process := 0
  handler := 0
  interruptVector := 0
  lapicId := 0
  source := 0

/-- The number of processors, and the table that the firmware describes the controllers in. -/
structure Machine where
  numProcessors : ℕ
  madt : Option (List MadtRecord)

def Machine.ioApicList (M : Machine) : IoApicList := acpiReadMadt (M.madt.getD [])

/-- `gIRQ_MGR_ProcessorSwitch`, and the `IrqControlTable` of every processor. -/
structure IrqState where
  processorSwitch : ℕ
  table : ℕ → IrqSlot → IrqDescriptor

def IrqState.initial : IrqState := { processorSwitch := 0, table := fun _ _ => .zero }

def IrqState.put (s : IrqState) (x : ℕ) (i : IrqSlot) (d : IrqDescriptor) : IrqState :=
  { s with table := Function.update s.table x (Function.update (s.table x) i d) }

def IrqDescriptor.inUse (d : IrqDescriptor) : Option IrqDescriptor :=
  if d.present then some d else none

def freeDescriptor (table : IrqSlot → IrqDescriptor) : Option IrqSlot :=
  Slots.firstFree fun i => (table i).inUse

/-- The vector of the slot, `0x20 + i`. -/
def slotVector (i : IrqSlot) : Fin 256 := ⟨0x20 + i, by omega⟩

inductive IrqStatus where
  | ok
  | invalidParameter
  | outOfRange
  | irqControlledByAnotherProcess
  | irqAlreadySet
deriving DecidableEq

/-- What the kernel does not survive: an index into `CpuManagementTable` that is not a processor, a
table without a free descriptor, and a redirection entry that the controller does not have. -/
inductive IrqFault where
  | processorIndex (x : ℕ)
  | noDescriptor
  | redirectionEntry
deriving DecidableEq

abbrev IrqResult := Except IrqFault (IrqStatus × IrqState × List RegisterWrite)

/-- The parameters of `KeControlIrq`, and the process that calls it. -/
structure IrqRequest where
  handler : ℕ
  irqNumber : ℕ
  deliveryMode : ℕ
  flags : BitVec 32
  process : ℕ

def irqControlDisableOverrideCheck : BitVec 32 := 1
def irqControlLowActive : BitVec 32 := 2
def irqControlLevelSensitive : BitVec 32 := 4
def irqControlDisableOverrideFlags : BitVec 32 := 8
def irqSourceMessageSignaledInterrupt : BitVec 32 := 0x10

/-- The line that an override redirects `n` to, with the flags of the override. -/
def getRedirectedIrq (madt : Option (List MadtRecord)) (n : ℕ) : ℕ × BitVec 32 :=
  match madt with
  | none => (n, 0)
  | some records =>
    let iso := records.findSome? fun r =>
      match r with
      | .ioApicIso o => if o.irqSource = n then some o else none
      | _ => none
    match iso with
    | some o => (o.globalSysInterrupt, o.flags.setWidth 32)
    | none => (0, 0)

/-- The flags after an override: the low five bits are those of the override. -/
def overrideFlags (flags redirected : BitVec 32) : BitVec 32 :=
  let flags := flags &&& ~~~0x1F
  let flags := if redirected &&& 3 = 3 then flags ||| irqControlLowActive else flags
  if redirected &&& 4 = 4 then flags else flags ||| irqControlLevelSensitive

/-- `IrqNumber` and `Flags` when the overrides are applied. -/
def overrideIrq (M : Machine) (r : IrqRequest) : ℕ × BitVec 32 :=
  if r.flags &&& irqControlDisableOverrideCheck = 0 then
    let (redirected, redirectedFlags) := getRedirectedIrq M.madt r.irqNumber
    if redirected = 0 then (r.irqNumber, r.flags)
    else if r.flags &&& irqControlDisableOverrideFlags =
      0 then (redirected, overrideFlags r.flags redirectedFlags)
    else (redirected, r.flags)
  else (r.irqNumber, r.flags)

/-- The first descriptor in use that has the number `n`. -/
def findIrq (M : Machine) (s : IrqState) (n : ℕ) : Option (ℕ × IrqSlot) :=
  (List.range M.numProcessors).findSome? fun x =>
    let slot := (List.finRange 0xE0).find? fun i =>
      (s.table x i).present ∧ (s.table x i).physicalIrqNumber = n
    slot.map fun i => (x, i)

/-- The controller of the line, from the controller `i` on, and the entry in it. -/
def findRedirectionEntry : List IoApic → ℕ → ℕ → Option (ℕ × IoApic × ℕ)
  | [], _, _ => none
  | a :: as, i, irqIndex =>
    if irqIndex ≤ ioApicGetMaxRedirectionEntry a then some (i, a, irqIndex)
    else findRedirectionEntry as (i + 1) (irqIndex - (ioApicGetMaxRedirectionEntry a + 1))

/-- The bits of `DeliveryMode` in a redirection entry. -/
def deliveryBits (deliveryMode : ℕ) : BitVec 3 :=
  if deliveryMode = 2 then 4 else if deliveryMode = 1 then 2 else if deliveryMode = 3 then 7 else 0

def redirectionTable (vector : Fin 256) (processor deliveryMode : ℕ) (flags : BitVec 32) :
    IoApicRedTbl where
  interruptVector := BitVec.ofNat 8 vector
  deliveryMode := deliveryBits deliveryMode
  interruptInputPinPolarity := if flags &&& irqControlLowActive = 0 then 0 else 1
  triggerMode := if flags &&& irqControlLevelSensitive = 0 then 0 else 1
  destinationField := BitVec.ofNat 8 processor

/-- The parameter `AddressOffset` of `IoApicWrite` is an `unsigned char`. -/
def ioApicWriteRedirectionTable (a : IoApic) (index : ℕ) (t : IoApicRedTbl) :
    Except IrqFault (List RegisterWrite) :=
  if index > ioApicGetMaxRedirectionEntry a then .error .redirectionEntry
  else .ok [⟨a, (0x10 + index <<< 1) % 256, t.qword.setWidth 32⟩,
    ⟨a, (0x10 + index <<< 1 + 1) % 256, (t.qword >>> 32).setWidth 32⟩]

/-- The descriptor that `KeControlIrq` fills. -/
def lineDescriptor (d : IrqDescriptor) (r : IrqRequest) (n : ℕ) (flags : BitVec 32)
    (virtualIoApicId irqIndex : ℕ) (i : IrqSlot) : IrqDescriptor :=
  { d with
    interruptVector := slotVector i
    virtualIoApicId := Fin.ofNat 256 virtualIoApicId
    physicalIrqNumber := Fin.ofNat 256 n
    ioApicIrqNumber := Fin.ofNat 256 irqIndex
    flags := flags
    process := r.process
    handler := r.handler
    source := irqSourceIrq
    present := true }

/-- The end of `KeControlIrq`: a descriptor on the processor of the index, and the redirection entry
`irqIndex` of the controller `virtualIoApicId`. -/
def allocateIrq (M : Machine) (s : IrqState) (r : IrqRequest) (n : ℕ) (flags : BitVec 32)
    (virtualIoApicId : ℕ) (a : IoApic) (irqIndex : ℕ) : IrqResult :=
  let x := s.processorSwitch
  if x < M.numProcessors then
    match freeDescriptor (s.table x) with
    | none => .error .noDescriptor
    | some i =>
      let d := lineDescriptor (s.table x i) r n flags virtualIoApicId irqIndex i
      let entry := redirectionTable d.interruptVector x r.deliveryMode flags
      match ioApicWriteRedirectionTable a d.ioApicIrqNumber entry with
      | .error e => .error e
      | .ok writes => .ok (.ok, { s.put x i d with processorSwitch := x + 1 }, writes)
  else .error (.processorIndex x)

/-- `if(gIRQ_MGR_ProcessorSwitch == Pmgrt.NumProcessors) gIRQ_MGR_ProcessorSwitch = 0;` -/
def wrapSwitch (M : Machine) (s : IrqState) : IrqState :=
  if s.processorSwitch = M.numProcessors then { s with processorSwitch := 0 } else s

/-- The check that the process does not control the line already, or another process does. -/
def checkControl (s : IrqState) (r : IrqRequest) (flags : BitVec 32) (x : ℕ) (i : IrqSlot) :
    IrqStatus × IrqState :=
  if (s.table x i).process ≠ r.process then (.irqControlledByAnotherProcess, s)
  else (.irqAlreadySet, s.put x i { s.table x i with flags := flags })

def keControlIrq (M : Machine) (s : IrqState) (r : IrqRequest) : IrqResult :=
  if r.handler = 0 ∨ r.deliveryMode > 3 then .ok (.invalidParameter, s, [])
  else
    let s := wrapSwitch M s
    let (n, flags) := overrideIrq M r
    if n > 24 * M.ioApicList.numIoApics then .ok (.outOfRange, s, [])
    else
      match findIrq M s n with
      | some (x, i) =>
        let (status, s) := checkControl s r flags x i
        .ok (status, s, [])
      | none =>
        match findRedirectionEntry (sortIoApics M.ioApicList) 0 n with
        | none => .ok (.outOfRange, s, [])
        | some (k, a, j) => allocateIrq M s r n flags k a j

/-- The parameters of `RegisterIrq`, and the process that calls it. -/
structure MessageRequest where
  irqSource : ℕ
  handler : ℕ
  flags : BitVec 32
  ioApicId : ℕ
  process : ℕ

/-- The first free descriptor from the processor `first` on. -/
def findFree (M : Machine) (s : IrqState) (first : ℕ) : Option (ℕ × IrqSlot) :=
  (List.range' first (M.numProcessors - first)).findSome? fun x => (freeDescriptor (s.table x)).map
    fun c => (x, c)

/-- The descriptor that `RegisterIrq` fills. The member `ProcessorId` of a processor is its index,
and `Source` is not written. -/
def messageDescriptor (d : IrqDescriptor) (q : MessageRequest) (x : ℕ) (c : IrqSlot) :
    IrqDescriptor :=
  { d with
    flags := q.flags
    interruptVector := slotVector c
    physicalIrqNumber := Fin.ofNat 256 q.irqSource
    process := q.process
    virtualIoApicId := Fin.ofNat 256 q.ioApicId
    lapicId := x
    handler := q.handler
    present := true }

/-- Takes the descriptor: the index of the processor becomes a number of slots. -/
def takeDescriptor (s : IrqState) (q : MessageRequest) (x : ℕ) (c : IrqSlot) : IrqState :=
  { s.put x c (messageDescriptor (s.table x c) q x c) with processorSwitch := c + 1 }

/-- `RegisterIrq`. The search starts at the processor of the index, and once more at processor 0. -/
def registerIrq (M : Machine) (s : IrqState) (q : MessageRequest) :
    IrqState × Option (ℕ × IrqSlot) :=
  match findFree M s s.processorSwitch with
  | some (x, c) => (takeDescriptor s q x c, some (x, c))
  | none =>
    match findFree M s 0 with
    | some (x, c) => (takeDescriptor s q x c, some (x, c))
    | none => ({ s with processorSwitch := 0 }, none)

end DevOs.Interrupts
