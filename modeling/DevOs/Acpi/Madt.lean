import DevOs.Interrupts.Model
import DevOs.Lib.Records

/-!
# The multiple APIC description table

`AcpiReadMadt` and `GetRedirectedIrq` go over the bytes of the table. The interrupt lines are
modelled over the records that these bytes stand for, and this module connects the two: whatever
records are stored, the functions find them, and they end if and only if no record of length zero
comes before the end of the table.
-/

namespace DevOs.Acpi

open Bytes Records Interrupts

def sizeofAcpiMadt : ℕ := 44

/-- `Madt->Sdt.Length - sizeof(ACPI_MADT)`, in 32 bits. -/
def dataBufferLength (b : Buffer) (madt : ℕ) : ℕ :=
  (getLE b (madt + 4) 4 + (2 ^ 32 - sizeofAcpiMadt)) % 2 ^ 32

/-- `Offset` and `Record` of the loops. -/
structure Cursor where
  offset : ℕ
  record : ℕ
deriving DecidableEq

def entryType (b : Buffer) (record : ℕ) : ℕ := (b record).toNat

def recordLength (b : Buffer) (record : ℕ) : ℕ := (b (record + 1)).toNat

def firstRecord (madt : ℕ) : Cursor := { offset := 0, record := madt + sizeofAcpiMadt }

def moreRecords (b : Buffer) (madt : ℕ) (c : Cursor) : Bool := c.offset < dataBufferLength b madt

/-- `Offset` has 32 bits. -/
def nextRecord (b : Buffer) (c : Cursor) : Cursor where
  offset := (c.offset + recordLength b c.record) % 2 ^ 32
  record := c.record + recordLength b c.record

/-- `AcpiNumProcessors`, `LocalApicPhysicalAddress` and the list of I/O APICs. -/
@[ext]
structure MadtState where
  acpiNumProcessors : BitVec 32
  localApicPhysicalAddress : ℕ
  ioApics : IoApicList

/-- `ACPI_IOAPIC` at the address, `version` has the register `IOAPIC_VER` of the controller at an
address. -/
def ioApicAt (version : ℕ → ℕ) (b : Buffer) (record : ℕ) : IoApic where
  ioApicId := (b (record + 2)).toFin
  version := version (getLE b (record + 4) 4)

/-- `ACPI_IOAPIC_ISO` at the address. -/
def irqOverrideAt (b : Buffer) (record : ℕ) : IrqOverride where
  irqSource := (b (record + 3)).toNat
  globalSysInterrupt := getLE b (record + 4) 4
  flags := BitVec.ofNat 16 (getLE b (record + 8) 2)

/-- The `switch` of `AcpiReadMadt`. The records that it only prints are left alone. -/
def readRecord (version : ℕ → ℕ) (b : Buffer) (record : ℕ) (s : MadtState) : MadtState :=
  match entryType b record with
  | 0 =>
    if getLE b (record + 4) 4 &&& 3 = 0 then s
    else { s with acpiNumProcessors := s.acpiNumProcessors + 1 }
  | 1 => { s with ioApics := ioApicInit s.ioApics (ioApicAt version b record) }
  | 5 => { s with localApicPhysicalAddress := getLE b (record + 4) 8 }
  | _ => s

def ended {σ : Type*} : Empty ⊕ σ → σ
  | .inr s => s

/-- The loop of `AcpiReadMadt`. What follows it, `SortIoApics`, is `sortIoApics`. -/
def acpiReadMadt (version : ℕ → ℕ) (b : Buffer) (fuel madt : ℕ) (s : MadtState) :
    Option MadtState :=
  (walk (moreRecords b madt) (nextRecord b) (fun c s => .inr (readRecord version b c.record s)) fuel
    (firstRecord madt)
    { s with localApicPhysicalAddress := getLE b (madt + 36) 4 }).map ended

/-- The `switch` of `GetRedirectedIrq`: the line and the flags of an override of `n`. -/
def redirectRecord (b : Buffer) (n : ℕ) (c : Cursor) (_ : Unit) : (ℕ × BitVec 32) ⊕ Unit :=
  if entryType b c.record = 2 ∧ (irqOverrideAt b c.record).irqSource = n then
    .inl ((irqOverrideAt b c.record).globalSysInterrupt,
      (irqOverrideAt b c.record).flags.setWidth 32)
  else .inr ()

/-- `GetRedirectedIrq`. Without an override `*IrqFlags` keeps its value. -/
def getRedirectedIrq (b : Buffer) (fuel : ℕ) (madt : Option ℕ) (n : ℕ) (irqFlags : BitVec 32) :
    Option (ℕ × BitVec 32) :=
  match madt with
  | none => some (n, irqFlags)
  | some madt =>
    (walk (moreRecords b madt) (nextRecord b) (redirectRecord b n) fuel (firstRecord madt) ()).map
      (Sum.elim id fun _ => (0, irqFlags))

/-- A record. The types that no function looks into have any bytes behind the header. -/
inductive Entry where
  | processorLapic (processorId apicId : Byte) (flags : BitVec 32)
  | ioApic (ioApicId reserved : Byte) (ioApicAddress globalSysInterruptBase : BitVec 32)
  | ioApicIso (busSource irqSource : Byte) (globalSysInterrupt : BitVec 32) (flags : BitVec 16)
  | localApicAo (reserved : BitVec 16) (physLocalApicAddress : BitVec 64)
  | other (entryType : Byte) (h : entryType ∉ [0, 1, 2, 5]) (bytes : List Byte)
      (hb : bytes.length ≤ 253)

namespace Entry

def entryType : Entry → Byte
  | .processorLapic .. => 0
  | .ioApic .. => 1
  | .ioApicIso .. => 2
  | .localApicAo .. => 5
  | .other t .. => t

def fields : Entry → List Byte
  | .processorLapic p a f => [p, a] ++ bytesLE 4 f.toNat
  | .ioApic i r a g => [i, r] ++ bytesLE 4 a.toNat ++ bytesLE 4 g.toNat
  | .ioApicIso s q g f => [s, q] ++ bytesLE 4 g.toNat ++ bytesLE 2 f.toNat
  | .localApicAo r a => bytesLE 2 r.toNat ++ bytesLE 8 a.toNat
  | .other _ _ bytes _ => bytes

def size (e : Entry) : ℕ := e.fields.length + 2

def encode (e : Entry) : List Byte := e.entryType :: BitVec.ofNat 8 e.size :: e.fields

theorem length_encode (e : Entry) : e.encode.length = e.size := rfl

theorem size_lt (e : Entry) : e.size < 256 := by
  cases e with
  | other t h bytes hb =>
    have hsize : (Entry.other t h bytes hb).size = bytes.length + 2 := rfl
    omega
  | _ => simp [size, fields]

def bootable : Entry → Bool
  | .processorLapic _ _ f => f.toNat &&& 3 ≠ 0
  | _ => false

def madtRecord (version : ℕ → ℕ) : Entry → MadtRecord
  | .ioApic i _ a _ => .ioApic ⟨i.toFin, version a.toNat⟩
  | .ioApicIso _ q g f => .ioApicIso ⟨q.toNat, g.toNat, f⟩
  | _ => .other

def addressOverride : Entry → Option ℕ
  | .localApicAo _ a => some a.toNat
  | _ => none

end Entry

def total (rs : List Entry) : ℕ := (rs.map Entry.size).sum

@[simp] theorem total_nil : total [] = 0 := rfl

@[simp] theorem total_cons (e : Entry) (rs : List Entry) : total (e :: rs) = e.size + total rs :=
  rfl

/-- `ACPI_MADT` and its records. The length fits its field. -/
structure Table where
  signature : BitVec 32
  sdt : BitVec 224
  localApicAddress : BitVec 32
  flags : BitVec 32
  records : List Entry
  fits : sizeofAcpiMadt + total records < 2 ^ 32

def Table.encode (t : Table) : List Byte :=
  bytesLE 4 t.signature.toNat ++
    (bytesLE 4 (sizeofAcpiMadt + total t.records) ++ (bytesLE 28 t.sdt.toNat ++
    (bytesLE 4 t.localApicAddress.toNat ++
    (bytesLE 4 t.flags.toNat ++ t.records.flatMap Entry.encode))))

variable {b : Buffer} {madt p o n fuel : ℕ} {version : ℕ → ℕ} {e : Entry} {rs : List Entry}
    {t : Table}

theorem getLE_of_at {k v : ℕ} (h : At b p (bytesLE k v)) (hv : v < 256 ^ k) : getLE b p k = v := by
  rw [h.getLE, Nat.mod_eq_of_lt hv]

theorem table_length (h : At b madt t.encode) : dataBufferLength b madt = total t.records := by
  unfold Table.encode at h
  obtain ⟨-, hrest⟩ := at_append.mp h
  obtain ⟨hlen, -⟩ := at_append.mp hrest
  rw [length_bytesLE] at hlen
  have hfits := t.fits
  unfold dataBufferLength
  rw [getLE_of_at hlen hfits]
  unfold sizeofAcpiMadt at *
  omega

theorem table_localApicAddress (h : At b madt t.encode) :
    getLE b (madt + 36) 4 = t.localApicAddress.toNat := by
  unfold Table.encode at h
  simp only [at_append, length_bytesLE] at h
  exact getLE_of_at h.2.2.2.1 t.localApicAddress.isLt

theorem table_records (h : At b madt t.encode) :
    At b (madt + sizeofAcpiMadt) (t.records.flatMap Entry.encode) := by
  unfold Table.encode at h
  simp only [at_append, length_bytesLE] at h
  exact h.2.2.2.2.2

theorem entryType_encode (h : At b p e.encode) : entryType b p = e.entryType.toNat := by
  unfold entryType
  rw [h.1]

theorem recordLength_encode (h : At b p e.encode) : recordLength b p = e.size := by
  unfold recordLength
  rw [h.2.1, BitVec.toNat_ofNat, Nat.mod_eq_of_lt e.size_lt]

/-- What a record does to the state of `AcpiReadMadt`. -/
def Entry.read (version : ℕ → ℕ) (s : MadtState) (e : Entry) : MadtState where
  acpiNumProcessors := if e.bootable then s.acpiNumProcessors + 1 else s.acpiNumProcessors
  localApicPhysicalAddress := e.addressOverride.getD s.localApicPhysicalAddress
  ioApics :=
    match e.madtRecord version with
    | .ioApic a => ioApicInit s.ioApics a
    | _ => s.ioApics

theorem not_special {x : Byte} (h : x ∉ [0, 1, 2, 5]) :
    x.toNat ≠ 0 ∧ x.toNat ≠ 1 ∧ x.toNat ≠ 2 ∧ x.toNat ≠ 5 := by
  simp only [List.mem_cons, List.not_mem_nil, or_false, not_or] at h
  obtain ⟨h0, h1, h2, h5⟩ := h
  exact ⟨fun hx => h0 (BitVec.eq_of_toNat_eq hx), fun hx => h1 (BitVec.eq_of_toNat_eq hx),
    fun hx => h2 (BitVec.eq_of_toNat_eq hx), fun hx => h5 (BitVec.eq_of_toNat_eq hx)⟩

theorem readRecord_encode (h : At b p e.encode) (s : MadtState) :
    readRecord version b p s = e.read version s := by
  have htype := entryType_encode h
  cases e with
  | processorLapic i a f =>
    have hflags : getLE b (p + 4) 4 = f.toNat := getLE_of_at h.2.2.2.2 f.isLt
    unfold readRecord
    rw [htype, hflags]
    by_cases hf : f.toNat &&& 3 = 0 <;>
      simp [Entry.entryType, Entry.read, Entry.bootable, Entry.addressOverride,
      Entry.madtRecord, hf]
  | ioApic i r a g =>
    have hfields : At b (p + 2) (i :: r :: (bytesLE 4 a.toNat ++ bytesLE 4 g.toNat)) := h.2.2
    have haddress : getLE b (p + 4) 4 = a.toNat := getLE_of_at (at_append.mp hfields.2.2).1 a.isLt
    have hid : b (p + 2) = i := hfields.1
    unfold readRecord ioApicAt
    rw [htype, haddress, hid]
    rfl
  | ioApicIso bs q g f =>
    unfold readRecord
    rw [htype]
    rfl
  | localApicAo r a =>
    have hfields := at_append.mp h.2.2
    rw [length_bytesLE] at hfields
    have haddress : getLE b (p + 4) 8 = a.toNat := getLE_of_at hfields.2 a.isLt
    unfold readRecord
    rw [htype, haddress]
    rfl
  | other x hx bytes hb =>
    obtain ⟨h0, h1, -, h5⟩ := not_special hx
    unfold readRecord
    rw [htype]
    change (match x.toNat with | 0 => _ | 1 => _ | 5 => _ | _ => s) = s
    split
    · contradiction
    · contradiction
    · contradiction
    · rfl

/-- The line and the flags, when the record is an override of `n`. -/
def Entry.redirect (n : ℕ) (e : Entry) : Option (ℕ × BitVec 32) :=
  match e with
  | .ioApicIso _ q g f => if q.toNat = n then some (g.toNat, f.setWidth 32) else none
  | _ => none

theorem redirectRecord_of_ne {c : Cursor} (h : Acpi.entryType b c.record ≠ 2) :
    redirectRecord b n c () = .inr () :=
  if_neg fun hc => h hc.1

theorem redirectRecord_encode {c : Cursor} (h : At b c.record e.encode) :
    redirectRecord b n c () = (e.redirect n).elim (.inr ()) .inl := by
  have htype := entryType_encode h
  cases e with
  | ioApicIso bs q g f =>
    have hfields : At b (c.record + 2) (bs :: q :: (bytesLE 4 g.toNat ++ bytesLE 2 f.toNat)) :=
      h.2.2
    have hrest := at_append.mp hfields.2.2
    rw [length_bytesLE] at hrest
    have hline : getLE b (c.record + 4) 4 = g.toNat := getLE_of_at hrest.1 g.isLt
    have hflags : getLE b (c.record + 8) 2 = f.toNat := getLE_of_at hrest.2 f.isLt
    have hsource : b (c.record + 3) = q := hfields.2.1
    have hredirect : (Entry.ioApicIso bs q g f).redirect n =
      if q.toNat = n then some (g.toNat, f.setWidth 32) else none := rfl
    unfold redirectRecord irqOverrideAt
    rw [htype, hline, hflags, hsource, BitVec.ofNat_toNat, BitVec.setWidth_eq, hredirect]
    by_cases hq : q.toNat = n
    · rw [if_pos ⟨rfl, hq⟩, if_pos hq]
      rfl
    · rw [if_neg (fun hc => hq hc.2), if_neg hq]
      rfl
  | processorLapic i a f => exact redirectRecord_of_ne (htype.trans_ne (show 0 ≠ 2 by decide))
  | ioApic i r a g => exact redirectRecord_of_ne (htype.trans_ne (show 1 ≠ 2 by decide))
  | localApicAo r a => exact redirectRecord_of_ne (htype.trans_ne (show 5 ≠ 2 by decide))
  | other x hx bytes hb => exact redirectRecord_of_ne (htype.trans_ne (not_special hx).2.2.1)

def cursors (o p : ℕ) : List Entry → List Cursor
  | [] => []
  | e :: rs => ⟨o, p⟩ :: cursors (o + e.size) (p + e.size) rs

theorem length_cursors (o p : ℕ) (rs : List Entry) : (cursors o p rs).length = rs.length := by
  induction rs generalizing o p with
  | nil => rfl
  | cons e rs ih => rw [cursors, List.length_cons, List.length_cons, ih]

theorem visits_cursors (h : At b p (rs.flatMap Entry.encode))
    (hn : dataBufferLength b madt = o + total rs) (hlt : o + total rs < 2 ^ 32) :
    Visits (moreRecords b madt) (nextRecord b) ⟨o, p⟩ (cursors o p rs) := by
  induction rs generalizing o p with
  | nil =>
    apply Visits.stop
    rw [moreRecords, hn, total_nil, Nat.add_zero]
    exact decide_eq_false (Nat.lt_irrefl o)
  | cons e rs ih =>
    rw [List.flatMap_cons, at_append, e.length_encode] at h
    rw [total_cons, ← Nat.add_assoc] at hn hlt
    have hpos : 0 < e.size := Nat.succ_pos _
    have hstep : nextRecord b ⟨o, p⟩ = ⟨o + e.size, p + e.size⟩ := by
      have hsum : (o + e.size) % 2 ^ 32 = o + e.size := Nat.mod_eq_of_lt (by omega)
      unfold nextRecord
      rw [recordLength_encode h.1, hsum]
    have hmore : o < dataBufferLength b madt := by omega
    apply Visits.record
    · exact decide_eq_true hmore
    · rw [hstep]
      exact ih h.2 hn hlt

theorem visit_read (h : At b p (rs.flatMap Entry.encode)) (s : MadtState) :
    visit (ρ := Empty) (fun c s => .inr (readRecord version b c.record s)) (cursors o p rs) s =
      .inr (rs.foldl (Entry.read version) s) := by
  induction rs generalizing o p s with
  | nil => rfl
  | cons e rs ih =>
    rw [List.flatMap_cons, at_append, e.length_encode] at h
    rw [cursors, visit, List.foldl_cons, readRecord_encode h.1]
    exact ih h.2 _

theorem visit_redirect (h : At b p (rs.flatMap Entry.encode)) :
    visit (redirectRecord b n) (cursors o p rs) () = (rs.findSome? (Entry.redirect n)).elim
      (.inr ()) .inl := by
  induction rs generalizing o p with
  | nil => rfl
  | cons e rs ih =>
    rw [List.flatMap_cons, at_append, e.length_encode] at h
    have hone : redirectRecord b n ⟨o, p⟩ () = (e.redirect n).elim (.inr ()) .inl :=
      redirectRecord_encode h.1
    rw [cursors, visit, hone, List.findSome?_cons]
    cases e.redirect n with
    | some r => rfl
    | none => exact ih h.2

theorem table_visits (h : At b madt t.encode) :
    Visits (moreRecords b madt) (nextRecord b) (firstRecord madt)
      (cursors 0 (madt + sizeofAcpiMadt) t.records) := by
  have hfits := t.fits
  apply visits_cursors (table_records h)
  · rw [table_length h, Nat.zero_add]
  · omega

def noIoApics : IoApicList := { tmp := fun _ => none, numIoApics := 0 }

/-- One step of `Interrupts.acpiReadMadt`. -/
def registerRecord (l : IoApicList) (r : MadtRecord) : IoApicList :=
  match r with
  | .ioApic a => ioApicInit l a
  | _ => l

theorem acpiReadMadt_eq_foldl (rs : List MadtRecord) :
    Interrupts.acpiReadMadt rs = rs.foldl registerRecord noIoApics :=
  rfl

theorem read_ioApics (version : ℕ → ℕ) (rs : List Entry) (s : MadtState) :
    (rs.foldl (Entry.read version) s).ioApics =
      (rs.map (Entry.madtRecord version)).foldl registerRecord s.ioApics := by
  induction rs generalizing s with
  | nil => rfl
  | cons e rs ih =>
    rw [List.foldl_cons, List.map_cons, List.foldl_cons, ih]
    rfl

theorem read_acpiNumProcessors (version : ℕ → ℕ) (rs : List Entry) (s : MadtState) :
    (rs.foldl (Entry.read version) s).acpiNumProcessors =
      s.acpiNumProcessors + BitVec.ofNat 32 (rs.countP Entry.bootable) := by
  induction rs generalizing s with
  | nil => rw [List.foldl_nil, List.countP_nil, BitVec.add_zero]
  | cons e rs ih =>
    rw [List.foldl_cons, ih, Entry.read]
    by_cases he : e.bootable = true
    · rw [if_pos he, List.countP_cons_of_pos he, BitVec.ofNat_add,
        BitVec.add_comm (BitVec.ofNat 32 _), BitVec.add_assoc]
      rfl
    · rw [if_neg he, List.countP_cons_of_neg he]

theorem read_localApicPhysicalAddress (version : ℕ → ℕ) (rs : List Entry) (s : MadtState) :
    (rs.foldl (Entry.read version) s).localApicPhysicalAddress =
      (rs.filterMap Entry.addressOverride).getLast?.getD s.localApicPhysicalAddress := by
  induction rs generalizing s with
  | nil => rfl
  | cons e rs ih =>
    rw [List.foldl_cons, ih, Entry.read]
    cases he : e.addressOverride with
    | none => rw [List.filterMap_cons_none he, Option.getD_none]
    | some a =>
      rw [List.filterMap_cons_some he, Option.getD_some]
      cases hl : rs.filterMap Entry.addressOverride with
      | nil => rfl
      | cons x xs =>
          rw [List.getLast?_cons_cons, List.getLast?_eq_some_getLast (List.cons_ne_nil x xs),
          Option.getD_some, Option.getD_some]

theorem getRedirectedIrq_cons_iso (o : IrqOverride) (records : List MadtRecord) (n : ℕ) :
    Interrupts.getRedirectedIrq (some (.ioApicIso o :: records)) n =
      if o.irqSource = n then (o.globalSysInterrupt, o.flags.setWidth 32)
      else Interrupts.getRedirectedIrq (some records) n := by
  unfold Interrupts.getRedirectedIrq
  by_cases hn : o.irqSource = n <;> simp [hn]

theorem redirect_eq (rs : List Entry) (n : ℕ) :
    (rs.findSome? (Entry.redirect n)).getD (0, 0) =
      Interrupts.getRedirectedIrq (some (rs.map (Entry.madtRecord version))) n := by
  induction rs with
  | nil => rfl
  | cons e rs ih =>
    rw [List.findSome?_cons, List.map_cons]
    cases e with
    | ioApicIso bs q g f =>
      have hredirect : (Entry.ioApicIso bs q g f).redirect n =
        if q.toNat = n then some (g.toNat, f.setWidth 32) else none := rfl
      rw [Entry.madtRecord, getRedirectedIrq_cons_iso, hredirect, ← ih]
      by_cases hq : q.toNat = n
      · rw [if_pos hq, if_pos hq]
        rfl
      · rw [if_neg hq, if_neg hq]
    | _ => exact ih

/-- Whatever records a table stores, `AcpiReadMadt` counts its processors, takes the last override
of the address and registers the controllers of `Machine.ioApicList`, and `GetRedirectedIrq` finds
the override of every line. -/
theorem madt_found (version : ℕ → ℕ) (t : Table) (h : At b madt t.encode) (s : MadtState)
    (hs : s.ioApics = noIoApics) (hf : t.records.length < fuel) (n : ℕ) :
    acpiReadMadt version b fuel madt s = some
      { acpiNumProcessors := s.acpiNumProcessors + BitVec.ofNat 32 (t.records.countP Entry.bootable)
        localApicPhysicalAddress :=
          (t.records.filterMap Entry.addressOverride).getLast?.getD t.localApicAddress.toNat
        ioApics := Interrupts.acpiReadMadt (t.records.map (Entry.madtRecord version)) } ∧
    getRedirectedIrq b fuel (some madt) n 0 =
      some (Interrupts.getRedirectedIrq (some (t.records.map (Entry.madtRecord version))) n) := by
  have hv := table_visits h
  have hlen : (cursors 0 (madt + sizeofAcpiMadt) t.records).length < fuel := by
    rw [length_cursors]
    exact hf
  constructor
  · unfold acpiReadMadt
    rw [hv.walk hlen, visit_read (table_records h), table_localApicAddress h,
      acpiReadMadt_eq_foldl, ← hs]
    have hapics := read_ioApics version t.records
      { s with localApicPhysicalAddress := t.localApicAddress.toNat }
    have hcount := read_acpiNumProcessors version t.records
      { s with localApicPhysicalAddress := t.localApicAddress.toNat }
    have haddress := read_localApicPhysicalAddress version t.records
      { s with localApicPhysicalAddress := t.localApicAddress.toNat }
    rw [Option.map_some, ended]
    exact congrArg some (MadtState.ext hcount haddress hapics)
  · unfold getRedirectedIrq
    dsimp only
    rw [hv.walk hlen, visit_redirect (table_records h), Option.map_some, ← redirect_eq t.records n]
    cases t.records.findSome? (Entry.redirect n) with
    | none => rfl
    | some r => rfl

def timerTable : Table where
  signature := 0x43495041
  sdt := 0
  localApicAddress := 0xFEE00000
  flags := 1
  records := [.processorLapic 0 0 1, .ioApic 1 0 0xFEC00000 0, .ioApicIso 0 0 2 0,
    .localApicAo 0 0xFEE01000]
  fits := by decide

theorem madt_found_timer :
    (acpiReadMadt (fun _ => 0x170020) (store 64 timerTable.encode) 5 64 ⟨0, 0, noIoApics⟩).map
      (fun s => (s.acpiNumProcessors, s.localApicPhysicalAddress, s.ioApics.tmp 1)) =
        some (1, 0xFEE01000, some ⟨1, 0x170020⟩) ∧
    getRedirectedIrq (store 64 timerTable.encode) 5 (some 64) 0 0 = some (2, 0) := by
  obtain ⟨hread, hirq⟩ :=
    madt_found (fun _ => 0x170020) timerTable (at_store 64 timerTable.encode) ⟨0, 0, noIoApics⟩ rfl
    (show 4 < 5 by decide) 0
  constructor
  · rw [hread]
    rfl
  · rw [hirq]
    rfl

def NoEmptyRecord (b : Buffer) (madt : ℕ) : Prop :=
  ∀ k, (∀ j ≤ k, moreRecords b madt ((nextRecord b)^[j] (firstRecord madt)) = true) →
    recordLength b ((nextRecord b)^[k] (firstRecord madt)).record ≠ 0

theorem recordLength_lt (b : Buffer) (record : ℕ) : recordLength b record < 256 :=
  (b (record + 1)).isLt

theorem nextRecord_fixed {c : Cursor} (hc : c.offset < 2 ^ 32) (h : recordLength b c.record = 0) :
    nextRecord b c = c := by
  unfold nextRecord
  rw [h, Nat.add_zero, Nat.add_zero, Nat.mod_eq_of_lt hc]

theorem dataBufferLength_lt (b : Buffer) (madt : ℕ) : dataBufferLength b madt < 2 ^ 32 :=
  Nat.mod_lt _ (Nat.two_pow_pos 32)

theorem le_offset (hn : dataBufferLength b madt ≤ 2 ^ 32 - 256) (h : NoEmptyRecord b madt) (k : ℕ)
    (hk : ∀ j < k, moreRecords b madt ((nextRecord b)^[j] (firstRecord madt)) = true) :
    k ≤ ((nextRecord b)^[k] (firstRecord madt)).offset := by
  induction k with
  | zero => exact Nat.zero_le _
  | succ k ih =>
    have hle := ih fun j hj => hk j (Nat.lt_succ_of_lt hj)
    have hlen := h k fun j hj => hk j (Nat.lt_succ_of_le hj)
    have hmore := of_decide_eq_true (hk k (Nat.lt_succ_self k))
    rw [Function.iterate_succ_apply']
    generalize (nextRecord b)^[k] (firstRecord madt) = c at hle hlen hmore ⊢
    have hlt := recordLength_lt b c.record
    have hsum : (c.offset + recordLength b c.record) % 2 ^ 32 =
        c.offset + recordLength b c.record :=
      Nat.mod_eq_of_lt (by omega)
    have hoffset : (nextRecord b c).offset = c.offset + recordLength b c.record := hsum
    omega

theorem visits_iff_noEmptyRecord (hn : dataBufferLength b madt ≤ 2 ^ 32 - 256) :
    (∃ cs, Visits (moreRecords b madt) (nextRecord b) (firstRecord madt) cs) ↔
    NoEmptyRecord b madt := by
  constructor
  · rintro ⟨cs, hv⟩ k hk hzero
    obtain ⟨n, hlast⟩ := exists_visits_iff.mp ⟨cs, hv⟩
    have hmore := of_decide_eq_true (hk k (Nat.le_refl k))
    have hfixed := nextRecord_fixed (Nat.lt_trans hmore (dataBufferLength_lt b madt)) hzero
    rcases Nat.le_total n k with hle | hle
    · rw [hk n hle] at hlast
      exact Bool.noConfusion hlast
    · obtain ⟨d, rfl⟩ := Nat.exists_eq_add_of_le hle
      rw [Nat.add_comm k d, Function.iterate_add_apply, Function.iterate_fixed hfixed,
        hk k (Nat.le_refl k)] at hlast
      exact Bool.noConfusion hlast
  · intro h
    rw [exists_visits_iff]
    by_contra hall
    push Not at hall
    have hmore : ∀ j, moreRecords b madt ((nextRecord b)^[j] (firstRecord madt)) = true := fun j =>
      Bool.eq_true_of_not_eq_false (hall j)
    have hle := le_offset hn h (dataBufferLength b madt) fun j _ => hmore j
    have hlt := of_decide_eq_true (hmore (dataBufferLength b madt))
    omega

/-- `AcpiReadMadt` ends if and only if no record of length zero comes before the end of the table,
and when it has ended, `GetRedirectedIrq` ends for every line. -/
theorem acpiReadMadt_ends_iff (version : ℕ → ℕ) (b : Buffer) (madt : ℕ) (s : MadtState)
    (hn : dataBufferLength b madt ≤ 2 ^ 32 - 256) :
    ((∃ fuel, acpiReadMadt version b fuel madt s ≠ none) ↔ NoEmptyRecord b madt) ∧
    ∀ fuel n flags, acpiReadMadt version b fuel madt s ≠ none →
      getRedirectedIrq b fuel (some madt) n flags ≠ none := by
  have hvisits : ∀ {fuel}, acpiReadMadt version b fuel madt s ≠ none →
      ∃ cs, Visits (moreRecords b madt) (nextRecord b) (firstRecord madt) cs ∧
      cs.length < fuel := by
    intro fuel h
    unfold acpiReadMadt at h
    exact Visits.of_walk (fun c s => ⟨_, rfl⟩) fun hnone => h (by rw [hnone]; rfl)
  refine ⟨⟨?_, ?_⟩, ?_⟩
  · rintro ⟨fuel, h⟩
    obtain ⟨cs, hv, -⟩ := hvisits h
    exact (visits_iff_noEmptyRecord hn).mp ⟨cs, hv⟩
  · intro h
    obtain ⟨cs, hv⟩ := (visits_iff_noEmptyRecord hn).mpr h
    refine ⟨cs.length + 1, ?_⟩
    unfold acpiReadMadt
    rw [hv.walk (Nat.lt_succ_self _)]
    exact Option.some_ne_none _
  · intro fuel n flags h
    obtain ⟨cs, hv, hlen⟩ := hvisits h
    unfold getRedirectedIrq
    dsimp only
    rw [hv.walk hlen]
    exact Option.some_ne_none _

theorem acpiReadMadt_hangs :
    ¬∃ fuel, acpiReadMadt (fun _ => 0) (store 64 [0, 0, 0, 0, 46]) fuel 64 ⟨0, 0, noIoApics⟩ ≠
      none := by
  intro hends
  have hno :=
    (acpiReadMadt_ends_iff (fun _ => 0) (store 64 [0, 0, 0, 0, 46]) 64 ⟨0, 0, noIoApics⟩ (by
      decide)).1.mp hends
  refine hno 0 (fun j hj => ?_) (by decide)
  rw [Nat.le_zero.mp hj]
  decide

end DevOs.Acpi
