import DevOs.Lib.Records

/-!
# System management structures

The table has structures one behind the other. A structure is a header, a formatted area and
strings, which end with a double zero. The functions of the kernel look for a structure by its
number or its type and for a string by its number. They are modelled on the bytes, and the table
that is stored says what they find.
-/

namespace DevOs.Smbios

open Bytes Records

def smbiosBiosInformation : ℕ := 0
def smbiosSystemInformation : ℕ := 1
def smbiosBaseBoardInformation : ℕ := 2
def smbiosEndofTable : ℕ := 0x7F

def headerType (b : Buffer) (header : ℕ) : ℕ := (b header).toNat

/-- The address of the strings, `(char*)Header + Header->Length`. -/
def headerStrings (b : Buffer) (header : ℕ) : ℕ := header + (b (header + 1)).toNat

/-- The bytes from `strings` up to a double zero, with it. -/
def stringsLength (b : Buffer) : ℕ → ℕ → Option ℕ
  | 0, _ => none
  | fuel + 1, strings =>
    if b strings = 0 ∧ b (strings + 1) = 0 then some 2
      else (stringsLength b fuel (strings + 1)).map (· + 1)

/-- `SmbiosGetStructureLength`, the length has 32 bits. -/
def smbiosGetStructureLength (b : Buffer) (fuel header : ℕ) : Option ℕ :=
  (stringsLength b fuel (headerStrings b header)).map fun n => ((b (header + 1)).toNat + n) % 2 ^ 32

/-- `while (*string) string++;` -/
def skipString (b : Buffer) : ℕ → ℕ → Option ℕ
  | 0, _ => none
  | fuel + 1, string => if b string = 0 then some string else skipString b fuel (string + 1)

/-- The loop of `SmbiosGetString`. Its counter is a signed `char`. -/
def stringLoop (b : Buffer) (stringOffset : ℕ) : ℕ → BitVec 8 → ℕ → Option ℕ
  | 0, _, _ => none
  | fuel + 1, i, string =>
    if i.toInt < stringOffset then
      (skipString b fuel string).bind fun last =>
        if b (last + 1) = 0 then some (last + 1)
          else stringLoop b stringOffset fuel (i + 1) (last + 1)
    else some string

/-- `SmbiosGetString`, the inner option is the pointer that may be `NULL`. -/
def smbiosGetString (b : Buffer) (fuel header : ℕ) (stringOffset : Byte) : Option (Option ℕ) :=
  if stringOffset = 0 then some none
  else (stringLoop b (stringOffset - 1).toNat fuel 0 (headerStrings b header)).map some

/-- `StructureTableAddress` and `NumSmbiosStructures` of `SmbiosTable`. -/
structure EntryPoint where
  structureTableAddress : ℕ
  numSmbiosStructures : BitVec 16

/-- The loop of `SmbiosGetStructure`, with `n` numbers left. -/
def structureLoop (b : Buffer) (fuel : ℕ) : ℕ → ℕ → ℕ → Option ℕ
  | 0, header, _ => some header
  | n + 1, _, offset =>
    if headerType b offset = smbiosEndofTable then some offset
    else (smbiosGetStructureLength b fuel offset).bind fun length => structureLoop b fuel n offset
      (offset + length)

def smbiosGetStructure (b : Buffer) (fuel : ℕ) (smbiosTable : Option EntryPoint)
    (structureIndex : ℕ) :
    Option (Option ℕ) :=
  match smbiosTable with
  | none => some none
  | some t =>
    if structureIndex ≥ t.numSmbiosStructures.toNat then some none
    else
      (smbiosGetStructureLength b fuel t.structureTableAddress).bind fun length =>
        (structureLoop b fuel structureIndex t.structureTableAddress
          (t.structureTableAddress + length)).map some

/-- The loop of the functions below, from the number `i` on. -/
def informationLoop (b : Buffer) (fuel : ℕ) (smbiosTable : Option EntryPoint) (type : ℕ) :
    ℕ → ℕ → Option (Option ℕ)
  | 0, _ => some none
  | n + 1, i =>
    (smbiosGetStructure b fuel smbiosTable i).bind fun header =>
      match header with
      | some header =>
        if headerType b header = type then some (some header)
        else informationLoop b fuel smbiosTable type n (i + 1)
      | none => informationLoop b fuel smbiosTable type n (i + 1)

def getInformation (b : Buffer) (fuel : ℕ) (smbiosTable : Option EntryPoint) (type : ℕ) :
    Option (Option ℕ) :=
  match smbiosTable with
  | none => some none
  | some t => informationLoop b fuel smbiosTable type t.numSmbiosStructures.toNat 0

def getBiosInformation (b : Buffer) (fuel : ℕ) (smbiosTable : Option EntryPoint) :
    Option (Option ℕ) :=
  getInformation b fuel smbiosTable smbiosBiosInformation

def getSystemInformation (b : Buffer) (fuel : ℕ) (smbiosTable : Option EntryPoint) :
    Option (Option ℕ) :=
  getInformation b fuel smbiosTable smbiosSystemInformation

def getBaseBoardInformation (b : Buffer) (fuel : ℕ) (smbiosTable : Option EntryPoint) :
    Option (Option ℕ) :=
  getInformation b fuel smbiosTable smbiosBaseBoardInformation

def stringTail : List (List Byte) → List Byte
  | [] => [0]
  | s :: ss => s ++ 0 :: stringTail ss

def stringBytes : List (List Byte) → List Byte
  | [] => 0 :: stringTail []
  | s :: ss => stringTail (s :: ss)

def IsString (s : List Byte) : Prop := s ≠ [] ∧ 0 ∉ s

instance (s : List Byte) : Decidable (IsString s) := inferInstanceAs (Decidable (_ ∧ _))

/-- A structure, `formatted` is what its header leaves of the formatted area. -/
structure Structure where
  type : Byte
  handle : BitVec 16
  formatted : List Byte
  formatted_le : formatted.length ≤ 251
  strings : List (List Byte)
  strings_ok : ∀ s ∈ strings, IsString s

namespace Structure

def headerLength (s : Structure) : ℕ := s.formatted.length + 4

def header (s : Structure) : List Byte :=
  s.type :: BitVec.ofNat 8 s.headerLength :: (bytesLE 2 s.handle.toNat ++ s.formatted)

def encode (s : Structure) : List Byte := s.header ++ stringBytes s.strings

def size (s : Structure) : ℕ := s.headerLength + (stringBytes s.strings).length

end Structure

def total (ss : List Structure) : ℕ := (ss.map Structure.size).sum

/-- The structures of a table. Their number and their length fit the fields of the entry point. -/
structure Table where
  structures : List Structure
  number_lt : structures.length < 2 ^ 16
  total_lt : total structures < 2 ^ 16

def Table.encode (t : Table) : List Byte := t.structures.flatMap Structure.encode

def Table.entryPoint (t : Table) (address : ℕ) : EntryPoint where
  structureTableAddress := address
  numSmbiosStructures := BitVec.ofNat 16 t.structures.length

variable {b : Buffer} {p fuel : ℕ} {s : List Byte} {ss : List (List Byte)}

theorem stringTail_pos (ss : List (List Byte)) : 0 < (stringTail ss).length := by
  cases ss with
  | nil => exact Nat.one_pos
  | cons s ss =>
    rw [stringTail, List.length_append, List.length_cons]
    omega

theorem stringsLength_string (h : At b p s) (h0 : (0 : Byte) ∉ s) :
    stringsLength b (fuel + s.length) p = (stringsLength b fuel (p + s.length)).map
      (· + s.length) := by
  induction s generalizing p with
  | nil => exact Option.map_id'.symm
  | cons x s ih =>
    rw [List.mem_cons, not_or] at h0
    have hx : b p ≠ 0 := fun hb => h0.1 (by rw [← h.1, hb])
    have hshift : p + 1 + s.length = p + (s.length + 1) := by omega
    rw [List.length_cons, ← Nat.add_assoc, stringsLength, if_neg (fun hc => hx hc.1), ih h.2 h0.2,
      Option.map_map, hshift]
    rfl

theorem stringsLength_tail (h : At b p (0 :: stringTail ss)) (hs : ∀ s ∈ ss, IsString s)
    (hf : (stringTail ss).length ≤ fuel) :
    stringsLength b fuel p = some ((stringTail ss).length + 1) := by
  induction ss generalizing p fuel with
  | nil =>
    obtain ⟨fuel, rfl⟩ : ∃ n, fuel = n + 1 := ⟨fuel - 1, by have hpos := stringTail_pos []; omega⟩
    rw [stringsLength, if_pos ⟨h.1, h.2.1⟩]
    rfl
  | cons s ss ih =>
    have hpos := stringTail_pos ss
    have hlen : (stringTail (s :: ss)).length = s.length + 1 + (stringTail ss).length := by
      rw [stringTail, List.length_append, List.length_cons]
      omega
    obtain ⟨hne, h0⟩ := hs s List.mem_cons_self
    have hparts := at_append.mp h.2
    have hfirst : b (p + 1) ≠ 0 := by
      obtain ⟨x, s, rfl⟩ := List.exists_cons_of_ne_nil hne
      rw [hparts.1.1]
      exact fun hx => h0 (by rw [hx]; exact List.mem_cons_self)
    obtain ⟨rest, rfl⟩ : ∃ n, fuel = n + s.length + 1 := ⟨fuel - s.length - 1, by omega⟩
    have htail : stringsLength b rest (p + 1 + s.length) = some ((stringTail ss).length + 1) :=
      ih hparts.2 (fun t ht => hs t (List.mem_cons_of_mem s ht)) (by omega)
    rw [stringsLength, if_neg (fun hc => hfirst hc.2), stringsLength_string hparts.1 h0,
      htail, hlen]
    simp only [Option.map_some, Option.some.injEq]
    omega

theorem stringsLength_bytes (h : At b p (stringBytes ss)) (hs : ∀ s ∈ ss, IsString s)
    (hf : (stringBytes ss).length ≤ fuel) :
    stringsLength b fuel p = some (stringBytes ss).length := by
  cases ss with
  | nil => exact stringsLength_tail h hs (Nat.le_of_succ_le hf)
  | cons s ss =>
    have hlen : (stringBytes (s :: ss)).length = s.length + (stringTail ss).length + 1 := by
      rw [stringBytes, stringTail, List.length_append, List.length_cons, Nat.add_assoc]
    obtain ⟨-, h0⟩ := hs s List.mem_cons_self
    have hparts := at_append.mp h
    obtain ⟨rest, rfl⟩ : ∃ n, fuel = n + s.length := ⟨fuel - s.length, by omega⟩
    have htail : stringsLength b rest (p + s.length) = some ((stringTail ss).length + 1) :=
      stringsLength_tail hparts.2 (fun t ht => hs t (List.mem_cons_of_mem s ht)) (by omega)
    rw [stringsLength_string hparts.1 h0, htail, hlen]
    simp only [Option.map_some, Option.some.injEq]
    omega

variable {x : Structure} {xs : List Structure}

namespace Structure

theorem length_header (x : Structure) : x.header.length = x.headerLength := by
  rw [header, List.length_cons, List.length_cons, List.length_append, length_bytesLE, headerLength]
  omega

theorem length_encode (x : Structure) : x.encode.length = x.size := by
  rw [encode, List.length_append, length_header, size]

theorem headerLength_lt (x : Structure) : x.headerLength < 256 := by
  have hle := x.formatted_le
  unfold headerLength
  omega

end Structure

theorem headerType_encode (h : At b p x.encode) : headerType b p = x.type.toNat := by
  unfold headerType
  rw [(at_append.mp h).1.1]

theorem length_byte_encode (h : At b p x.encode) : (b (p + 1)).toNat = x.headerLength := by
  rw [(at_append.mp h).1.2.1, BitVec.toNat_ofNat, Nat.mod_eq_of_lt x.headerLength_lt]

theorem strings_encode (h : At b p x.encode) :
    At b (headerStrings b p) (stringBytes x.strings) := by
  have hstrings := (at_append.mp h).2
  unfold headerStrings
  rw [length_byte_encode h, ← x.length_header]
  exact hstrings

theorem smbiosGetStructureLength_encode (h : At b p x.encode) (hf : x.size ≤ fuel)
    (hlt : x.size < 2 ^ 32) :
    smbiosGetStructureLength b fuel p = some x.size := by
  have hfuel : (stringBytes x.strings).length ≤ fuel := (Nat.le_add_left _ _).trans hf
  unfold smbiosGetStructureLength
  rw [stringsLength_bytes (strings_encode h) x.strings_ok hfuel, length_byte_encode h,
    Option.map_some]
  exact congrArg some (Nat.mod_eq_of_lt hlt)

theorem skipString_string (h : At b p (s ++ [0])) (h0 : (0 : Byte) ∉ s) (hf : s.length < fuel) :
    skipString b fuel p = some (p + s.length) := by
  induction s generalizing p fuel with
  | nil =>
    obtain ⟨fuel, rfl⟩ : ∃ n, fuel = n + 1 := ⟨fuel - 1, by omega⟩
    rw [skipString, if_pos h.1]
    rfl
  | cons x s ih =>
    rw [List.mem_cons, not_or] at h0
    obtain ⟨fuel, rfl⟩ : ∃ n, fuel = n + 1 := ⟨fuel - 1, by omega⟩
    have hx : b p ≠ 0 := fun hb => h0.1 (by rw [← h.1, hb])
    rw [skipString, if_neg hx, ih h.2 h0.2 (Nat.lt_of_succ_lt_succ hf), List.length_cons,
      Nat.add_assoc, Nat.add_comm 1]

/-- The string at the number `n`, which counts from zero here. The counter of the loop does not come
to 128. -/
def stringAt (ss : List (List Byte)) (n : ℕ) : List Byte := if n ≤ 127 then ss.getD n [] else []

theorem toInt_succ {i : BitVec 8} {d : ℕ} (hi : i.toInt = d) (hd : d < 127) :
    (i + 1).toInt = (d + 1 : ℕ) := by
  rw [BitVec.toInt_add, hi]
  have hone : (1 : BitVec 8).toInt = 1 := rfl
  rw [hone]
  exact Int.bmod_eq_of_le (by omega) (by omega)

theorem toInt_le (i : BitVec 8) : i.toInt ≤ 127 := by
  have hlt := BitVec.toInt_lt (x := i)
  omega

theorem stringLoop_tail {n d : ℕ} {i : BitVec 8} (h : At b p (stringTail (s :: ss)))
    (h0 : (0 : Byte) ∉ s) (hs : ∀ t ∈ ss, IsString t) (hf : (stringTail (s :: ss)).length ≤ fuel)
    (hi : n ≤ 127 → i.toInt = d ∧ d ≤ n) :
    ∃ q, stringLoop b n fuel i p = some q ∧
    At b q ((if n ≤ 127 then (s :: ss).getD (n - d) [] else []) ++ [0]) := by
  induction ss generalizing p fuel s d i with
  | nil =>
    have hstring := at_append.mp h
    have hend : At b p (s ++ [0]) := at_append.mpr ⟨hstring.1, hstring.2.1, trivial⟩
    have hlen : (stringTail [s]).length = s.length + 2 := by
      rw [stringTail, List.length_append]
      rfl
    obtain ⟨fuel, rfl⟩ : ∃ m, fuel = m + 1 := ⟨fuel - 1, by omega⟩
    rw [stringLoop]
    by_cases hlt : i.toInt < n
    · have hlast : b (p + s.length + 1) = 0 := hstring.2.2.1
      rw [if_pos hlt, skipString_string hend h0 (by omega), Option.bind_some, if_pos hlast]
      refine ⟨p + s.length + 1, rfl, ?_⟩
      have hnone : (if n ≤ 127 then [s].getD (n - d) [] else []) = [] := by
        split
        · rename_i hn
          obtain ⟨hid, hdn⟩ := hi hn
          obtain ⟨k, hk⟩ : ∃ k, n - d = k + 1 := ⟨n - d - 1, by omega⟩
          rw [hk]
          rfl
        · rfl
      rw [hnone]
      exact ⟨hlast, trivial⟩
    · have hle := toInt_le i
      obtain ⟨hid, hdn⟩ := hi (by omega)
      have hnd : n - d = 0 := by omega
      rw [if_neg hlt, if_pos (by omega), hnd]
      exact ⟨p, rfl, hend⟩
  | cons t ss ih =>
    obtain ⟨hne, ht0⟩ := hs t List.mem_cons_self
    have hstring := at_append.mp h
    have hend : At b p (s ++ [0]) := at_append.mpr ⟨hstring.1, hstring.2.1, trivial⟩
    have hlen : (stringTail (s :: t :: ss)).length =
        s.length + 1 + (stringTail (t :: ss)).length := by
      rw [stringTail, List.length_append, List.length_cons]
      omega
    have hpos := stringTail_pos (t :: ss)
    have hnext : b (p + s.length + 1) ≠ 0 := by
      obtain ⟨x, t, rfl⟩ := List.exists_cons_of_ne_nil hne
      rw [(at_append.mp hstring.2.2).1.1]
      exact fun hx => ht0 (by rw [hx]; exact List.mem_cons_self)
    obtain ⟨fuel, rfl⟩ : ∃ m, fuel = m + 1 := ⟨fuel - 1, by omega⟩
    rw [stringLoop]
    by_cases hlt : i.toInt < n
    · rw [if_pos hlt, skipString_string hend h0 (by omega), Option.bind_some, if_neg hnext]
      have hcount : n ≤ 127 → (i + 1).toInt = (d + 1 : ℕ) ∧ d + 1 ≤ n := by
        intro hn
        obtain ⟨hid, hdn⟩ := hi hn
        exact ⟨toInt_succ hid (by omega), by omega⟩
      have htail : ∀ u ∈ ss, IsString u := fun u hu => hs u (List.mem_cons_of_mem t hu)
      have hfuel : (stringTail (t :: ss)).length ≤ fuel := by omega
      obtain ⟨q, hq, hat⟩ := ih hstring.2.2 ht0 htail hfuel hcount
      refine ⟨q, hq, ?_⟩
      have hstep : (if n ≤ 127 then (s :: t :: ss).getD (n - d) [] else []) =
          if n ≤ 127 then (t :: ss).getD (n - (d + 1)) [] else [] := by
        split
        · rename_i hn
          obtain ⟨hid, hdn⟩ := hi hn
          have hnd : n - d = n - (d + 1) + 1 := by omega
          rw [hnd]
          rfl
        · rfl
      rw [hstep]
      exact hat
    · have hle := toInt_le i
      obtain ⟨hid, hdn⟩ := hi (by omega)
      have hnd : n - d = 0 := by omega
      rw [if_neg hlt, if_pos (by omega), hnd]
      exact ⟨p, rfl, hend⟩

theorem stringBytes_eq (ss : List (List Byte)) :
    stringBytes ss = stringTail (ss.headD [] :: ss.tail) := by
  cases ss with
  | nil => rfl
  | cons s ss => rfl

theorem getD_headD (ss : List (List Byte)) (n : ℕ) : (ss.headD [] :: ss.tail).getD n [] = ss.getD n
    [] := by
  cases ss with
  | nil =>
    cases n with
    | zero => rfl
    | succ n => rfl
  | cons s ss => rfl

/-- `SmbiosGetString` finds the string with the number `k`, and the empty string when there is none,
or when the number does not fit the counter of the loop. -/
theorem smbiosGetString_encode (h : At b p x.encode) (hf : x.size ≤ fuel) {k : Byte} (hk : k ≠ 0) :
    ∃ q, smbiosGetString b fuel p k = some (some q) ∧
    At b q (stringAt x.strings (k.toNat - 1) ++ [0]) := by
  have hbytes := strings_encode h
  have hfuel : (stringBytes x.strings).length ≤ fuel := (Nat.le_add_left _ _).trans hf
  rw [stringBytes_eq] at hbytes hfuel
  have hok := x.strings_ok
  have h0 : (0 : Byte) ∉ x.strings.headD [] := by
    cases hx : x.strings with
    | nil => exact List.not_mem_nil
    | cons s ss =>
      rw [hx] at hok
      exact (hok s List.mem_cons_self).2
  have htail : ∀ t ∈ x.strings.tail, IsString t := fun t ht => hok t (List.mem_of_mem_tail ht)
  have hpred : (k - 1).toNat = k.toNat - 1 := by
    have hpos : k.toNat ≠ 0 := fun hz => hk (BitVec.eq_of_toNat_eq hz)
    have hlt := k.isLt
    rw [BitVec.toNat_sub]
    have hone : (1 : Byte).toNat = 1 := rfl
    rw [hone]
    omega
  obtain ⟨q, hq, hat⟩ := stringLoop_tail (n := k.toNat - 1) (d := 0) (i := 0) hbytes h0 htail hfuel
    fun _ => ⟨rfl, Nat.zero_le _⟩
  refine ⟨q, ?_, ?_⟩
  · unfold smbiosGetString
    rw [if_neg hk, hpred, hq]
    rfl
  · unfold stringAt
    rw [Nat.sub_zero, getD_headD] at hat
    exact hat

theorem total_cons (x : Structure) (xs : List Structure) : total (x :: xs) = x.size + total xs :=
  rfl

theorem total_take_succ (xs : List Structure) {k : ℕ} (hk : k < xs.length) :
    total (xs.take (k + 1)) = total (xs.take k) + xs[k].size := by
  induction xs generalizing k with
  | nil => exact absurd hk (Nat.not_lt_zero k)
  | cons y xs ih =>
    cases k with
    | zero => exact Nat.add_comm _ _
    | succ k =>
      rw [List.take_succ_cons, List.take_succ_cons, total_cons, total_cons,
        ih (Nat.lt_of_succ_lt_succ hk), List.getElem_cons_succ, Nat.add_assoc]

/-- The address of the structure `k`. -/
def address (p : ℕ) (xs : List Structure) (k : ℕ) : ℕ := p + total (xs.take k)

theorem address_succ {k : ℕ} (hk : k < xs.length) :
    address p xs (k + 1) = address p xs k + xs[k].size := by
  unfold address
  rw [total_take_succ xs hk, Nat.add_assoc]

theorem at_address (h : At b p (xs.flatMap Structure.encode)) {k : ℕ} (hk : k < xs.length) :
    At b (address p xs k) xs[k].encode := by
  induction xs generalizing p k with
  | nil => exact absurd hk (Nat.not_lt_zero k)
  | cons y xs ih =>
    rw [List.flatMap_cons, at_append, y.length_encode] at h
    cases k with
    | zero => exact h.1
    | succ k =>
      have hrest := ih h.2 (Nat.lt_of_succ_lt_succ hk)
      unfold address at hrest ⊢
      rw [List.take_succ_cons, total_cons, ← Nat.add_assoc]
      exact hrest

theorem size_le_total {y : Structure} (hy : y ∈ xs) : y.size ≤ total xs := by
  induction xs with
  | nil => exact absurd hy List.not_mem_nil
  | cons z xs ih =>
    rw [total_cons]
    rcases List.mem_cons.mp hy with rfl | hmem
    · exact Nat.le_add_right _ _
    · exact (ih hmem).trans (Nat.le_add_left _ _)

def Structure.isEnd (x : Structure) : Bool := x.type.toNat = smbiosEndofTable

/-- The number of the structure that ends the table: the first end structure behind the first
structure, which the loop does not ask. -/
def endNumber (xs : List Structure) : ℕ := xs.tail.findIdx Structure.isEnd + 1

theorem isEnd_endNumber (xs : List Structure) (h : endNumber xs < xs.length) :
    xs[endNumber xs].isEnd = true := by
  have htail : xs.tail.findIdx Structure.isEnd < xs.tail.length := by
    rw [List.length_tail]
    unfold endNumber at h
    omega
  have hend := List.findIdx_getElem (w := htail)
  rw [List.getElem_tail] at hend
  exact hend

theorem not_isEnd_of_lt {k : ℕ} (hk : k + 1 < endNumber xs) (hlen : k + 1 < xs.length) :
    xs[k + 1].isEnd = false := by
  have hlt : k < xs.tail.findIdx Structure.isEnd := Nat.lt_of_succ_lt_succ hk
  have hnot := List.not_of_lt_findIdx hlt
  rw [List.getElem_tail] at hnot
  exact hnot

theorem structureLoop_encode (h : At b p (xs.flatMap Structure.encode)) (hf : total xs ≤ fuel)
    (hlt : total xs < 2 ^ 32) {i n : ℕ} (hn : i + n < xs.length) (hi : i < endNumber xs) :
    structureLoop b fuel n (address p xs i) (address p xs (i + 1)) =
      some (address p xs (min (i + n) (endNumber xs))) := by
  induction n generalizing i with
  | zero => rw [structureLoop, Nat.add_zero, Nat.min_eq_left hi.le]
  | succ n ih =>
    have hlen : i + 1 < xs.length := by omega
    have hat := at_address h hlen
    have hsize := size_le_total (List.getElem_mem hlen)
    rw [structureLoop, headerType_encode hat]
    rcases Nat.lt_or_ge (i + 1) (endNumber xs) with hlast | hlast
    · have hnot := of_decide_eq_false (not_isEnd_of_lt hlast hlen)
      have hsum : i + (n + 1) = i + 1 + n := by omega
      rw [if_neg hnot, smbiosGetStructureLength_encode hat (hsize.trans hf) (by omega),
        Option.bind_some, ← address_succ hlen, ih (by omega) hlast, hsum]
    · have heq : endNumber xs = i + 1 := by omega
      have hend : xs[i + 1].isEnd = true := by
        have hat := isEnd_endNumber xs (by omega)
        simpa only [heq] using hat
      rw [if_pos (of_decide_eq_true hend), heq, Nat.min_eq_right (by omega)]

variable {t : Table}

theorem number_eq (t : Table) (p : ℕ) :
    (t.entryPoint p).numSmbiosStructures.toNat = t.structures.length := by
  unfold Table.entryPoint
  rw [BitVec.toNat_ofNat, Nat.mod_eq_of_lt t.number_lt]

/-- `SmbiosGetStructure` finds the structure with the number, or the one that ends the table. -/
theorem smbiosGetStructure_encode (h : At b p t.encode) (hf : total t.structures ≤ fuel) {k : ℕ}
    (hk : k < t.structures.length) : smbiosGetStructure b fuel (some (t.entryPoint p)) k =
      some (some (address p t.structures (min k (endNumber t.structures)))) := by
  have hfirst : 0 < t.structures.length := by omega
  have hat : At b p t.structures[0].encode := at_address h hfirst
  have hsize := size_le_total (List.getElem_mem hfirst)
  have hlt := t.total_lt
  have hnext : p + t.structures[0].size = address p t.structures 1 := (address_succ hfirst).symm
  have hloop := structureLoop_encode h hf (by omega) (i := 0) (n := k) (by omega) (Nat.succ_pos _)
  have haddress : (t.entryPoint p).structureTableAddress = p := rfl
  rw [Nat.zero_add, Nat.zero_add] at hloop
  rw [smbiosGetStructure, number_eq, if_neg (Nat.not_le.mpr hk), haddress,
    smbiosGetStructureLength_encode hat (hsize.trans hf) (by omega), Option.bind_some, hnext]
  exact congrArg (Option.map some) hloop

/-- The number of the first structure of a type before the end of the table. -/
def firstOfType (xs : List Structure) (type : ℕ) : Option ℕ :=
  (xs.take (endNumber xs)).findIdx? fun x => x.type.toNat = type

theorem firstOfType_eq_some {xs : List Structure} {type k : ℕ} (hk : k < xs.length)
    (hlt : k < endNumber xs) (htype : xs[k].type.toNat = type)
    (hfirst : ∀ j (hj : j < xs.length), j < k → xs[j].type.toNat ≠ type) :
    firstOfType xs type = some k := by
  have hlen : k < (xs.take (endNumber xs)).length := by
    rw [List.length_take]
    omega
  apply List.findIdx?_eq_some_iff_getElem.mpr
  refine ⟨hlen, ?_, ?_⟩
  · rw [List.getElem_take]
    exact decide_eq_true htype
  · intro j hj
    rw [List.getElem_take]
    exact fun hc => hfirst j (by omega) hj (of_decide_eq_true hc)

theorem firstOfType_eq_none {xs : List Structure} {type : ℕ}
    (h : ∀ j (hj : j < xs.length), j < endNumber xs → xs[j].type.toNat ≠ type) :
    firstOfType xs type = none := by
  apply List.findIdx?_eq_none_iff.mpr
  intro x hx
  obtain ⟨j, hj, rfl⟩ := List.getElem_of_mem hx
  rw [List.length_take] at hj
  rw [List.getElem_take]
  exact decide_eq_false (h j (by omega) (by omega))

theorem informationLoop_encode (h : At b p t.encode) (hf : total t.structures ≤ fuel) {type : ℕ}
    (hend : type ≠ smbiosEndofTable) {i n : ℕ} (hn : i + n = t.structures.length)
    (hfirst : ∀ j (hj : j < t.structures.length), j < endNumber t.structures → j < i →
      t.structures[j].type.toNat ≠ type) :
    informationLoop b fuel (some (t.entryPoint p)) type n i =
      some ((firstOfType t.structures type).map (address p t.structures)) := by
  induction n generalizing i with
  | zero =>
    have hnone : firstOfType t.structures type = none :=
      firstOfType_eq_none fun j hj hlast => hfirst j hj hlast (by omega)
    rw [hnone]
    rfl
  | succ n ih =>
    have hi : i < t.structures.length := by omega
    have hm : min i (endNumber t.structures) < t.structures.length := by omega
    have htype := headerType_encode (at_address h hm)
    rw [informationLoop, smbiosGetStructure_encode h hf hi, Option.bind_some]
    dsimp only
    rw [htype]
    by_cases his : t.structures[min i (endNumber t.structures)].type.toNat = type
    · have hlt : i < endNumber t.structures := by
        by_contra hge
        have hmin : min i (endNumber t.structures) = endNumber t.structures := by omega
        have hlast := of_decide_eq_true (isEnd_endNumber t.structures (by omega))
        simp only [hmin] at his
        exact hend (his.symm.trans hlast)
      have hmin : min i (endNumber t.structures) = i := Nat.min_eq_left hlt.le
      simp only [hmin] at his ⊢
      rw [if_pos his, firstOfType_eq_some hi hlt his fun j hj hji => hfirst j hj (by omega) hji]
      rfl
    · rw [if_neg his]
      apply ih (by omega)
      intro j hj hlast hji
      by_cases hjk : j < i
      · exact hfirst j hj hlast hjk
      · have hmin : min i (endNumber t.structures) = j := by omega
        simp only [hmin] at his
        exact his

/-- `GetBiosInformation` and its siblings find the first structure of their type that comes before
the end of the table. -/
theorem getInformation_encode (h : At b p t.encode) (hf : total t.structures ≤ fuel) {type : ℕ}
    (hend : type ≠ smbiosEndofTable) : getInformation b fuel (some (t.entryPoint p)) type =
      some ((firstOfType t.structures type).map (address p t.structures)) := by
  unfold getInformation
  dsimp only
  rw [number_eq]
  exact informationLoop_encode h hf hend (Nat.zero_add _) fun j hj _ hji =>
    absurd hji (Nat.not_lt_zero j)

/-- Whatever table is stored, a number finds its structure, or the one that ends the table when that
comes first, and the information of a kind is the first structure of the kind before the end of the
table. -/
theorem structures_found (t : Table) (p : ℕ) (h : At b p t.encode)
    (hf : total t.structures ≤ fuel) :
    (∀ k < t.structures.length, smbiosGetStructure b fuel (some (t.entryPoint p)) k =
      some (some (address p t.structures (min k (endNumber t.structures))))) ∧
    (∀ k ≥ t.structures.length, smbiosGetStructure b fuel (some (t.entryPoint p)) k = some none) ∧
    getBiosInformation b fuel (some (t.entryPoint p)) =
      some ((firstOfType t.structures smbiosBiosInformation).map (address p t.structures)) ∧
    getSystemInformation b fuel (some (t.entryPoint p)) =
      some ((firstOfType t.structures smbiosSystemInformation).map (address p t.structures)) ∧
    getBaseBoardInformation b fuel (some (t.entryPoint p)) =
      some ((firstOfType t.structures smbiosBaseBoardInformation).map (address p t.structures)) :=
  by
  refine ⟨fun k hk => smbiosGetStructure_encode h hf hk, fun k hk => ?_,
    getInformation_encode h hf (by decide), getInformation_encode h hf (by decide),
    getInformation_encode h hf (by decide)⟩
  rw [smbiosGetStructure, number_eq, if_pos hk]

def smallTable : Table where
  structures := [⟨1, 0, [1], by decide, [[77]], by decide⟩,
    ⟨2, 1, [1, 2], by decide, [[65, 66], [49]], by decide⟩,
    ⟨0x7F, 2, [], by decide, [], List.forall_mem_nil _⟩]
  number_lt := by decide
  total_lt := by decide

theorem structures_found_small : getBaseBoardInformation (store 100 smallTable.encode) 30
      (some (smallTable.entryPoint 100)) = some (some 108) ∧
    getBiosInformation (store 100 smallTable.encode) 30 (some (smallTable.entryPoint 100)) =
      some none := by
  obtain ⟨-, -, hbios, -, hboard⟩ :=
    structures_found smallTable 100 (at_store 100 smallTable.encode)
      (show total smallTable.structures ≤ 30 by decide)
  exact ⟨hboard, hbios⟩

/-- In every structure of a table a number finds its string, and the empty string when there is
none. From the number 129 on the empty string is found in any case, for the counter of the loop is a
signed byte. -/
theorem strings_found (t : Table) (p : ℕ) (h : At b p t.encode) (hf : total t.structures ≤ fuel)
    (j : ℕ) (hj : j < t.structures.length) :
    smbiosGetString b fuel (address p t.structures j) 0 = some none ∧
    ∀ k : Byte, k ≠ 0 → ∃ q, smbiosGetString b fuel (address p t.structures j) k = some (some q) ∧
      At b q ((if k.toNat ≤ 128 then t.structures[j].strings.getD (k.toNat - 1) [] else []) ++
        [0]) := by
  refine ⟨rfl, fun k hk => ?_⟩
  have hsize := size_le_total (List.getElem_mem hj)
  obtain ⟨q, hq, hat⟩ := smbiosGetString_encode (at_address h hj) (hsize.trans hf) hk
  refine ⟨q, hq, ?_⟩
  have hbound : k.toNat - 1 ≤ 127 ↔ k.toNat ≤ 128 := by omega
  simp only [stringAt, hbound] at hat
  exact hat

theorem strings_found_small :
    ∃ q, smbiosGetString (store 100 smallTable.encode) 30 108 2 = some (some q) ∧
    At (store 100 smallTable.encode) q [49, 0] :=
  (strings_found smallTable 100 (at_store 100 smallTable.encode)
    (show total smallTable.structures ≤ 30 by decide) 1
    (by decide)).2 2 (by decide)

end DevOs.Smbios
