import DevOs.Pci.Enumerate

/-!
# The search of a PCI Express function

`PcieFindDevice` leaves a device at its first function that is absent, so that it does not come to
the functions behind it. When it finds nothing up to the end of a range that ends with the bus 255,
it never ends.
-/

namespace DevOs.Pci

open Loops Collected

/-- The ids that are looked for. The device `0xFFFF` stands for any one, and the vendor `0xFFFF` for
none. -/
structure IdQuery where
  vendorId : ℕ
  deviceId : ℕ
deriving DecidableEq, Repr

def IdQuery.accepts (q : IdQuery) (h : FunctionHeader) : Bool :=
  h.vendorId = q.vendorId && (q.deviceId = 0xFFFF || h.deviceId = q.deviceId)

section

variable (table : List DeviceConfig) (space : ConfigurationSpace)

def findFunction (q : IdQuery) (k bus device : ℕ) : List ℕ → Option PcieFunction
  | [] => none
  | function :: functions =>
    let address := pointer table ⟨k, bus, device, function⟩
    if address = 0 ∨ (space address).headerType = 0xFF then none
    else if q.accepts (space address) then some ⟨k, bus, device, function⟩
    else findFunction q k bus device functions

def findDevice (q : IdQuery) (k bus device : ℕ) (s : Option PcieFunction) :
    Option PcieFunction × Bool :=
  match findFunction table space q k bus device (List.range 8) with
  | some f => (some f, true)
  | none => (s, false)

def findBus (q : IdQuery) (k bus : ℕ) (s : Option PcieFunction) : Option PcieFunction × Bool :=
  forEach (findDevice table space q k bus) (List.range 32) s

/-- `PcieFindDevice`: the function whose pointer is returned. -/
def pcieFindDevice (q : IdQuery) (fuel : ℕ) : Option (Option PcieFunction) :=
  if q.vendorId = 0xFFFF then some none
  else
    (forEach? (forBuses table (findBus table space q) fuel)
      (List.range (pciExpressInit table).numDeviceConfigs) none).map Prod.fst

def Identified (q : IdQuery) (f : PcieFunction) : Bool :=
  q.vendorId ≠ 0xFFFF && Present table space f && q.accepts (space (functionAddress table f))

def Reachable (f : PcieFunction) : Prop :=
  ∀ j ≤ f.function, Present table space { f with function := j } = true

/-- The search ends, and returns a function with the ids whenever there is one. -/
def FindsRight (q : IdQuery) : Prop :=
  ∃ fuel result, pcieFindDevice table space q fuel = some result ∧
    (∀ f, result = some f → f ∈ allFunctions table ∧ Identified table space q f = true) ∧
    ((∃ f ∈ allFunctions table, Identified table space q f = true) → result ≠ none)

/-- Up to the first range that ends with the bus 255 a function is found, and one is found if there
is one. -/
def Findable (q : IdQuery) : Prop :=
  q.vendorId = 0xFFFF ∨
    (∀ k c, table[k]? = some c → c.endPciBusNumber = 255 →
      ∃ f ∈ (List.range (k + 1)).flatMap (functionsOf table), Reachable table space f ∧
        Identified table space q f = true) ∧
    ((∃ f ∈ allFunctions table, Identified table space q f = true) →
      ∃ f ∈ allFunctions table, Reachable table space f ∧ Identified table space q f = true)

end

variable {table : List DeviceConfig} {space : ConfigurationSpace} {c : DeviceConfig}
    {k bus device : ℕ}
  {q : IdQuery} {f : PcieFunction}

/-- The functions of a device that the search comes to and that have the ids. -/
def foundOf (table : List DeviceConfig) (space : ConfigurationSpace) (q : IdQuery)
    (k bus device : ℕ) :
    List PcieFunction :=
  (((List.range 8).map fun function => ⟨k, bus, device, function⟩).takeWhile
    (Present table space)).filter
    (Identified table space q)

def foundIn (table : List DeviceConfig) (space : ConfigurationSpace) (q : IdQuery) (k : ℕ) :
    List PcieFunction :=
  (busesAt table k).flatMap fun bus => (List.range 32).flatMap fun device =>
    foundOf table space q k bus device

theorem mem_takeWhile_range' {p : ℕ → Bool} {a n x : ℕ} :
    x ∈ (List.range' a n).takeWhile p ↔ a ≤ x ∧ x < a + n ∧ ∀ i, a ≤ i → i ≤ x → p i = true := by
  induction n generalizing a with
  | zero =>
    rw [List.range'_zero, List.takeWhile_nil]
    exact iff_of_false List.not_mem_nil fun h => by omega
  | succ n ih =>
    rw [List.range'_succ, List.takeWhile_cons]
    by_cases ha : p a = true
    · rw [if_pos ha, List.mem_cons, ih]
      constructor
      · rintro (rfl | ⟨hle, hlt, hall⟩)
        · exact ⟨Nat.le_refl x, by omega, fun i hi hi' => Nat.le_antisymm hi hi' ▸ ha⟩
        · refine ⟨by omega, by omega, fun i hi hi' => ?_⟩
          rcases Nat.lt_or_eq_of_le hi with hi | rfl
          · exact hall i hi hi'
          · exact ha
      · rintro ⟨hle, hlt, hall⟩
        rcases Nat.lt_or_eq_of_le hle with hle | rfl
        · exact Or.inr ⟨hle, by omega, fun i hi hi' => hall i (Nat.le_of_succ_le hi) hi'⟩
        · exact Or.inl rfl
    · rw [if_neg ha]
      exact iff_of_false List.not_mem_nil fun h => ha (h.2.2 a (Nat.le_refl a) h.1)

theorem mem_foundOf : f ∈ foundOf table space q k bus device ↔
    (∃ function < 8, f = ⟨k, bus, device, function⟩) ∧ Reachable table space f ∧
      Identified table space q f = true := by
  rw [foundOf, List.mem_filter, List.takeWhile_map, List.mem_map, List.range_eq_range']
  constructor
  · rintro ⟨⟨function, hfunction, rfl⟩, hid⟩
    obtain ⟨-, hlt, hall⟩ := mem_takeWhile_range'.mp hfunction
    exact ⟨⟨function, by omega, rfl⟩, fun j hj => hall j (Nat.zero_le j) hj, hid⟩
  · rintro ⟨⟨function, hlt, rfl⟩, hreach, hid⟩
    refine ⟨⟨function, mem_takeWhile_range'.mpr ⟨Nat.zero_le _, by
      omega, fun j _ hj => hreach j hj⟩, rfl⟩, hid⟩

theorem mem_foundIn : f ∈ foundIn table space q k ↔
    f ∈ functionsOf table k ∧ Reachable table space f ∧ Identified table space q f = true := by
  rw [mem_functionsOf, foundIn, busesAt]
  simp only [List.mem_flatMap, mem_foundOf, List.mem_range]
  constructor
  · rintro ⟨bus, hbus, device, hd, ⟨function, hf, rfl⟩, hfound⟩
    refine ⟨⟨rfl, ?_⟩, hfound⟩
    cases hc : table[k]? with
    | none =>
      rw [hc] at hbus
      exact absurd hbus List.not_mem_nil
    | some c =>
      rw [hc] at hbus
      exact ⟨c, rfl, hbus, hd, hf⟩
  · rintro ⟨⟨rfl, c, hc, hbus, hd, hf⟩, hfound⟩
    rw [hc]
    exact ⟨f.bus, hbus, f.device, hd, ⟨f.function, hf, rfl⟩, hfound⟩

theorem Addressed.findFunction_eq (h : Addressed table) (hq : q.vendorId ≠ 0xFFFF)
    (hc : table[k]? = some c) (hbus : bus ∈ c.buses) (hd : device < 32) (functions : List ℕ)
    (hlt : ∀ function ∈ functions, function < 8) :
    findFunction table space q k bus device functions =
      (((functions.map fun function => (⟨k, bus, device, function⟩ : PcieFunction)).takeWhile
        (Present table space)).filter (Identified table space q)).head? := by
  induction functions with
  | nil => rfl
  | cons function functions ih =>
    have hf : function < 8 := hlt function List.mem_cons_self
    have haddress : pointer table ⟨k, bus, device, function⟩ =
        functionAddress table ⟨k, bus, device, function⟩ :=
      h.pointer_eq (mem_functionsOf.mpr ⟨rfl, c, hc, hbus, hd, hf⟩)
    rw [findFunction, List.map_cons, List.takeWhile_cons, haddress]
    by_cases habsent : functionAddress table ⟨k, bus, device, function⟩ = 0 ∨
        (space (functionAddress table ⟨k, bus, device, function⟩)).headerType = 0xFF
    · have hnot : ¬ Present table space ⟨k, bus, device, function⟩ = true := by
        rw [Present, Bool.and_eq_true, decide_eq_true_eq, decide_eq_true_eq]
        exact fun hp => habsent.elim hp.1 hp.2
      rw [if_pos habsent, if_neg hnot]
      rfl
    · have hpresent : Present table space ⟨k, bus, device, function⟩ = true := by
        rw [Present, Bool.and_eq_true, decide_eq_true_eq, decide_eq_true_eq]
        exact not_or.mp habsent
      rw [if_neg habsent, if_pos hpresent, List.filter_cons]
      by_cases haccepts : q.accepts
        (space (functionAddress table ⟨k, bus, device, function⟩)) = true
      · rw [if_pos haccepts, if_pos]
        · rfl
        · rw [Identified, decide_eq_true hq, hpresent, haccepts]
          rfl
      · rw [if_neg haccepts, if_neg, ih fun g hg => hlt g (List.mem_cons_of_mem function hg)]
        rw [Identified, Bool.and_eq_true]
        exact fun hid => haccepts hid.2

theorem Addressed.findBus_finds (h : Addressed table) (hq : q.vendorId ≠ 0xFFFF)
    (hc : table[k]? = some c) (hbus : bus ∈ c.buses) : Finds (findBus table space q k bus)
      ((List.range 32).flatMap fun device => foundOf table space q k bus device) := by
  refine Finds.forEach fun device hd => ?_
  have hrun := @Addressed.findFunction_eq table space c k bus device q h hq hc hbus
    (List.mem_range.mp hd)
    (List.range 8) fun function hf => List.mem_range.mp hf
  rw [Finds, findDevice, hrun, foundOf]
  cases (((List.range 8).map fun function => (⟨k, bus, device, function⟩ : PcieFunction)).takeWhile
    (Present table space)).filter (Identified table space q) with
  | nil => rfl
  | cons f l => rfl

theorem Addressed.range_finds (h : Addressed table) (hq : q.vendorId ≠ 0xFFFF) (k : ℕ) :
    Finds (forEach (findBus table space q k) (busesAt table k)) (foundIn table space q k) := by
  refine Finds.forEach fun bus hbus => ?_
  rw [busesAt] at hbus
  cases hc : table[k]? with
  | none =>
    rw [hc] at hbus
    exact absurd hbus List.not_mem_nil
  | some c =>
    rw [hc] at hbus
    exact h.findBus_finds hq hc hbus

/-- A range that ends with the bus 255 and in which nothing is found is gone through for ever. -/
theorem Addressed.find_endless (h : Addressed table) (hq : q.vendorId ≠ 0xFFFF)
    (hc : table[k]? = some c) (hzero : c.startPciBusNumber = 0) (hend : c.endPciBusNumber = 255)
    (hnone : foundIn table space q k = []) (fuel : ℕ) :
    forBuses table (findBus table space q) fuel k none = none := by
  cases hrun : forBuses table (findBus table space q) fuel k none with
  | none => rfl
  | some r =>
    have hpass : forEach (findBus table space q k) c.buses none = (none, false) := by
      have hfinds := @Addressed.range_finds table space q h hq k
      rw [hnone, busesAt, hc] at hfinds
      exact hfinds
    have hlonger := forBuses_mono hrun (2 ^ 8)
    have hagain :=
      (@forBuses_endless table c k _ (findBus table space q) hc hzero hend none).2 (by
        rw [hpass]) fuel
    rw [hagain, hpass] at hlonger
    have hbuses (bus : ℕ) (hbus : bus < 2 ^ 8) : findBus table space q k bus none =
        (none, false) := by
      have hmem : bus ∈ c.buses := by
        rw [DeviceConfig.mem_buses, hzero, hend]
        omega
      have hfinds := @Addressed.findBus_finds table space c k bus q h hq hc hmem
      have hempty : ((List.range 32).flatMap fun device => foundOf table space q k bus device) =
          [] := by
        rw [foundIn, busesAt, hc] at hnone
        exact List.flatMap_eq_nil_iff.mp hnone bus hmem
      rw [hempty] at hfinds
      exact hfinds
    refine absurd (upTo_rule (I := fun s => s = none) (Q := fun _ => False) rfl ?_ (by
      decide) rfl hlonger).2 id
    rintro bus hbus s rfl
    rw [hbuses bus hbus, if_neg Bool.false_ne_true]

theorem Addressed.find_within (h : Addressed table) (hq : q.vendorId ≠ 0xFFFF)
    (hc : table[k]? = some c) (hzero : c.startPciBusNumber = 0) (hend : c.endPciBusNumber = 255)
    {l : List PcieFunction} (hfound : foundIn table space q k = f :: l) :
    forBuses table (findBus table space q) (0 + 2 ^ 9) k none = some (some f, true) := by
  have hpass : forEach (findBus table space q k) c.buses none = (some f, true) := by
    have hfinds := @Addressed.range_finds table space q h hq k
    rw [hfound, busesAt, hc] at hfinds
    exact hfinds
  have hfuel : 0 + 2 ^ 9 = 255 + 1 + 2 ^ 8 := rfl
  rw [hfuel, (@forBuses_endless table c k _ (findBus table space q) hc hzero hend none).1 (by
    rw [hpass]), hpass]

theorem Addressed.ranges_find (h : Addressed table) (hq : q.vendorId ≠ 0xFFFF) (ks : List ℕ) :
    forEach (fun k => forEach (findBus table space q k) (busesAt table k)) ks none =
      ((ks.flatMap (foundIn table space q)).head?,
        (ks.flatMap (foundIn table space q)).head?.isSome) :=
  Finds.forEach fun k _ => h.range_finds hq k

theorem mem_flatMap_foundIn {ks : List ℕ} : f ∈ ks.flatMap (foundIn table space q) ↔
    f ∈ ks.flatMap (functionsOf table) ∧ Reachable table space f ∧
    Identified table space q f = true := by
  rw [List.mem_flatMap, List.mem_flatMap]
  constructor
  · rintro ⟨k, hk, hf⟩
    obtain ⟨hf, hfound⟩ := mem_foundIn.mp hf
    exact ⟨⟨k, hk, hf⟩, hfound⟩
  · rintro ⟨⟨k, hk, hf⟩, hfound⟩
    exact ⟨k, hk, mem_foundIn.mpr ⟨hf, hfound⟩⟩

/-- A search that returns the first function of all that it comes to is right when it comes to one
if there is one. -/
theorem Addressed.right_of_head (h : Addressed table) {ks rest : List ℕ}
    (hks : List.range (pciExpressInit table).numDeviceConfigs = ks ++ rest)
    {result : Option PcieFunction} (hresult : result = (ks.flatMap (foundIn table space q)).head?) :
    (∀ f, result = some f → f ∈ allFunctions table ∧ Identified table space q f = true) ∧
      (result ≠ none ↔ ∃ f ∈ ks.flatMap (functionsOf table), Reachable table space f ∧
        Identified table space q f = true) := by
  subst hresult
  constructor
  · intro f hf
    obtain ⟨hmem, -, hid⟩ := mem_flatMap_foundIn.mp (List.mem_of_head? hf)
    refine ⟨?_, hid⟩
    rw [h.allFunctions_eq, hks, List.flatMap_append]
    exact List.mem_append_left _ hmem
  · constructor
    · intro hne
      obtain ⟨f, hf⟩ := Option.ne_none_iff_exists'.mp hne
      obtain ⟨hmem, hreach, hid⟩ := mem_flatMap_foundIn.mp (List.mem_of_head? hf)
      exact ⟨f, hmem, hreach, hid⟩
    · rintro ⟨f, hmem, hfound⟩ hnone
      rw [List.head?_eq_none_iff] at hnone
      exact List.not_mem_nil (hnone ▸ mem_flatMap_foundIn.mpr ⟨hmem, hfound⟩)

theorem Addressed.finds_endless (h : Addressed table) (hq : q.vendorId ≠ 0xFFFF) {rest : List ℕ}
    (hc : table[k]? = some c) (hzero : c.startPciBusNumber = 0) (hend : c.endPciBusNumber = 255)
    (hordinary : ∀ j ∈ List.range k, Ordinary table j)
    (hrange : List.range (pciExpressInit table).numDeviceConfigs = List.range k ++ k :: rest) :
    FindsRight table space q ↔ Findable table space q := by
  have hrun (fuel : ℕ) : pcieFindDevice table space q fuel =
      (forEach? (forBuses table (findBus table space q) fuel) (List.range k ++ k :: rest) none).map
      Prod.fst := by
    rw [← hrange]
    exact if_neg hq
  have hsplit : List.range k ++ k :: rest = (List.range k ++ [k]) ++ rest := by
    rw [List.append_assoc, List.singleton_append]
  have hfront (fuel : ℕ) :=
    @forRanges_append table _ (findBus table space q) _ hordinary fuel (k :: rest) none
  rw [h.ranges_find hq] at hfront
  by_cases hfound : (List.range k ++ [k]).flatMap (foundIn table space q) = []
  · rw [List.flatMap_append, List.flatMap_singleton, List.append_eq_nil_iff] at hfound
    rw [hfound.1] at hfront
    refine iff_of_false ?_ ?_
    · rintro ⟨fuel, result, hresult, -⟩
      rw [hrun] at hresult
      obtain ⟨r, hr, -⟩ := Option.map_eq_some_iff.mp hresult
      have hlonger := forEach?_mono (fun x t r hx => forBuses_mono hx (2 ^ 9)) hr
      rw [hfront, List.head?_nil, Option.isSome_none, if_neg Bool.false_ne_true, forEach?,
        h.find_endless hq hc hzero hend hfound.2] at hlonger
      cases hlonger
    · rintro (hv | ⟨hfirst, -⟩)
      · exact hq hv
      · obtain ⟨f, hf, hreach⟩ := hfirst k c hc hend
        have hmem := mem_flatMap_foundIn.mpr ⟨hf, hreach⟩
        rw [List.range_succ, List.flatMap_append, List.flatMap_singleton, hfound.1,
          hfound.2] at hmem
        exact List.not_mem_nil hmem
  · obtain ⟨f, hf⟩ := List.exists_mem_of_ne_nil _ hfound
    obtain ⟨hmem, hreach, hid⟩ := mem_flatMap_foundIn.mp hf
    have hall : f ∈ allFunctions table := by
      rw [h.allFunctions_eq, hrange, hsplit, List.flatMap_append]
      exact List.mem_append_left _ hmem
    refine iff_of_true ?_
      (Or.inr ⟨fun j c' hc' hend' => ⟨f, ?_, hreach, hid⟩, fun _ => ⟨f, hall, hreach, hid⟩⟩)
    · obtain ⟨result, hresult, hhead⟩ : ∃ result,
        pcieFindDevice table space q (0 + 2 ^ 9) = some result ∧
          result = ((List.range k ++ [k]).flatMap (foundIn table space q)).head? := by
        refine ⟨_, ?_, rfl⟩
        rw [hrun, hfront, List.flatMap_append, List.flatMap_singleton]
        cases hlist : (List.range k).flatMap (foundIn table space q) with
        | cons g l => rfl
        | nil =>
          rw [List.flatMap_append, List.flatMap_singleton, hlist, List.nil_append] at hfound
          obtain ⟨g, l, hg⟩ := List.exists_cons_of_ne_nil hfound
          rw [List.head?_nil, Option.isSome_none, if_neg Bool.false_ne_true, forEach?,
            h.find_within hq hc hzero hend hg, Option.bind_some, if_pos rfl, hg]
          rfl
      obtain ⟨hright, hiff⟩ := h.right_of_head (by rw [hrange, hsplit]) hhead
      exact ⟨_, result, hresult, hright, fun _ => hiff.mpr ⟨f, hmem, hreach, hid⟩⟩
    · have hkj : k ≤ j := Nat.not_lt.mp fun hlt => hordinary j (List.mem_range.mpr hlt) c' hc' hend'
      obtain ⟨d, rfl⟩ := Nat.exists_eq_add_of_le hkj
      rw [Nat.add_right_comm, List.range_add, List.flatMap_append, List.range_succ]
      exact List.mem_append_left _ hmem

theorem Addressed.findsRight_iff (h : Addressed table) (q : IdQuery) :
    FindsRight table space q ↔ Findable table space q := by
  by_cases hq : q.vendorId = 0xFFFF
  · have hnone (f : PcieFunction) : Identified table space q f ≠ true := by
      rw [Identified, decide_eq_false (not_not.mpr hq), Bool.false_and, Bool.false_and]
      exact Bool.false_ne_true
    refine iff_of_true ⟨0, none, if_pos hq, nofun, ?_⟩ (Or.inl hq)
    rintro ⟨f, -, hf⟩
    exact absurd hf (hnone f)
  by_cases hends : ∃ k : ℕ, ∃ c : DeviceConfig, table[k]? = some c ∧ c.endPciBusNumber = 255
  · obtain ⟨k, c, rest, hc, hzero, hend, hordinary, hrange⟩ := h.split hends
    exact h.finds_endless hq hc hzero hend hordinary hrange
  · have hordinary (k : ℕ) (_ : k ∈ List.range (pciExpressInit table).numDeviceConfigs) :
        Ordinary table k :=
      fun c hc hend => hends ⟨k, c, hc, hend⟩
    have hrun (fuel : ℕ) : pcieFindDevice table space q (fuel + 2 ^ 9) =
        some ((List.range (pciExpressInit table).numDeviceConfigs).flatMap
        (foundIn table space q)).head? := by
      rw [pcieFindDevice, if_neg hq, forRanges_eq hordinary, h.ranges_find hq, Option.map_some]
    obtain ⟨hright, hiff⟩ := @Addressed.right_of_head table space q h
      (List.range (pciExpressInit table).numDeviceConfigs) [] (List.append_nil _).symm _ rfl
    rw [← h.allFunctions_eq] at hiff
    constructor
    · rintro ⟨fuel, result, hresult, -, hfinds⟩
      refine Or.inr ⟨fun k c hc hend => absurd ⟨k, c, hc, hend⟩ hends, fun hexists => hiff.mp ?_⟩
      have hlonger : pcieFindDevice table space q (fuel + 2 ^ 9) = some result := by
        rw [pcieFindDevice, if_neg hq] at hresult ⊢
        obtain ⟨r, hr, rfl⟩ := Option.map_eq_some_iff.mp hresult
        rw [forEach?_mono (fun x t r hx => forBuses_mono hx (2 ^ 9)) hr]
        rfl
      rw [hrun] at hlonger
      rw [Option.some.inj hlonger]
      exact hfinds hexists
    · intro hfindable
      refine ⟨0 + 2 ^ 9, _, hrun 0, hright, fun hexists => hiff.mpr ?_⟩
      exact (hfindable.resolve_left hq).2 hexists

/-- The functions are read where they are, the enumeration and the search end and yield what they
should, exactly under the conditions on the table and the headers that are described above. -/
theorem pcie_right_iff (table : List DeviceConfig) (space : ConfigurationSpace)
    (classQuery : ClassQuery) (max : ℕ) (idQuery : IdQuery) :
    (ReadsRight table ∧ EnumeratesRight table space classQuery max ∧
      FindsRight table space idQuery) ↔
      (Addressed table ∧ Enumerable table space classQuery max ∧ Findable table space idQuery) := by
  rw [readsRight_iff]
  refine and_congr_right fun h => ?_
  rw [h.enumeratesRight_iff, h.findsRight_iff]

def absentHeader : FunctionHeader := ⟨0xFFFF, 0xFFFF, 0xFF, 0xFF, 0xFF, 0xFF⟩

/-- One range with all buses, and one that does not begin with the bus zero. -/
def allBuses : DeviceConfig := ⟨0xE0000000, 0, 255, by decide, by decide, by decide⟩
def laterBuses : DeviceConfig := ⟨0xE0000000, 1, 2, by decide, by decide, by decide⟩

theorem allBuses_addressed : Addressed [allBuses] := by
  intro k c hc _
  obtain ⟨hk, rfl⟩ := List.getElem?_eq_some_iff.mp hc
  obtain rfl : k = 0 := Nat.lt_one_iff.mp hk
  exact ⟨by decide, rfl, show 0xE0000000 % 2 ^ 20 < 2 ^ 12 by decide⟩

theorem absent_present (table : List DeviceConfig) (f : PcieFunction) :
    Present table (fun _ => absentHeader) f = false := Bool.and_false _

theorem absent_identified (table : List DeviceConfig) (q : IdQuery) (f : PcieFunction) :
    Identified table (fun _ => absentHeader) q f ≠ true := by
  rw [Identified, absent_present, Bool.and_false, Bool.false_and]
  exact Bool.false_ne_true

theorem absent_matches (table : List DeviceConfig) (q : ClassQuery) (f : PcieFunction) :
    Matches table (fun _ => absentHeader) q f ≠ true := by
  rw [Matches, absent_present, Bool.and_false, Bool.false_and]
  exact Bool.false_ne_true

/-- Without functions neither the search of a range of all buses nor the enumeration ends. The
functions of a range that begins with the bus 1 are read elsewhere. -/
theorem pcie_wrong :
    (∀ fuel, pcieFindDevice [allBuses] (fun _ => absentHeader) ⟨0x8086, 0x1234⟩ fuel = none) ∧
      ¬ EnumeratesRight [allBuses] (fun _ => absentHeader) ⟨1, 0xFF, 0xFF⟩ 4 ∧
      pcieConfigurationRead (pciExpressInit [laterBuses]) 0 1 0 0 ≠ laterBuses.address 1 0 0 ∧
      ¬ ∀ table space classQuery max idQuery,
        ReadsRight table ∧ EnumeratesRight table space classQuery max ∧
        FindsRight table space idQuery := by
  have hwrong : pcieConfigurationRead (pciExpressInit [laterBuses]) 0 1 0 0 ≠
      laterBuses.address 1 0 0 := by
    decide
  refine ⟨fun fuel => ?_, ?_, hwrong, fun hall => hwrong ?_⟩
  · have hnone : foundIn [allBuses] (fun _ => absentHeader) ⟨0x8086, 0x1234⟩ 0 = [] :=
      List.eq_nil_iff_forall_not_mem.mpr fun f hf => absent_identified _ _ f (mem_foundIn.mp hf).2.2
    have hloop := allBuses_addressed.find_endless (by decide) rfl rfl rfl hnone fuel
    have hrange : List.range (pciExpressInit [allBuses]).numDeviceConfigs = [0] := rfl
    rw [pcieFindDevice, if_neg (by decide), hrange, forEach?, hloop]
    rfl
  · rw [allBuses_addressed.enumeratesRight_iff]
    rintro (hq | hfilled)
    · cases hq
    · have hlength := hfilled 0 allBuses rfl rfl
      rw [List.filter_eq_nil_iff.mpr fun f _ => absent_matches _ _ f] at hlength
      exact absurd hlength (by decide)
  · exact (hall [laterBuses] (fun _ => absentHeader) ⟨1, 0xFF, 0xFF⟩ 4 ⟨0x8086, 0x1234⟩).1 0
      laterBuses rfl 1
      (DeviceConfig.mem_buses.mpr (by decide)) 0 (by decide) 0 (by decide)

end DevOs.Pci
