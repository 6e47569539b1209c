import DevOs.Pci.Ranges

/-!
# The enumeration of PCI Express functions

`PcieEnumerateDevices` stores the first functions of a class. In a range that ends with the bus 255
it goes on until there is no room left, and stores functions again that are stored already.
-/

namespace DevOs.Pci

open Loops Collected

/-- The parameters of `PcieEnumerateDevices` -/
structure ClassQuery where
  pciClass : ℕ
  pciSubClass : ℕ
  programInterface : ℕ
deriving DecidableEq, Repr

def ClassQuery.accepts (q : ClassQuery) (h : FunctionHeader) : Bool :=
  h.deviceClass = q.pciClass && (q.pciSubClass = 0xFF || h.deviceSubclass = q.pciSubClass) &&
    (q.programInterface = 0xFF || h.programInterface = q.programInterface)

section

variable (table : List DeviceConfig) (space : ConfigurationSpace)

/-- One function. Its pointer is not `NULL`, for the one to the first function of the device is
not. -/
def enumerateFunction (q : ClassQuery) (f : PcieFunction) (c : Collection PcieFunction) :
    Collection PcieFunction × Bool :=
  if c.left = 0 then (c, true)
  else
    let h := space (pointer table f)
    if h.headerType = 0xFF then (c, false)
    else if q.accepts h then (⟨c.stored ++ [f], c.left - 1⟩, false) else (c, false)

def enumerateDevice (q : ClassQuery) (k bus device : ℕ) (c : Collection PcieFunction) :
    Collection PcieFunction × Bool :=
  if c.left = 0 then (c, true)
  else
    let first := pointer table ⟨k, bus, device, 0⟩
    if first = 0 ∨ (space first).headerType = 0xFF then (c, false)
    else
      let numFunctions := if (space first).headerType.testBit 7 then 8 else 1
      forEach (fun function => enumerateFunction table space q ⟨k, bus, device, function⟩)
        (List.range numFunctions) c

def enumerateBus (q : ClassQuery) (k bus : ℕ) (c : Collection PcieFunction) :
    Collection PcieFunction × Bool :=
  if c.left = 0 then (c, true) else forEach (enumerateDevice table space q k bus) (List.range 32) c

/-- `PcieEnumerateDevices`: what is returned, and the functions whose pointers are stored. -/
def pcieEnumerateDevices (q : ClassQuery) (max fuel : ℕ) : Option (Bool × List PcieFunction) :=
  if max = 0 ∨ q.pciClass = 0xFF then some (false, [])
  else
    (forEach? (forBuses table (enumerateBus table space q) fuel)
      (List.range (pciExpressInit table).numDeviceConfigs) ⟨[], max⟩).map fun r =>
      (true, r.1.stored)

def OfDevice (f : PcieFunction) : Bool :=
  Present table space { f with function := 0 } && (f.function = 0 ||
    (space (functionAddress table { f with function := 0 })).headerType.testBit 7)

/-- The function is one of a device and of the class. The class `0xFF` is no class. -/
def Matches (q : ClassQuery) (f : PcieFunction) : Bool :=
  q.pciClass ≠ 0xFF && OfDevice table space f && Present table space f &&
    q.accepts (space (functionAddress table f))

/-- The enumeration ends, and stores the first functions that match, each once. -/
def EnumeratesRight (q : ClassQuery) (max : ℕ) : Prop :=
  ∃ fuel result stored, pcieEnumerateDevices table space q max fuel = some (result, stored) ∧
    stored.Nodup ∧
    stored = ((allFunctions table).filter (Matches table space q)).take max

def Enumerable (q : ClassQuery) (max : ℕ) : Prop :=
  q.pciClass = 0xFF ∨ ∀ k c, table[k]? = some c → c.endPciBusNumber = 255 →
    max ≤ (((List.range (k + 1)).flatMap (functionsOf table)).filter (Matches table space q)).length

end

variable {table : List DeviceConfig} {space : ConfigurationSpace} {c : DeviceConfig}
    {k bus device function : ℕ}
  {q : ClassQuery} {f : PcieFunction}

def matchesOf (table : List DeviceConfig) (space : ConfigurationSpace) (q : ClassQuery)
    (k bus device : ℕ) :
    List PcieFunction :=
  ((List.range 8).map fun function => ⟨k, bus, device, function⟩).filter (Matches table space q)

theorem enumerateFunction_collects (q : ClassQuery) (f : PcieFunction) :
    Collects (enumerateFunction table space q f)
    (if (space (pointer table f)).headerType ≠ 0xFF ∧
      q.accepts (space (pointer table f)) = true then [f]
      else []) := by
  refine Collects.guard fun c hc => ?_
  dsimp only
  by_cases habsent : (space (pointer table f)).headerType = 0xFF
  · rw [if_pos habsent, if_neg (fun h => h.1 habsent)]
    exact ⟨c.add_nil.symm, fun h => absurd h Bool.false_ne_true⟩
  · rw [if_neg habsent]
    by_cases haccepts : q.accepts (space (pointer table f)) = true
    · rw [if_pos haccepts, if_pos ⟨habsent, haccepts⟩]
      obtain ⟨n, hn⟩ := Nat.exists_eq_succ_of_ne_zero hc
      refine ⟨?_, fun h => absurd h Bool.false_ne_true⟩
      rw [Collection.add, hn, List.take_succ_cons, List.take_nil, List.length_singleton]
    · rw [if_neg haccepts, if_neg (fun h => haccepts h.2)]
      exact ⟨c.add_nil.symm, fun h => absurd h Bool.false_ne_true⟩

def matchItem (table : List DeviceConfig) (space : ConfigurationSpace) (q : ClassQuery)
    (f : PcieFunction) :
    List PcieFunction := if Matches table space q f then [f] else []

theorem matchesOf_eq : matchesOf table space q k bus device =
    (List.range 8).flatMap fun function => matchItem table space q ⟨k, bus, device, function⟩ :=
  filter_map_eq_flatMap _ _ _

theorem matchItem_of_absent (h : Present table space { f with function := 0 } = false) :
    matchItem table space q f = [] := by
  refine if_neg ?_
  rw [Matches, OfDevice, h, Bool.false_and, Bool.and_false, Bool.false_and, Bool.false_and]
  exact Bool.false_ne_true

theorem matchItem_of_single (hf : f.function ≠ 0)
    (h : (space (functionAddress table { f with function := 0 })).headerType.testBit 7 = false) :
    matchItem table space q f = [] := by
  refine if_neg ?_
  rw [Matches, OfDevice, decide_eq_false hf, h, Bool.or_self, Bool.and_false, Bool.and_false,
    Bool.false_and, Bool.false_and]
  exact Bool.false_ne_true

theorem enumerateFunction_matchItem (hq : q.pciClass ≠ 0xFF)
    (hpointer : pointer table f = functionAddress table f) (haddress : functionAddress table f ≠ 0)
    (hdevice : OfDevice table space f = true) :
    Collects (enumerateFunction table space q f) (matchItem table space q f) := by
  have hitem : (if (space (pointer table f)).headerType ≠ 0xFF ∧
    q.accepts (space (pointer table f)) = true then [f]
      else []) = matchItem table space q f := by
    refine if_congr ?_ rfl rfl
    rw [hpointer, Matches, Present, hdevice, decide_eq_true hq, decide_eq_true haddress]
    simp only [Bool.true_and, Bool.and_eq_true, decide_eq_true_eq]
  rw [← hitem]
  exact enumerateFunction_collects q f

theorem Addressed.enumerateDevice_collects (h : Addressed table) (hc : table[k]? = some c)
    (hbus : bus ∈ c.buses) (hd : device < 32) (hq : q.pciClass ≠ 0xFF) :
    Collects (enumerateDevice table space q k bus device) (matchesOf table space q k bus device) :=
  by
  have hmem (function : ℕ) (hf : function < 8) :
      (⟨k, bus, device, function⟩ : PcieFunction) ∈ functionsOf table k :=
    mem_functionsOf.mpr ⟨rfl, c, hc, hbus, hd, hf⟩
  have hfirst := h.pointer_eq (hmem 0 (by decide))
  rw [matchesOf_eq]
  refine Collects.guard fun e he => ?_
  dsimp only
  rw [hfirst]
  by_cases habsent : functionAddress table ⟨k, bus, device, 0⟩ = 0 ∨
      (space (functionAddress table ⟨k, bus, device, 0⟩)).headerType = 0xFF
  · have hnot : Present table space ⟨k, bus, device, 0⟩ = false := by
      rw [Present]
      rcases habsent with h0 | h0
      · rw [h0]
        rfl
      · rw [h0, Bool.and_eq_false_iff]
        exact Or.inr rfl
    have hnone : ((List.range 8).flatMap fun function =>
        matchItem table space q ⟨k, bus, device, function⟩) = [] :=
      List.flatMap_eq_nil_iff.mpr fun _ _ => matchItem_of_absent hnot
    rw [if_pos habsent, hnone]
    exact ⟨e.add_nil.symm, fun h => absurd h Bool.false_ne_true⟩
  · obtain ⟨hnull, hheader⟩ := not_or.mp habsent
    have hpresent : Present table space ⟨k, bus, device, 0⟩ = true := by
      rw [Present, decide_eq_true hnull, decide_eq_true hheader]
      rfl
    have hfunction (function : ℕ) (hf : function < 8) (hown : function = 0 ∨
        (space (functionAddress table ⟨k, bus, device, 0⟩)).headerType.testBit 7 = true) :
        Collects (enumerateFunction table space q ⟨k, bus, device, function⟩)
          (matchItem table space q ⟨k, bus, device, function⟩) := by
      refine enumerateFunction_matchItem hq (h.pointer_eq (hmem function hf))
        (h.address_ne_zero (hmem function hf) hnull) ?_
      rw [OfDevice, hpresent, Bool.true_and, Bool.or_eq_true, decide_eq_true_eq]
      exact hown
    rw [if_neg habsent]
    by_cases hmulti : (space (functionAddress table ⟨k, bus, device, 0⟩)).headerType.testBit 7 =
      true
    · rw [if_pos hmulti]
      exact Collects.forEach (fun function hf => hfunction function (List.mem_range.mp hf)
        (Or.inr hmulti)) e
    · rw [if_neg hmulti]
      have hsplit : List.range 8 = List.range 1 ++ List.range' 1 7 := rfl
      have hothers : ((List.range' 1 7).flatMap fun function =>
          matchItem table space q ⟨k, bus, device, function⟩) = [] := by
        refine List.flatMap_eq_nil_iff.mpr fun function hf =>
          matchItem_of_single ?_ (Bool.eq_false_iff.mpr hmulti)
        exact Nat.ne_of_gt (List.mem_range'_1.mp hf).1
      rw [hsplit, List.flatMap_append, hothers, List.append_nil]
      refine Collects.forEach (fun function hf => ?_) e
      have hzero : function < 1 := List.mem_range.mp hf
      exact hfunction function (by omega) (Or.inl (by omega))

def matchesIn (table : List DeviceConfig) (space : ConfigurationSpace) (q : ClassQuery) (k : ℕ) :
    List PcieFunction := (functionsOf table k).filter (Matches table space q)

theorem matchesIn_eq (hc : table[k]? = some c) : matchesIn table space q k =
    c.buses.flatMap fun bus => (List.range 32).flatMap fun device =>
      matchesOf table space q k bus device := by
  rw [matchesIn, functionsOf, hc]
  dsimp only
  rw [List.filter_flatMap]
  refine List.flatMap_congr fun bus _ => ?_
  rw [List.filter_flatMap]
  rfl

theorem Addressed.enumerateBus_collects (h : Addressed table) (hc : table[k]? = some c)
    (hbus : bus ∈ c.buses) (hq : q.pciClass ≠ 0xFF) : Collects (enumerateBus table space q k bus)
      ((List.range 32).flatMap fun device => matchesOf table space q k bus device) :=
  Collects.guard fun e _ => Collects.forEach (fun _ hd =>
    h.enumerateDevice_collects hc hbus (List.mem_range.mp hd) hq) e

theorem Addressed.pass_collects (h : Addressed table) (hc : table[k]? = some c)
    (hq : q.pciClass ≠ 0xFF) :
    Collects (forEach (enumerateBus table space q k) c.buses) (matchesIn table space q k) := by
  rw [matchesIn_eq hc]
  exact Collects.forEach fun bus hbus => h.enumerateBus_collects hc hbus hq

theorem Addressed.range_collects (h : Addressed table) (hq : q.pciClass ≠ 0xFF) (k : ℕ) :
    Collects (forEach (enumerateBus table space q k) (busesAt table k))
      (matchesIn table space q k) := by
  rw [busesAt]
  cases hc : table[k]? with
  | none =>
    rw [matchesIn, functionsOf, hc]
    exact fun c => ⟨c.add_nil.symm, fun h => absurd h Bool.false_ne_true⟩
  | some c => exact h.pass_collects hc hq

theorem Addressed.ranges_collect (h : Addressed table) (hq : q.pciClass ≠ 0xFF) (ks : List ℕ) :
    Collects (forEach (fun k => forEach (enumerateBus table space q k) (busesAt table k)) ks)
      (ks.flatMap (matchesIn table space q)) :=
  Collects.forEach fun k _ => h.range_collects hq k

theorem filter_functions (ks : List ℕ) :
    (ks.flatMap (functionsOf table)).filter (Matches table space q) =
    ks.flatMap (matchesIn table space q) := List.filter_flatMap

theorem Addressed.filled (h : Addressed table) (hq : q.pciClass ≠ 0xFF) {rest : List ℕ}
    (hc : table[k]? = some c) (hzero : c.startPciBusNumber = 0) (hend : c.endPciBusNumber = 255)
    {e : Collection PcieFunction} (hfull : e.left ≤ (matchesIn table space q k).length) :
    ∃ b, forEach? (forBuses table (enumerateBus table space q) (2 ^ 9)) (k :: rest) e =
      some (e.add (matchesIn table space q k), b) := by
  obtain ⟨hpass, hagain⟩ :=
    @forBuses_endless table c k _ (enumerateBus table space q) hc hzero hend e
  obtain ⟨hcollected, -⟩ := @Addressed.pass_collects table space c k q h hc hq e
  have hleft : (forEach (enumerateBus table space q k) c.buses e).1.left = 0 := by
    rw [hcollected, Collection.left_add]
    omega
  have hrun : ∃ r, forBuses table (enumerateBus table space q) (2 ^ 9) k e = some r ∧ r.2 = true ∧
      r.1 = e.add (matchesIn table space q k) := by
    have hfuel : 2 ^ 9 = 255 + 1 + 2 ^ 8 := rfl
    rw [hfuel]
    cases hreturn : (forEach (enumerateBus table space q k) c.buses e).2 with
    | true => exact ⟨_, hpass hreturn (255 + 1), hreturn, hcollected⟩
    | false =>
      refine ⟨(_, true), (hagain hreturn (255 + 1)).trans ?_, rfl, hcollected⟩
      rw [upTo, if_pos (Nat.zero_le 255), enumerateBus, if_pos hleft, if_pos rfl]
  obtain ⟨r, hr, hreturn, hadded⟩ := hrun
  refine ⟨r.2, ?_⟩
  rw [forEach?, hr, Option.bind_some, if_pos hreturn, ← hadded]

/-- With room left, a range that ends with the bus 255 is gone through until a function is stored
again. -/
theorem Addressed.again (h : Addressed table) (hq : q.pciClass ≠ 0xFF) {rest : List ℕ}
    (hc : table[k]? = some c) (hzero : c.startPciBusNumber = 0) (hend : c.endPciBusNumber = 255)
    {e : Collection PcieFunction} (hroom : (matchesIn table space q k).length < e.left) {fuel : ℕ}
    {r : Collection PcieFunction × Bool}
    (hr : forEach? (forBuses table (enumerateBus table space q) fuel) (k :: rest) e = some r) :
    ¬ r.1.stored.Nodup := by
  obtain ⟨-, hagain⟩ := @forBuses_endless table c k _ (enumerateBus table space q) hc hzero hend e
  obtain ⟨hcollected, hreturned⟩ := @Addressed.pass_collects table space c k q h hc hq e
  have hleft : (forEach (enumerateBus table space q k) c.buses e).1.left ≠ 0 := by
    rw [hcollected, Collection.left_add]
    omega
  have hreturn : (forEach (enumerateBus table space q k) c.buses e).2 = false :=
    Bool.eq_false_iff.mpr fun hreturn => hleft (hreturned hreturn)
  have hbuses (bus : ℕ) (hbus : bus < 2 ^ 8) : bus ∈ c.buses := by
    rw [DeviceConfig.mem_buses, hzero, hend]
    omega
  rw [forEach?] at hr
  obtain ⟨t, ht, hrest⟩ := Option.bind_eq_some_iff.mp hr
  have hloop := forBuses_mono ht (2 ^ 8)
  rw [hagain hreturn fuel] at hloop
  -- what is stored from now on is stored already
  obtain ⟨htrue, ⟨l, hl, hadd⟩, hzero⟩ := upTo_rule
    (I := fun d => ∃ l, (∀ f ∈ l, f ∈ matchesIn table space q k) ∧
      d = (forEach (enumerateBus table space q k) c.buses e).1.add l)
    (Q := fun d => (∃ l, (∀ f ∈ l, f ∈ matchesIn table space q k) ∧
      d = (forEach (enumerateBus table space q k) c.buses e).1.add l) ∧ d.left = 0) rfl
    (fun bus hbus d hd => by
      obtain ⟨l, hl, hd⟩ := hd
      obtain ⟨hbus', hreturned'⟩ :=
        @Addressed.enumerateBus_collects table space c k bus q h hc (hbuses bus hbus) hq d
      have hnext : ∃ l, (∀ f ∈ l, f ∈ matchesIn table space q k) ∧
          (enumerateBus table space q k bus d).1 =
            (forEach (enumerateBus table space q k) c.buses e).1.add l := by
        refine ⟨_, fun f hf => ?_, hbus'.trans (by rw [hd, Collection.add_add])⟩
        rcases List.mem_append.mp hf with hf | hf
        · exact hl f hf
        · rw [matchesIn_eq hc]
          exact List.mem_flatMap.mpr ⟨bus, hbuses bus hbus, hf⟩
      split_ifs with hd'
      · exact ⟨hnext, hreturned' hd'⟩
      · exact hnext)
    (by decide) ⟨[], fun _ hf => absurd hf List.not_mem_nil, (Collection.add_nil _).symm⟩ hloop
  rw [if_pos htrue] at hrest
  obtain rfl := Option.some.inj hrest
  have hne : l ≠ [] := by
    rintro rfl
    rw [hadd, Collection.add_nil] at hzero
    exact hleft hzero
  obtain ⟨f, l, rfl⟩ := List.exists_cons_of_ne_nil hne
  obtain ⟨n, hn⟩ := Nat.exists_eq_succ_of_ne_zero hleft
  intro hnodup
  rw [hadd, Collection.stored_add, hn, List.take_succ_cons] at hnodup
  have hin : f ∈ (forEach (enumerateBus table space q k) c.buses e).1.stored := by
    rw [hcollected, Collection.stored_add, List.take_of_length_le (Nat.le_of_lt hroom)]
    exact List.mem_append_right _ (hl f List.mem_cons_self)
  exact List.disjoint_of_nodup_append hnodup hin List.mem_cons_self

theorem enumerate_refused (space : ConfigurationSpace) {max : ℕ} (h : max = 0 ∨ q.pciClass = 0xFF) :
    EnumeratesRight table space q max := by
  refine ⟨0, false, [], if_pos h, List.nodup_nil, ?_⟩
  rcases h with rfl | h
  · rw [List.take_zero]
  · have hnone : (allFunctions table).filter (Matches table space q) = [] := by
      refine List.filter_eq_nil_iff.mpr fun f _ => ?_
      rw [Matches, decide_eq_false (not_not.mpr h), Bool.false_and, Bool.false_and, Bool.false_and]
      exact Bool.false_ne_true
    rw [hnone, List.take_nil]

/-- What is stored when all ranges have been gone through or the room is filled. -/
theorem Addressed.stored_right (h : Addressed table) {max : ℕ} (l rest : List ℕ)
    (hl : List.range (pciExpressInit table).numDeviceConfigs = l ++ rest)
    (hfull : rest = [] ∨ max ≤ (l.flatMap (matchesIn table space q)).length) :
    ((⟨[], max⟩ : Collection PcieFunction).add (l.flatMap (matchesIn table space q))).stored =
      ((allFunctions table).filter (Matches table space q)).take max := by
  rw [h.allFunctions_eq, filter_functions, hl, List.flatMap_append, Collection.stored_add,
    List.nil_append]
  rcases hfull with rfl | hfull
  · rw [List.flatMap_nil, List.append_nil]
  · rw [List.take_append_of_le_length hfull]

theorem Addressed.front (h : Addressed table) (hq : q.pciClass ≠ 0xFF) {ks : List ℕ}
    (hks : ∀ k ∈ ks, Ordinary table k) (e : Collection PcieFunction) :
    ∃ b : Bool, (b = true → (e.add (ks.flatMap (matchesIn table space q))).left = 0) ∧
      ∀ fuel rest, forEach? (forBuses table (enumerateBus table space q) (fuel + 2 ^ 9))
        (ks ++ rest) e =
        if b then some (e.add (ks.flatMap (matchesIn table space q)), true)
        else forEach? (forBuses table (enumerateBus table space q) (fuel + 2 ^ 9)) rest
          (e.add (ks.flatMap (matchesIn table space q))) := by
  obtain ⟨hadded, hreturned⟩ := @Addressed.ranges_collect table space q h hq ks e
  refine ⟨_, fun hb => hadded ▸ hreturned hb, fun fuel rest => ?_⟩
  rw [forRanges_append hks, ← hadded]
  split_ifs with hb
  · rw [← hb]
  · rfl

theorem enumerable_iff {max : ℕ} (hq : q.pciClass ≠ 0xFF) (hc : table[k]? = some c)
    (hend : c.endPciBusNumber = 255) (hordinary : ∀ j ∈ List.range k, Ordinary table j) :
    Enumerable table space q max ↔
      max ≤ ((List.range k).flatMap (matchesIn table space q)).length +
        (matchesIn table space q k).length := by
  have hupto : ((List.range (k + 1)).flatMap (matchesIn table space q)).length =
      ((List.range k).flatMap (matchesIn table space q)).length +
      (matchesIn table space q k).length := by
    rw [List.range_succ, List.flatMap_append, List.length_append, List.flatMap_singleton]
  constructor
  · intro he
    rw [← hupto, ← filter_functions]
    exact he.resolve_left hq k c hc hend
  · intro hle
    refine Or.inr fun j c' hc' hend' => ?_
    have hkj : k ≤ j := Nat.not_lt.mp fun hlt => hordinary j (List.mem_range.mpr hlt) c' hc' hend'
    obtain ⟨d, rfl⟩ := Nat.exists_eq_add_of_le hkj
    rw [filter_functions, Nat.add_right_comm, List.range_add, List.flatMap_append,
      List.length_append]
    omega

theorem Addressed.enumerates_endless (h : Addressed table) (hq : q.pciClass ≠ 0xFF) {max : ℕ}
    (hmax : max ≠ 0) {rest : List ℕ} (hc : table[k]? = some c) (hzero : c.startPciBusNumber = 0)
    (hend : c.endPciBusNumber = 255) (hordinary : ∀ j ∈ List.range k, Ordinary table j)
    (hrange : List.range (pciExpressInit table).numDeviceConfigs = List.range k ++ k :: rest) :
    EnumeratesRight table space q max ↔
      max ≤ ((List.range k).flatMap (matchesIn table space q)).length +
        (matchesIn table space q k).length := by
  have hrun (fuel : ℕ) : pcieEnumerateDevices table space q max fuel =
      (forEach? (forBuses table (enumerateBus table space q) fuel) (List.range k ++ k :: rest)
        ⟨[], max⟩).map fun r => (true, r.1.stored) := by
    rw [← hrange]
    exact if_neg fun hrefused => hrefused.elim hmax hq
  obtain ⟨b, hb, hfront⟩ := @Addressed.front table space q h hq _ hordinary ⟨[], max⟩
  have hleft : ((⟨[], max⟩ : Collection PcieFunction).add
    ((List.range k).flatMap (matchesIn table space q))).left =
      max - ((List.range k).flatMap (matchesIn table space q)).length := rfl
  rw [hleft] at hb
  constructor
  · rintro ⟨fuel, result, stored, hruns, hdistinct, -⟩
    by_contra hroom
    rw [hrun] at hruns
    obtain ⟨r, hr, hr'⟩ := Option.map_eq_some_iff.mp hruns
    obtain ⟨-, rfl⟩ := Prod.mk.inj hr'
    have hlonger := forEach?_mono (fun x t r hx => forBuses_mono hx (2 ^ 9)) hr
    have hnot : ¬ b = true := fun hb' => by
      have := hb hb'
      omega
    rw [hfront, if_neg hnot] at hlonger
    refine h.again hq hc hzero hend ?_ hlonger hdistinct
    rw [hleft]
    omega
  · intro hle
    have hnodup : (((allFunctions table).filter (Matches table space q)).take max).Nodup :=
      ((allFunctions_nodup table).filter _).sublist (List.take_sublist _ _)
    have hfuel : 2 ^ 9 = 0 + 2 ^ 9 := (Nat.zero_add _).symm
    refine ⟨2 ^ 9, true, _, ?_, hnodup, rfl⟩
    rw [hrun, hfuel, hfront]
    split_ifs with hb'
    · have hfull := hb hb'
      rw [Option.map_some, h.stored_right (List.range k) (k :: rest) hrange (Or.inr (by omega))]
    · obtain ⟨b', hfilled⟩ := @Addressed.filled table space c k q h hq rest hc hzero hend
        ((⟨[], max⟩ : Collection PcieFunction).add
        ((List.range k).flatMap (matchesIn table space q)))
        (by rw [hleft]; omega)
      have hsingle : (List.range k).flatMap (matchesIn table space q) ++ matchesIn table space q k =
          (List.range k ++ [k]).flatMap (matchesIn table space q) := by
        rw [List.flatMap_append, List.flatMap_singleton]
      rw [← hfuel, hfilled, Option.map_some, Collection.add_add, hsingle,
        h.stored_right (List.range k ++ [k]) rest (by rw [List.append_assoc, hrange]; rfl)]
      rw [← hsingle, List.length_append]
      exact Or.inr hle

theorem Addressed.enumeratesRight_iff (h : Addressed table) (max : ℕ) :
    EnumeratesRight table space q max ↔ Enumerable table space q max := by
  by_cases hmax : max = 0
  · refine iff_of_true (enumerate_refused space (Or.inl hmax)) (Or.inr fun k c _ _ => ?_)
    rw [hmax]
    exact Nat.zero_le _
  by_cases hq : q.pciClass = 0xFF
  · exact iff_of_true (enumerate_refused space (Or.inr hq)) (Or.inl hq)
  by_cases hends : ∃ k : ℕ, ∃ c : DeviceConfig, table[k]? = some c ∧ c.endPciBusNumber = 255
  · obtain ⟨k, c, rest, hc, hzero, hend, hordinary, hrange⟩ := h.split hends
    rw [h.enumerates_endless hq hmax hc hzero hend hordinary hrange,
      enumerable_iff hq hc hend hordinary]
  · have hordinary (k : ℕ) (_ : k ∈ List.range (pciExpressInit table).numDeviceConfigs) :
        Ordinary table k :=
      fun c hc hend => hends ⟨k, c, hc, hend⟩
    have hnodup : (((allFunctions table).filter (Matches table space q)).take max).Nodup :=
      ((allFunctions_nodup table).filter _).sublist (List.take_sublist _ _)
    refine iff_of_true ⟨2 ^ 9, true, _, ?_, hnodup, rfl⟩
      (Or.inr fun k c hc hend => absurd ⟨k, c, hc, hend⟩ hends)
    have hfuel : 2 ^ 9 = 0 + 2 ^ 9 := (Nat.zero_add _).symm
    rw [pcieEnumerateDevices, if_neg (fun hrefused => hrefused.elim hmax hq), hfuel,
      forRanges_eq hordinary, Option.map_some, (h.ranges_collect hq _ _).1,
      h.stored_right _ [] (List.append_nil _).symm (Or.inl rfl)]

end DevOs.Pci
