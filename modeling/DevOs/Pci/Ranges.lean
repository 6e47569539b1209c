import DevOs.Pci.Express
import Mathlib.Data.Nat.Find

/-!
# Loops over the ranges of buses

The buses of a range are counted with one byte up to the last one inclusive. So a range that ends
with the bus 255 is gone through again and again, until the loop returns.
-/

namespace DevOs.Pci

open Loops Collected

abbrev ConfigurationSpace := ℕ → FunctionHeader

section

variable (table : List DeviceConfig) (space : ConfigurationSpace)

def pointer (f : PcieFunction) : ℕ :=
  pcieConfigurationRead (pciExpressInit table) f.segment f.bus f.device f.function

/-- The buses of a range. Nothing is returned when the loop does not end within `fuel` buses. -/
def forBuses {σ : Type} (body : ℕ → ℕ → σ → σ × Bool) (fuel k : ℕ) (s : σ) : Option (σ × Bool) :=
  match table[k]? with
  | none => some (s, false)
  | some c => upTo (body k) (2 ^ 8) c.endPciBusNumber fuel c.startPciBusNumber s

/-- The functions of the range `k`, by bus, device and function. -/
def functionsOf (k : ℕ) : List PcieFunction :=
  match table[k]? with
  | none => []
  | some c => c.buses.flatMap fun bus => (List.range 32).flatMap fun device =>
      (List.range 8).map fun function =>
      ⟨k, bus, device, function⟩

def allFunctions : List PcieFunction := (List.range table.length).flatMap (functionsOf table)

def functionAddress (f : PcieFunction) : ℕ :=
  match table[f.segment]? with
  | none => 0
  | some c => c.address f.bus f.device f.function

/-- The function has a header. There is none at `NULL`. -/
def Present (f : PcieFunction) : Bool :=
  functionAddress table f ≠ 0 && (space (functionAddress table f)).headerType ≠ 0xFF

end

variable {table : List DeviceConfig} {space : ConfigurationSpace} {c : DeviceConfig}
    {k bus device function : ℕ}
  {f : PcieFunction}

theorem mem_functionsOf : f ∈ functionsOf table k ↔
    f.segment = k ∧ ∃ c, table[k]? = some c ∧ f.bus ∈ c.buses ∧ f.device < 32 ∧ f.function < 8 := by
  rw [functionsOf]
  cases hk : table[k]? with
  | none => simp
  | some c =>
    obtain ⟨segment, bus, device, function⟩ := f
    simp only [List.mem_flatMap, List.mem_map, List.mem_range, PcieFunction.mk.injEq,
      Option.some.injEq, exists_eq_left']
    constructor
    · rintro ⟨b, hb, d, hd, e, he, rfl, rfl, rfl, rfl⟩
      exact ⟨rfl, hb, hd, he⟩
    · rintro ⟨rfl, hb, hd, he⟩
      exact ⟨bus, hb, device, hd, function, he, rfl, rfl, rfl, rfl⟩

theorem Addressed.pointer_eq (h : Addressed table) (hf : f ∈ functionsOf table k) :
    pointer table f = functionAddress table f := by
  obtain ⟨rfl, c, hc, hbus, hd, hfun⟩ := mem_functionsOf.mp hf
  rw [pointer, functionAddress, hc]
  exact h.readsRight f.segment c hc f.bus hbus f.device hd f.function hfun

theorem Addressed.address_ne_zero (h : Addressed table) (hf : f ∈ functionsOf table k)
    (h0 : functionAddress table { f with function := 0 } ≠ 0) : functionAddress table f ≠ 0 := by
  obtain ⟨rfl, c, hc, hbus, hd, hfun⟩ := mem_functionsOf.mp hf
  obtain ⟨hle, hle'⟩ := DeviceConfig.mem_buses.mp hbus
  obtain ⟨-, hzero, hclear⟩ := h f.segment c hc (Nat.le_trans hle hle')
  rw [functionAddress] at h0 ⊢
  dsimp only at h0
  rw [hc] at h0 ⊢
  dsimp only at h0 ⊢
  rw [c.address_eq hd (by decide), ← Nat.add_assoc] at h0
  rw [c.address_eq hd hfun, ← Nat.add_assoc]
  have hlow : (c.baseAddress + (f.bus - c.startPciBusNumber) * 2 ^ 20) % 2 ^ 20 < 2 ^ 12 := by
    rw [Nat.add_mul_mod_self_right]
    exact hclear
  generalize c.baseAddress + (f.bus - c.startPciBusNumber) * 2 ^ 20 = y at h0 hlow ⊢
  intro hnull
  have hdvd : 2 ^ 20 ∣ y + (f.device * 8 + f.function) * 2 ^ 12 :=
    Nat.dvd_trans (Nat.pow_dvd_pow 2 (by decide)) (Nat.dvd_of_mod_eq_zero hnull)
  have hfirst : f.device * 8 + 0 = f.device * 8 + f.function := by
    omega
  rw [hfirst] at h0
  exact h0 hnull

theorem numDeviceConfigs_le (table : List DeviceConfig) :
    (pciExpressInit table).numDeviceConfigs ≤ table.length := by
  have hle : table.length * 16 % 2 ^ 16 ≤ table.length * 16 := Nat.mod_le _ _
  refine Nat.div_le_of_le_mul ?_
  rw [Nat.mul_comm 16 table.length]
  exact hle

theorem Addressed.functionsOf_eq_nil (h : Addressed table)
    (hk : (pciExpressInit table).numDeviceConfigs ≤ k) :
    functionsOf table k = [] := by
  refine List.eq_nil_iff_forall_not_mem.mpr fun f hf => ?_
  obtain ⟨-, c, hc, hbus, -⟩ := mem_functionsOf.mp hf
  obtain ⟨hle, hle'⟩ := DeviceConfig.mem_buses.mp hbus
  exact absurd (h k c hc (Nat.le_trans hle hle')).1 (Nat.not_lt.mpr hk)

theorem Addressed.allFunctions_eq (h : Addressed table) : allFunctions table =
    (List.range (pciExpressInit table).numDeviceConfigs).flatMap (functionsOf table) := by
  obtain ⟨n, hn⟩ := Nat.exists_eq_add_of_le (numDeviceConfigs_le table)
  rw [allFunctions, hn, List.range_add, List.flatMap_append]
  have hrest : ((List.range n).map fun i => (pciExpressInit table).numDeviceConfigs + i).flatMap
    (functionsOf table) =
      [] := by
    refine List.flatMap_eq_nil_iff.mpr fun k hk => ?_
    obtain ⟨i, -, rfl⟩ := List.mem_map.mp hk
    exact h.functionsOf_eq_nil (Nat.le_add_right _ i)
  rw [hrest, List.append_nil]

theorem functionsOf_nodup (k : ℕ) : (functionsOf table k).Nodup := by
  rw [functionsOf]
  cases table[k]? with
  | none => exact List.nodup_nil
  | some c =>
    dsimp only
    have hbuses : c.buses.Nodup := List.nodup_range' 1 Nat.one_pos
    refine nodup_flatMap PcieFunction.bus hbuses (fun bus _ => ?_) fun bus _ f hf => ?_
    · refine nodup_flatMap PcieFunction.device List.nodup_range (fun device _ => ?_)
        fun device _ f hf => ?_
      · exact List.nodup_range.map fun a b hab => (PcieFunction.mk.inj hab).2.2.2
      · obtain ⟨function, -, rfl⟩ := List.mem_map.mp hf
        rfl
    · obtain ⟨device, -, hf⟩ := List.mem_flatMap.mp hf
      obtain ⟨function, -, rfl⟩ := List.mem_map.mp hf
      rfl

theorem allFunctions_nodup (table : List DeviceConfig) : (allFunctions table).Nodup :=
  nodup_flatMap PcieFunction.segment List.nodup_range (fun k _ => functionsOf_nodup k)
    fun _ _ _ hf => (mem_functionsOf.mp hf).1

def busesAt (table : List DeviceConfig) (k : ℕ) : List ℕ :=
  match table[k]? with
  | none => []
  | some c => c.buses

def Ordinary (table : List DeviceConfig) (k : ℕ) : Prop :=
  ∀ c, table[k]? = some c → c.endPciBusNumber ≠ 255

theorem forBuses_eq {σ : Type} {body : ℕ → ℕ → σ → σ × Bool} (hk : Ordinary table k)
    (fuel : ℕ) (s : σ) : forBuses table body (fuel + 2 ^ 9) k s =
      some (forEach (body k) (busesAt table k) s) := by
  rw [forBuses, busesAt]
  cases hc : table[k]? with
  | none => rfl
  | some c =>
    have hlt := c.end_lt
    have hne := hk c hc
    dsimp only
    by_cases hle : c.startPciBusNumber ≤ c.endPciBusNumber + 1
    · have hn : c.startPciBusNumber + (c.endPciBusNumber + 1 - c.startPciBusNumber) =
          c.endPciBusNumber + 1 := by
        omega
      have hfuel : fuel + 2 ^ 9 =
        fuel + (2 ^ 9 - 1 - (c.endPciBusNumber + 1 - c.startPciBusNumber)) +
          (c.endPciBusNumber + 1 - c.startPciBusNumber) + 1 := by
        omega
      rw [hfuel, upTo_eq_forEach (by omega) _ hn, DeviceConfig.buses]
    · have hnone : c.buses = [] := by
        rw [DeviceConfig.buses, show c.endPciBusNumber + 1 - c.startPciBusNumber = 0 by omega]
        rfl
      rw [hnone, show fuel + 2 ^ 9 = fuel + 511 + 1 by omega, upTo, if_neg (by omega)]
      rfl

theorem forBuses_mono {σ : Type} {body : ℕ → ℕ → σ → σ × Bool} {fuel : ℕ} {s : σ} {r : σ × Bool}
    (hr : forBuses table body fuel k s = some r) (d : ℕ) :
    forBuses table body (fuel + d) k s = some r := by
  rw [forBuses] at hr ⊢
  cases hc : table[k]? with
  | none =>
    rw [hc] at hr
    exact hr
  | some c =>
    rw [hc] at hr
    exact upTo_mono hr d

/-- A range from the bus zero to the bus 255 is gone through again when the first pass has not
returned. -/
theorem forBuses_endless {σ : Type} {body : ℕ → ℕ → σ → σ × Bool} (hc : table[k]? = some c)
    (hstart : c.startPciBusNumber = 0) (hend : c.endPciBusNumber = 255) (s : σ) :
    ((forEach (body k) c.buses s).2 = true → ∀ fuel, forBuses table body (fuel + 2 ^ 8) k s =
      some (forEach (body k) c.buses s)) ∧
    ((forEach (body k) c.buses s).2 = false → ∀ fuel, forBuses table body (fuel + 2 ^ 8) k s =
      upTo (body k) (2 ^ 8) 255 fuel 0 (forEach (body k) c.buses s).1) := by
  have hbuses : c.buses = List.range' 0 (2 ^ 8) := by
    rw [DeviceConfig.buses, hstart, hend]
    rfl
  have hpass := @upTo_pass _ (body k) (2 ^ 8) 255 0 s (2 ^ 8) (Nat.zero_add (2 ^ 8)) (by decide) rfl
  rw [hbuses]
  refine ⟨fun h fuel => ?_, fun h fuel => ?_⟩
  · rw [forBuses, hc]
    dsimp only
    rw [hstart, hend]
    exact hpass.1 h fuel
  · rw [forBuses, hc]
    dsimp only
    rw [hstart, hend]
    exact hpass.2 h fuel

theorem forRanges_eq {σ : Type} {body : ℕ → ℕ → σ → σ × Bool} {ks : List ℕ}
    (hks : ∀ k ∈ ks, Ordinary table k) (fuel : ℕ) (s : σ) :
    forEach? (forBuses table body (fuel + 2 ^ 9)) ks s =
      some (forEach (fun k => forEach (body k) (busesAt table k)) ks s) :=
  forEach?_eq (fun k hk t => forBuses_eq (hks k hk) fuel t) s

theorem forRanges_append {σ : Type} {body : ℕ → ℕ → σ → σ × Bool} {ks : List ℕ}
    (hks : ∀ k ∈ ks, Ordinary table k) (fuel : ℕ) (rest : List ℕ) (s : σ) :
    forEach? (forBuses table body (fuel + 2 ^ 9)) (ks ++ rest) s =
      if (forEach (fun k => forEach (body k) (busesAt table k)) ks s).2 then
        some (forEach (fun k => forEach (body k) (busesAt table k)) ks s)
      else forEach? (forBuses table body (fuel + 2 ^ 9)) rest
        (forEach (fun k => forEach (body k) (busesAt table k)) ks s).1 := by
  rw [forEach?_append, forRanges_eq hks, Option.bind_some]

theorem range_split {n : ℕ} (hk : k < n) :
    List.range n = List.range k ++ k :: List.range' (k + 1) (n - (k + 1)) := by
  have happend := @List.range'_append_1 0 k (n - (k + 1) + 1)
  rw [Nat.zero_add, List.range'_succ, show k + (n - (k + 1) + 1) = n by omega] at happend
  rw [List.range_eq_range', List.range_eq_range', happend]

/-- The first range that ends with the bus 255, and the ordinary ones in front of it. -/
theorem Addressed.split (h : Addressed table)
    (hends : ∃ k : ℕ, ∃ c : DeviceConfig, table[k]? = some c ∧ c.endPciBusNumber = 255) :
    ∃ k : ℕ, ∃ c : DeviceConfig, ∃ rest, table[k]? = some c ∧ c.startPciBusNumber = 0 ∧
    c.endPciBusNumber = 255 ∧
      (∀ j ∈ List.range k, Ordinary table j) ∧
      List.range (pciExpressInit table).numDeviceConfigs = List.range k ++ k :: rest := by
  classical
  obtain ⟨c, hc, hend⟩ := Nat.find_spec hends
  have hstart := c.start_lt
  obtain ⟨hk, hzero, -⟩ := h _ c hc (by omega)
  refine ⟨Nat.find hends, c,
    List.range' (Nat.find hends + 1) ((pciExpressInit table).numDeviceConfigs -
    (Nat.find hends + 1)), hc, hzero, hend, fun j hj c' hc' hend' => ?_, ?_⟩
  · exact Nat.find_min hends (List.mem_range.mp hj) ⟨c', hc', hend'⟩
  · exact range_split hk

end DevOs.Pci
