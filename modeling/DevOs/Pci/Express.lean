import DevOs.Lib.Collected
import Mathlib.Data.Nat.Bitwise

/-!
# Configuration space of PCI Express

The MCFG table says where the functions of each range of buses are mapped. `PcieConfigurationRead`
adds the first bus of the range where it should subtract it, and puts the device and the function
over the address instead of adding them. So it is right for the ranges that begin with the bus zero
at an address whose bits of the device and the function are clear.
-/

namespace DevOs.Pci

/-- `PCI_DEVICE_CONFIG` -/
structure DeviceConfig where
  baseAddress : ℕ
  startPciBusNumber : ℕ
  endPciBusNumber : ℕ
  base_lt : baseAddress < 2 ^ 64
  start_lt : startPciBusNumber < 2 ^ 8
  end_lt : endPciBusNumber < 2 ^ 8

/-- `Mcfg` and `NumDeviceConfigs` -/
structure Pcie where
  mcfg : Option (List DeviceConfig)
  numDeviceConfigs : ℕ

/-- `PciExpressInit`, which gets one table. The length of the table is cut to sixteen bits. -/
def pciExpressInit (table : List DeviceConfig) : Pcie :=
  ⟨some table, table.length * 16 % 2 ^ 16 / 16⟩

/-- The fields of `PCI_CONFIGURATION_HEADER` that are looked at. -/
structure FunctionHeader where
  vendorId : ℕ
  deviceId : ℕ
  programInterface : ℕ
  deviceSubclass : ℕ
  deviceClass : ℕ
  headerType : ℕ
deriving DecidableEq, Repr

/-- `PcieConfigurationRead`, which is zero for `NULL`. -/
def pcieConfigurationRead (p : Pcie) (pcieConfig bus device function : ℕ) : ℕ :=
  match p.mcfg with
  | none => 0
  | some table =>
    if p.numDeviceConfigs ≤ pcieConfig ∨ 32 ≤ device ∨ 8 ≤ function then 0
    else
      match table[pcieConfig]? with
      | none => 0
      | some c =>
        (c.baseAddress + (bus + c.startPciBusNumber) <<< 20) % 2 ^ 64 ||| device <<< 15 |||
          function <<< 12

/-- A function of a range of buses. -/
structure PcieFunction where
  segment : ℕ
  bus : ℕ
  device : ℕ
  function : ℕ
deriving DecidableEq, Repr

def DeviceConfig.buses (c : DeviceConfig) : List ℕ :=
  List.range' c.startPciBusNumber (c.endPciBusNumber + 1 - c.startPciBusNumber)

def DeviceConfig.address (c : DeviceConfig) (bus device function : ℕ) : ℕ :=
  (c.baseAddress + ((bus - c.startPciBusNumber) <<< 20 ||| device <<< 15 ||| function <<< 12)) % 2 ^
    64

/-- Every function that a range of the table has is read where it is mapped. -/
def ReadsRight (table : List DeviceConfig) : Prop :=
  ∀ k c, table[k]? = some c → ∀ bus ∈ c.buses, ∀ device < 32, ∀ function < 8,
    pcieConfigurationRead (pciExpressInit table) k bus device function =
    c.address bus device function

/-- The ranges with buses are among those that are counted, begin with the bus zero, and their
addresses have the bits of the device and the function clear. -/
def Addressed (table : List DeviceConfig) : Prop :=
  ∀ k c, table[k]? = some c → c.startPciBusNumber ≤ c.endPciBusNumber →
    k < (pciExpressInit table).numDeviceConfigs ∧ c.startPciBusNumber = 0 ∧
    c.baseAddress % 2 ^ 20 < 2 ^ 12

variable {table : List DeviceConfig} {c : DeviceConfig} {k bus device function : ℕ}

theorem DeviceConfig.mem_buses :
    bus ∈ c.buses ↔ c.startPciBusNumber ≤ bus ∧ bus ≤ c.endPciBusNumber := by
  rw [buses, List.mem_range'_1]
  omega

theorem deviceBits (hf : function < 8) :
    device <<< 15 ||| function <<< 12 = (device * 8 + function) * 2 ^ 12 := by
  have hor : device <<< 3 ||| function = device * 8 + function := by
    rw [← Nat.shiftLeft_add_eq_or_of_lt (i := 3) hf, Nat.shiftLeft_eq]
  rw [← hor, ← Nat.shiftLeft_eq, Nat.shiftLeft_or_distrib, ← Nat.shiftLeft_add]

theorem or_mul_two_pow (y x n : ℕ) : y ||| x * 2 ^ n = (y / 2 ^ n ||| x) * 2 ^ n + y % 2 ^ n := by
  have hsplit : y = (y / 2 ^ n) <<< n ||| y % 2 ^ n := by
    rw [← Nat.shiftLeft_add_eq_or_of_lt (Nat.mod_lt y (Nat.two_pow_pos n)), Nat.shiftLeft_eq,
      Nat.div_add_mod']
  have hor : y ||| x * 2 ^ n = (y / 2 ^ n ||| x) <<< n ||| y % 2 ^ n := by
    conv_lhs => rw [hsplit]
    rw [← Nat.shiftLeft_eq, Nat.or_assoc, Nat.or_comm (y % 2 ^ n), ← Nat.or_assoc,
      ← Nat.shiftLeft_or_distrib]
  rw [hor, ← Nat.shiftLeft_add_eq_or_of_lt (Nat.mod_lt y (Nat.two_pow_pos n)), Nat.shiftLeft_eq]

theorem or_deviceBits {y x : ℕ} (hy : y % 2 ^ 20 < 2 ^ 12) (hx : x < 2 ^ 8) :
    y ||| x * 2 ^ 12 = y + x * 2 ^ 12 := by
  have hclear : y / 2 ^ 12 = (y / 2 ^ 20) <<< 8 := by
    rw [Nat.shiftLeft_eq]
    omega
  rw [or_mul_two_pow, hclear, ← Nat.shiftLeft_add_eq_or_of_lt hx, Nat.shiftLeft_eq]
  omega

/-- A device and a function that are put over an address whose bits are not clear are not added to
it. -/
theorem or_lt_add {y : ℕ} (hy : 2 ^ 12 ≤ y % 2 ^ 20) : y ||| 255 * 2 ^ 12 < y + 255 * 2 ^ 12 := by
  have hset : y / 2 ^ 12 ||| 255 = y / 2 ^ 20 * 2 ^ 8 + 255 := by
    have hhigh : (y / 2 ^ 12 ||| 255) / 2 ^ 8 = y / 2 ^ 12 / 2 ^ 8 := by
      rw [Nat.or_div_two_pow]
      exact Nat.or_zero _
    have hlow : (y / 2 ^ 12 ||| 255) % 2 ^ 8 = 255 := by
      rw [Nat.or_mod_two_pow]
      have hle : 255 ≤ y / 2 ^ 12 % 2 ^ 8 ||| 255 := Nat.right_le_or
      have hlt : y / 2 ^ 12 % 2 ^ 8 ||| 255 < 2 ^ 8 :=
        Nat.or_lt_two_pow (Nat.mod_lt _ (by decide)) (by decide)
      exact Nat.le_antisymm (Nat.le_of_lt_succ hlt) hle
    omega
  rw [or_mul_two_pow, hset]
  omega

theorem pcieConfigurationRead_eq (hc : table[k]? = some c)
    (hk : k < (pciExpressInit table).numDeviceConfigs) (hd : device < 32) (hf : function < 8) :
    pcieConfigurationRead (pciExpressInit table) k bus device function =
      (c.baseAddress + (bus + c.startPciBusNumber) * 2 ^ 20) % 2 ^ 64 |||
        (device * 8 + function) * 2 ^ 12 := by
  have hin : ¬ ((pciExpressInit table).numDeviceConfigs ≤ k ∨ 32 ≤ device ∨ 8 ≤ function) := by
    omega
  have hmcfg : (pciExpressInit table).mcfg = some table := rfl
  rw [pcieConfigurationRead, hmcfg]
  dsimp only
  rw [if_neg hin, hc]
  dsimp only
  rw [Nat.or_assoc, deviceBits hf, Nat.shiftLeft_eq]

theorem DeviceConfig.address_eq (hd : device < 32) (hf : function < 8) :
    c.address bus device function =
    (c.baseAddress + ((bus - c.startPciBusNumber) * 2 ^ 20 + (device * 8 + function) * 2 ^ 12)) %
      2 ^ 64 := by
  have hlt : (device * 8 + function) * 2 ^ 12 < 2 ^ 20 := by
    omega
  rw [address, Nat.or_assoc, deviceBits hf, ← Nat.shiftLeft_add_eq_or_of_lt hlt, Nat.shiftLeft_eq]

theorem Addressed.readsRight (h : Addressed table) : ReadsRight table := by
  intro k c hc bus hbus device hd function hf
  obtain ⟨hstart, hend⟩ := DeviceConfig.mem_buses.mp hbus
  obtain ⟨hk, hzero, hclear⟩ := h k c hc (Nat.le_trans hstart hend)
  have hbase := c.base_lt
  have hlow : (c.baseAddress + bus * 2 ^ 20) % 2 ^ 64 % 2 ^ 20 < 2 ^ 12 := by
    omega
  rw [pcieConfigurationRead_eq hc hk hd hf, c.address_eq hd hf, hzero, Nat.add_zero, Nat.sub_zero,
    or_deviceBits hlow (by omega)]
  omega

theorem ReadsRight.addressed (h : ReadsRight table) : Addressed table := by
  intro k c hc hle
  have hfirst : c.startPciBusNumber ∈ c.buses := DeviceConfig.mem_buses.mpr ⟨Nat.le_refl _, hle⟩
  have hread := h k c hc _ hfirst
  have hbase := c.base_lt
  have hstart := c.start_lt
  have hk : k < (pciExpressInit table).numDeviceConfigs := by
    by_contra hge
    have hnull (function : ℕ) :
        pcieConfigurationRead (pciExpressInit table) k c.startPciBusNumber 0 function = 0 := by
      rw [pcieConfigurationRead]
      exact if_pos (Or.inl (Nat.not_lt.mp hge))
    have h0 := hread 0 (by decide) 0 (by decide)
    have h1 := hread 0 (by decide) 1 (by decide)
    rw [hnull, c.address_eq (by decide) (by decide), Nat.sub_self] at h0 h1
    omega
  have hzero : c.startPciBusNumber = 0 := by
    have h0 := hread 0 (by decide) 0 (by decide)
    rw [pcieConfigurationRead_eq hc hk (by decide) (by decide),
      c.address_eq (by decide) (by decide)] at h0
    simp only [Nat.zero_mul, Nat.add_zero, Nat.or_zero, Nat.sub_self] at h0
    omega
  refine ⟨hk, hzero, ?_⟩
  by_contra hset
  have hlast := hread 31 (by decide) 7 (by decide)
  have hsame : 31 * 8 + 7 = 255 := rfl
  rw [pcieConfigurationRead_eq hc hk (by decide) (by decide), c.address_eq (by decide) (by decide),
    hzero, hsame] at hlast
  simp only [Nat.zero_mul, Nat.add_zero, Nat.zero_add, Nat.sub_self,
    Nat.mod_eq_of_lt hbase] at hlast
  have hlt := or_lt_add (Nat.not_lt.mp hset)
  have hge : c.baseAddress ≤ c.baseAddress ||| 255 * 2 ^ 12 := Nat.left_le_or
  omega

theorem readsRight_iff : ReadsRight table ↔ Addressed table :=
  ⟨ReadsRight.addressed, Addressed.readsRight⟩

end DevOs.Pci
