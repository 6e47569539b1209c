import DevOs.Lib.Bytes

/-!
# Configuration space behind two ports

The configuration space of all functions is one buffer, in which the header of a function takes 256
bytes. The port `0xCF8` is a register that holds an address, and the port `0xCFC` is a window on the
aligned double word at this address. `IoPciRead` and `IoPciWrite` go through the window, of the bus
number they keep four bits, and a device whose configuration is mapped is read and written in place.
-/

namespace DevOs.Pci

open Bytes

/-- A function of a device on a bus. -/
structure FunctionId where
  bus : Fin 256
  device : Fin 32
  function : Fin 8
deriving DecidableEq, Repr

def FunctionId.place (f : FunctionId) : ℕ := f.bus * 2 ^ 16 + f.device * 2 ^ 11 + f.function * 2 ^ 8

/-- The function that the ports address: the bus number is taken modulo 16. -/
def FunctionId.addressed (f : FunctionId) : FunctionId :=
  { f with bus := ⟨f.bus % 16, Nat.lt_of_lt_of_le (Nat.mod_lt _ (by decide)) (by decide)⟩ }

/-- The address register, and configuration space. -/
structure Ports where
  address : ℕ
  space : Buffer

namespace Ports

/-- `OutPort(0xCF8, Address)` -/
def select (p : Ports) (address : ℕ) : Ports := { p with address := address % 2 ^ 32 }

def window (p : Ports) : ℕ := p.address % 2 ^ 24 / 4 * 4

/-- `InPortB`, `InPortW` and `InPort` at `0xCFC`, for 1, 2 and 4 bytes. Without the enable bit no
function answers. -/
def inData (p : Ports) (n : ℕ) : ℕ :=
  if p.address.testBit 31 then getLE p.space p.window n else 256 ^ n - 1

/-- `OutPortB`, `OutPortW` and `OutPort` at `0xCFC`. -/
def outData (p : Ports) (n v : ℕ) : Ports :=
  if p.address.testBit 31 then { p with space := setLE p.space p.window n v } else p

end Ports

/-- The value of `Address` for an offset. -/
def configAddress (f : FunctionId) (offset : ℕ) : ℕ :=
  let b := (f.bus : ℕ) &&& 0xF
  let d := (f.device : ℕ) &&& 0x3F
  let fn := (f.function : ℕ) &&& 0xF
  0x80000000 ||| (offset ||| fn <<< 8 ||| d <<< 11 ||| b <<< 16)

def ioPciRead8 (p : Ports) (f : FunctionId) (offset : ℕ) : ℕ × Ports :=
  let advance := offset &&& 3
  let p := p.select (configAddress f (offset &&& 0xFFFC))
  if advance ≠ 0 then (p.inData 4 >>> (advance <<< 3) &&& 0xFF, p) else (p.inData 1, p)

def ioPciRead16 (p : Ports) (f : FunctionId) (offset : ℕ) : ℕ × Ports :=
  let advance := offset &&& 3
  let address := configAddress f (offset &&& 0xFFFC)
  let p := p.select address
  if advance ≠ 0 then
    let val := p.inData 2 >>> (advance <<< 3)
    if advance = 3 then
      let ret := val &&& 0xFF
      let p := p.select (address + 4)
      ((ret ||| p.inData 1 <<< 8) % 2 ^ 16, p)
    else (val &&& 0xFFFF, p)
  else (p.inData 2, p)

def ioPciRead32 (p : Ports) (f : FunctionId) (offset : ℕ) : ℕ × Ports :=
  let advance := offset &&& 3
  if advance ≠ 0 then
    let (low, p) := ioPciRead16 p f offset
    let (high, p) := ioPciRead16 p f ((offset + 2) % 2 ^ 16)
    (low ||| high <<< 16, p)
  else
    let p := p.select (configAddress f offset)
    (p.inData 4, p)

def ioPciWrite8 (p : Ports) (f : FunctionId) (value offset : ℕ) : Ports :=
  let advance := offset &&& 3
  let p := p.select (configAddress f (offset &&& 0xFFFC &&& 0xFF))
  if advance = 0 then p.outData 1 value
  else p.outData 4 (p.inData 4 ||| value <<< (advance <<< 3) % 2 ^ 32)

def ioPciWrite16 (p : Ports) (f : FunctionId) (value offset : ℕ) : Ports :=
  let advance := offset &&& 3
  let address := configAddress f (offset &&& 0xFFFC &&& 0xFF)
  let p := p.select address
  if advance = 0 then p.outData 2 value
  else
    let p := p.outData 4 (p.inData 4 ||| value <<< (advance <<< 3) % 2 ^ 32)
    if advance = 3 then
      let p := p.select (address + 4)
      p.outData 4 (p.inData 4 ||| value >>> 16)
    else p

def ioPciWrite32 (p : Ports) (f : FunctionId) (value offset : ℕ) : Ports :=
  let advance := offset &&& 3
  if advance = 0 then (p.select (configAddress f (offset &&& 0xFF))).outData 4 value
  else
    let p := ioPciWrite16 p f (value % 2 ^ 16) offset
    ioPciWrite16 p f (value >>> 16) ((offset + 2) % 2 ^ 16)

/-- The part of `DEVICE_OBJECT` that tells how the configuration is reached. -/
structure DeviceObject where
  pciAccessType : ℕ
  location : FunctionId

/-- What the memory at `DeviceConfiguration` shows: the header of the function. -/
def header (space : Buffer) (f : FunctionId) : Buffer := fun i => space (f.place + i)

def pciDeviceConfigurationRead8 (p : Ports) (d : DeviceObject) (offset : ℕ) : ℕ × Ports :=
  if d.pciAccessType = 0 then (getLE (header p.space d.location) offset 1, p)
    else ioPciRead8 p d.location offset

def pciDeviceConfigurationRead16 (p : Ports) (d : DeviceObject) (offset : ℕ) : ℕ × Ports :=
  if d.pciAccessType = 0 then (getLE (header p.space d.location) offset 2, p)
    else ioPciRead16 p d.location offset

def pciDeviceConfigurationRead32 (p : Ports) (d : DeviceObject) (offset : ℕ) : ℕ × Ports :=
  if d.pciAccessType = 0 then (getLE (header p.space d.location) offset 4, p)
    else ioPciRead32 p d.location offset

def pciDeviceConfigurationRead64 (p : Ports) (d : DeviceObject) (offset : ℕ) : ℕ × Ports :=
  if d.pciAccessType = 0 then (getLE (header p.space d.location) offset 8, p)
  else
    let (low, p) := ioPciRead32 p d.location offset
    let (high, p) := ioPciRead32 p d.location ((offset + 4) % 2 ^ 16)
    (low ||| high <<< 32, p)

/-- Writes a number of `n` bytes where the configuration is mapped. -/
def writeMapped (p : Ports) (f : FunctionId) (n value offset : ℕ) : Ports :=
  { p with space := setLE p.space (f.place + offset) n value }

def pciDeviceConfigurationWrite8 (p : Ports) (d : DeviceObject) (value offset : ℕ) : Ports :=
  if d.pciAccessType = 0 then writeMapped p d.location 1 value offset
    else ioPciWrite8 p d.location value offset

def pciDeviceConfigurationWrite16 (p : Ports) (d : DeviceObject) (value offset : ℕ) : Ports :=
  if d.pciAccessType = 0 then writeMapped p d.location 2 value offset
    else ioPciWrite16 p d.location value offset

def pciDeviceConfigurationWrite32 (p : Ports) (d : DeviceObject) (value offset : ℕ) : Ports :=
  if d.pciAccessType = 0 then writeMapped p d.location 4 value offset
    else ioPciWrite32 p d.location value offset

def pciDeviceConfigurationWrite64 (p : Ports) (d : DeviceObject) (value offset : ℕ) : Ports :=
  if d.pciAccessType = 0 then writeMapped p d.location 8 value offset
  else
    let p := ioPciWrite32 p d.location (value % 2 ^ 32) offset
    ioPciWrite32 p d.location (value >>> 32) ((offset + 4) % 2 ^ 16)

end DevOs.Pci
