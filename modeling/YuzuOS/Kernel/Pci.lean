import Mathlib.Data.List.FinRange
import Mathlib.Data.BitVec

/-! The scan of the PCI buses. A configuration space gives the register at an address; the
list of devices grows at its tail. The log is left out. -/

namespace YuzuOS.Kernel

/-- The registers by the address that selects them. -/
abbrev PciSpace := BitVec 32 → BitVec 32

def pciBar0 : BitVec 8 := 0x10

def pciDeviceMultiFunc : BitVec 16 := 0x80

def pciInvalidVendorId : BitVec 16 := 0xFFFF

def pciClassCodeBridgeDevice : BitVec 16 := 0x06

def pciSubclassPciToPciBridge : BitVec 16 := 0x04

/-- The function that every device has. -/
abbrev pciFirstFunc : Fin 8 := 0

/-- Where the counter stands behind the functions of a device. -/
abbrev pciLastFunc : Fin 8 := 7

structure PciDevice where
  addr : BitVec 32
  deviceId : BitVec 16
  vendorId : BitVec 16
  bar0 : BitVec 32
  deriving DecidableEq

def pciFieldRead (space : PciSpace) (addr : BitVec 32) (offset : BitVec 8) : BitVec 32 :=
  space (addr ||| (offset &&& 0xFC).setWidth 32)

def pciHdrTypeGet (space : PciSpace) (addr : BitVec 32) : BitVec 16 :=
  let reg := pciFieldRead space addr 0xC
  ((reg >>> 16) &&& 0xFF).setWidth 16

def pciVendorIdGet (space : PciSpace) (addr : BitVec 32) : BitVec 16 :=
  let reg := pciFieldRead space addr 0x0
  (reg &&& 0xFFFF).setWidth 16

def pciAddrGet (bus : BitVec 8) (slot : Fin 32) (func : Fin 8) : BitVec 32 :=
  let lbus := bus.setWidth 32
  let lslot := BitVec.ofNat 32 slot
  let lfunc := BitVec.ofNat 32 func
  (lbus <<< 16) ||| (lslot <<< 11) ||| (lfunc <<< 8) ||| 0x80000000

def pciClassCodeGet (space : PciSpace) (addr : BitVec 32) : BitVec 16 :=
  let reg := pciFieldRead space addr 0x8
  ((reg >>> 24) &&& 0xFF).setWidth 16

def pciSubclassCodeGet (space : PciSpace) (addr : BitVec 32) : BitVec 16 :=
  let reg := pciFieldRead space addr 0x8
  ((reg >>> 16) &&& 0xFF).setWidth 16

def pciDeviceIdGet (space : PciSpace) (addr : BitVec 32) : BitVec 16 :=
  let reg := pciFieldRead space addr 0x0
  ((reg >>> 16) &&& 0xFFFF).setWidth 16

/-- The number of a bus has eight bits. -/
def pciSecondaryBusGet (space : PciSpace) (addr : BitVec 32) : BitVec 8 :=
  let reg := pciFieldRead space addr 0x18
  ((reg >>> 8) &&& 0xFF).setWidth 8

def pciDeviceSet (space : PciSpace) (bus : BitVec 8) (device : Fin 32) (function : Fin 8) (pciList : List PciDevice) :
    List PciDevice :=
  let addr := pciAddrGet bus device function
  let vendorId := pciVendorIdGet space addr
  if vendorId ≠ pciInvalidVendorId then
    let deviceId := pciDeviceIdGet space addr
    let classCode := pciClassCodeGet space addr
    if classCode ≠ pciClassCodeBridgeDevice then
      let bar0 := pciFieldRead space addr pciBar0
      pciList ++ [{ addr := addr, deviceId, vendorId, bar0 }]
    else pciList
  else pciList

/-- `pci_check_func`, with what it calls for the bus behind a bridge. -/
def pciCheckFunc (busScan : BitVec 8 → List PciDevice → Option (List PciDevice)) (space : PciSpace) (bus : BitVec 8)
    (device : Fin 32) (func : Fin 8) (pciList : List PciDevice) : Option (List PciDevice) :=
  let pciList := pciDeviceSet space bus device func pciList
  let addr := pciAddrGet bus device func
  let baseClass := pciClassCodeGet space addr
  let subClass := pciSubclassCodeGet space addr
  if baseClass = pciClassCodeBridgeDevice ∧ subClass = pciSubclassPciToPciBridge then busScan (pciSecondaryBusGet space addr) pciList
  else some pciList

/-- The loop of `pci_bus_scan` through the devices that are left. The counter `func` is one for
all of them: it is seven behind the functions of a device. -/
def pciDeviceLoop (busScan : BitVec 8 → List PciDevice → Option (List PciDevice)) (space : PciSpace) (bus : BitVec 8) :
    List (Fin 32) → Fin 8 → List PciDevice → Option (List PciDevice)
  | [], _, pciList => some pciList
  | device :: rest, func, pciList =>
    let type := pciHdrTypeGet space (pciAddrGet bus device func)
    if type &&& pciDeviceMultiFunc ≠ 0 then
      ((List.finRange 7).foldlM (fun pciList func => pciCheckFunc busScan space bus device func.castSucc pciList) pciList).bind
        (pciDeviceLoop busScan space bus rest pciLastFunc)
    else (pciCheckFunc busScan space bus device pciFirstFunc pciList).bind (pciDeviceLoop busScan space bus rest func)

/-- `pci_bus_scan`, which has no result when it goes deeper than the first argument. -/
def pciBusScan (space : PciSpace) : Nat → BitVec 8 → List PciDevice → Option (List PciDevice)
  | 0, _, _ => none
  | depth + 1, bus, pciList => pciDeviceLoop (pciBusScan space depth) space bus (List.finRange 32) pciFirstFunc pciList

end YuzuOS.Kernel
