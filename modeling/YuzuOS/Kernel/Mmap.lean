import YuzuOS.Kernel.Align
import YuzuOS.Kernel.Dlist
import YuzuOS.Kernel.Physical

/-! The memory areas of a process, without the page tables and without files
behind areas. A call is `none` when it follows `NULL` or does not return. -/

namespace YuzuOS.Kernel
open YuzuOS.Library

/-- The addresses of list heads: `NULL`, the one in the `process_mm`, and those
in the areas, which are numbered in the order of their allocation. -/
inductive VmNode
  | null
  | head
  | vm (vm : Nat)
  deriving DecidableEq

structure ProcessVm where
  start : Nat
  stop : Nat

structure ProcessMm where
  brk : Nat
  brkEnd : Nat
  cache : Nat
  links : Links VmNode
  vms : Nat → ProcessVm
  vmCount : Nat

def pageAlign (addr : Nat) : Nat := alignUp addr physMmBlock

namespace ProcessMm

def setVm (mm : ProcessMm) (vm : Nat) (content : ProcessVm) : ProcessMm :=
  { mm with vms := Function.update mm.vms vm content }

def setStop (mm : ProcessMm) (vm stop : Nat) : ProcessMm := mm.setVm vm { mm.vms vm with stop }

/-- `calloc` of an area. -/
def allocVm (mm : ProcessMm) : Nat × ProcessMm :=
  (mm.vmCount, { mm.setVm mm.vmCount ⟨0, 0⟩ with
    links := (mm.links.setNext (.vm mm.vmCount) .null).setPrev (.vm mm.vmCount) .null
    vmCount := mm.vmCount + 1 })

/-- `memcpy` of an area, its list head included. -/
def copyVm (mm : ProcessMm) (dest source : Nat) : ProcessMm :=
  { mm.setVm dest (mm.vms source) with
    links := (mm.links.setNext (.vm dest) (mm.links.next (.vm source))).setPrev (.vm dest) (mm.links.prev (.vm source)) }

end ProcessMm

/-- The loop of `mmap_find_unmapped_vm`: the links and `addr_found` it leaves. -/
def mmapFindUnmappedLoop (mm : ProcessMm) (vma addr len : Nat) : Nat → VmNode → Option (Links VmNode × Nat)
  | 0, _ => none
  | _ + 1, .null => none
  | _ + 1, .head => some (mm.links, addr)
  | turns + 1, .vm iter =>
    if (addr + len) % 2 ^ 32 ≤ (mm.vms iter).start then some (dlistAdd (.vm iter) .head mm.links, addr)
    else match mm.links.next (.vm iter) with
      | .null => none
      | .head =>
        if (mm.vms iter).stop ≤ addr then some (dlistAdd (.vm vma) (.vm iter) mm.links, addr)
        else mmapFindUnmappedLoop mm vma addr len turns .head
      | .vm next =>
        if (mm.vms iter).stop ≤ addr ∧ (addr + len) % 2 ^ 32 ≤ (mm.vms next).start then
          some (dlistAdd (.vm vma) (.vm iter) mm.links, addr)
        else if ((mm.vms iter).stop ≤ addr ∧ addr < (mm.vms next).start) ∧
            len ≤ ((mm.vms next).start + 2 ^ 32 - (mm.vms iter).stop) % 2 ^ 32 then
          some (dlistAdd (.vm vma) (.vm iter) mm.links, ((mm.vms next).start + 2 ^ 32 - len) % 2 ^ 32)
        else mmapFindUnmappedLoop mm vma addr len turns (.vm next)

/-- The address that a search starts from. -/
def mmapFindAddr (mm : ProcessMm) (addr : Nat) : Nat :=
  if addr = 0 ∨ addr < mm.brkEnd then max mm.cache mm.brkEnd else addr

/-- A list of more entries than there are areas does not end. -/
def mmapFindUnmappedVm (addr len : Nat) (mm : ProcessMm) : Option (Nat × ProcessMm) :=
  let (vma, mm) := mm.allocVm
  let addr := mmapFindAddr mm addr
  let len := pageAlign len
  let placed := if dlistIsEmpty .head mm.links then some (dlistAdd (.vm vma) .head mm.links, addr)
    else mmapFindUnmappedLoop mm vma addr len (mm.vmCount + 1) (mm.links.next .head)
  placed.map fun (links, addrFound) =>
    let mm := { mm with links }
    if addrFound ≠ 0 then
      (vma, { mm.setVm vma ⟨addrFound, (addrFound + len) % 2 ^ 32⟩ with cache := (addrFound + len) % 2 ^ 32 })
    else (vma, mm)

def mmapFindVmLoop (mm : ProcessMm) (addr : Nat) : Nat → VmNode → Option (Option Nat)
  | 0, _ => none
  | _ + 1, .null => none
  | _ + 1, .head => some none
  | turns + 1, .vm iter =>
    if (mm.vms iter).start ≤ addr ∧ addr < (mm.vms iter).stop then some (some iter)
    else mmapFindVmLoop mm addr turns (mm.links.next (.vm iter))

def mmapFindVm (addr : Nat) (mm : ProcessMm) : Option (Option Nat) :=
  mmapFindVmLoop mm addr (mm.vmCount + 1) (mm.links.next .head)

/-- The freed area keeps what it holds: its memory is not handed out again. -/
def mmapExpandVm (vm address : Nat) (mm : ProcessMm) : Option ProcessMm :=
  let address := pageAlign address
  if address ≤ (mm.vms vm).stop then some mm
  else match mm.links.next (.vm vm) with
    | .null => none
    | .head => some (mm.setStop vm address)
    | .vm next =>
      if address ≤ (mm.vms next).start then some (mm.setStop vm address)
      else
        let mm := { mm with links := dlistRemove .null (.vm vm) mm.links }
        (mmapFindUnmappedVm 0 ((address + 2 ^ 32 - (mm.vms vm).start) % 2 ^ 32) mm).map fun (vmExpand, mm) =>
          mm.copyVm vm vmExpand

/-- With no file. The results are the address and the area that serves the request. -/
def mmapMap (addr len : Nat) (mm : ProcessMm) : Option (Nat × Nat × ProcessMm) :=
  let addrAligned := alignDown addr physMmBlock
  (mmapFindVm addrAligned mm).bind fun found =>
    let served := match found with
      | none => mmapFindUnmappedVm addrAligned len mm
      | some vm =>
        if (mm.vms vm).stop < (addr + len) % 2 ^ 32 then (mmapExpandVm vm ((addr + len) % 2 ^ 32) mm).map fun mm => (vm, mm)
        else some (vm, mm)
    served.map fun (vm, mm) => (if addr ≠ 0 then addr else (mm.vms vm).start, vm, mm)

/-- The result is zero; beside it stands the area that serves the request, if any. -/
def mmapBrk (addr len : Nat) (mm : ProcessMm) : Option (Int × Option Nat × ProcessMm) :=
  (mmapFindVm addr mm).bind fun found =>
    let newBrk := pageAlign ((addr + len) % 2 ^ 32)
    let mm := { mm with brk := newBrk }
    match found with
    | none => some (0, none, mm)
    | some vm =>
      if newBrk ≤ (mm.vms vm).stop then some (0, some vm, mm)
      else
        let (newVm, mm) := mm.allocVm
        let mm := mm.copyVm newVm vm
        let grown := if mm.brk < newBrk then mmapExpandVm newVm newBrk mm else some (mm.setStop newVm newBrk)
        grown.map fun mm => (0, some vm, mm.copyVm vm newVm)

end YuzuOS.Kernel
