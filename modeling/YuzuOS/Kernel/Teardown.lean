import YuzuOS.Kernel.Elf32
import YuzuOS.Kernel.Fork
import YuzuOS.Kernel.Virtual

/-! How the memory areas of a process are given up, at its end and before a new
program. `none` is a page fault, a call that does not return, or the use of an area
that has been taken off its list. -/

namespace YuzuOS.Kernel
open YuzuOS.Library

def mapShared : Nat := 0x01

/-- The processes, the active directory, and the areas that were taken off their lists,
the last one first. -/
structure AddressSpace where
  state : ProcessState
  paging : Paging
  removed : List Nat

namespace AddressSpace

/-- `dlist_entry_next`. -/
def entryNext (node : MmNode) (space : AddressSpace) : Option MmNode :=
  match node with
  | .null => none
  | .head _ => some (space.state.links.next node)
  | .vm vm => if vm ∈ space.removed then none else some (space.state.links.next node)

def removeVm (vm : Nat) (space : AddressSpace) : AddressSpace :=
  { space with state.links := dlistRemove .null (.vm vm) space.state.links, removed := vm :: space.removed }

def rangeUnmap (start stop : Nat) (space : AddressSpace) : Option AddressSpace :=
  (virtMmAddrRangeUnmap start stop space.paging).map fun paging => { space with paging }

end AddressSpace

/-- The rest of a `dlist_foreach_entry_safe` over the areas of `mm`, and the areas that
`body` is run for. -/
def foreachVmLoop (body : Nat → AddressSpace → Option AddressSpace) (mm : Nat) :
    Nat → MmNode → MmNode → AddressSpace → Option (List Nat × AddressSpace)
  | 0, _, _, _ => none
  | _ + 1, .null, _, _ => none
  | _ + 1, .head other, _, space => if other = mm then some ([], space) else none
  | turns + 1, .vm iter, next, space =>
    if iter ∈ space.removed then none
    else (body iter space).bind fun space => (space.entryNext next).bind fun ahead =>
      (foreachVmLoop body mm turns next ahead space).map fun (visited, space) => (iter :: visited, space)

/-- A list does not have more areas than there are. -/
def foreachVm (body : Nat → AddressSpace → Option AddressSpace) (mm : Nat) (space : AddressSpace) :
    Option (List Nat × AddressSpace) :=
  (space.entryNext (.head mm)).bind fun first => (space.entryNext first).bind fun next =>
    foreachVmLoop body mm (space.state.vmCount + 1) first next space

/-- One turn of the loop of `elf32_unload`. -/
def elf32UnloadVm (iter : Nat) (space : AddressSpace) : Option AddressSpace :=
  let vm := space.state.vms iter
  if vm.file = none ∧ vm.flags &&& mapShared = 0 then (space.rangeUnmap vm.start vm.stop).map (AddressSpace.removeVm iter)
  else some space

/-- `elf32_unload` for the process of `mm`. -/
def elf32UnloadMm (mm : Nat) (space : AddressSpace) : Option (List Nat × AddressSpace) :=
  (foreachVm elf32UnloadVm mm space).map fun (visited, space) =>
    (visited, { space with
      state.mms := Function.update space.state.mms mm ⟨0, 0, 0, 0⟩
      state.links := dlistHeadInit (.head mm) ((space.state.links.setNext (.head mm) .null).setPrev (.head mm) .null) })

/-- One turn of the loop of `sched_exit`. The area is freed. -/
def schedExitVm (iter : Nat) (space : AddressSpace) : Option AddressSpace :=
  let vm := space.state.vms iter
  (if vm.file = none then space.rangeUnmap vm.start vm.stop else some space).map (AddressSpace.removeVm iter)

/-- What `sched_exit` does with the memory of the process and the stack of its thread. -/
def schedExitMm (process thread : Nat) (space : AddressSpace) : Option (List Nat × AddressSpace) :=
  (foreachVm schedExitVm (space.state.processes process).mm space).bind fun (visited, space) =>
    let stackUser := (space.state.threads thread).stackUser
    (space.rangeUnmap ((stackUser + 2 ^ 32 - schedStackSize) % 2 ^ 32) stackUser).map fun space => (visited, space)

end YuzuOS.Kernel
