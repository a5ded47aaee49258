import YuzuOS.Kernel.Elf32

/-! Replacing the program of a process. `argv` and `envp` are the strings that the
arrays point to; the copies in the kernel are these strings again. `none` is a
page fault, the use of a missing layout, or a call that does not return. -/

namespace YuzuOS.Kernel
open YuzuOS.Library

namespace UserProcess

/-- `virt_mm_addr_unmap` -/
def unmapAddr (virtual : Nat) (process : UserProcess) : UserProcess :=
  { process with mapped := Function.update process.mapped (virtual / physMmBlock) false }

/-- The loop of `virt_mm_addr_range_unmap`. -/
def unmapRange : Nat → Nat → Nat → UserProcess → Option UserProcess
  | 0, _, _, _ => none
  | turns + 1, stop, addr, process =>
    if addr < stop then unmapRange turns stop ((addr + physMmBlock) % 2 ^ 32) (process.unmapAddr addr)
    else some process

/-- A store to user memory, by the kernel in this process. -/
def store (address len : Nat) (bytes : Nat → BitVec 8) (process : UserProcess) : Option UserProcess :=
  if process.Present address len then some { process with memory := process.memory.write address len bytes } else none

def store32 (address value : Nat) (process : UserProcess) : Option UserProcess :=
  process.store address 4 (Memory.wordByte value)

end UserProcess

/-- The loop of `elf32_unload`, which looks one entry ahead. -/
def elf32UnloadLoop : Nat → VmNode → VmNode → UserProcess → Option UserProcess
  | 0, _, _, _ => none
  | turns + 1, iter, next, process =>
    match iter with
    | .null => none
    | .head => some process
    | .vm vm =>
      (UserProcess.unmapRange UserProcess.pageTurns (process.mm.vms vm).stop (process.mm.vms vm).start process).bind fun process =>
        let links := dlistRemove .null (.vm vm) process.mm.links
        if next = .null then none else elf32UnloadLoop turns next (links.next next) { process with mm.links := links }

/-- No area is left, so that areas are numbered anew. -/
def elf32Unload (process : UserProcess) : Option UserProcess :=
  let first := process.mm.links.next .head
  if first = .null then none
  else (elf32UnloadLoop (process.mm.vmCount + 1) first (process.mm.links.next first) process).map fun process =>
    { process with
      brkStart := 0
      mm := { brk := 0, brkEnd := 0, cache := 0, links := dlistHeadInit .head process.mm.links, vms := process.mm.vms, vmCount := 0 } }

/-- The process and what its first thread gets; `entered` are the stack and the entry
with which user mode is entered. -/
structure Exec where
  process : UserProcess
  name : List (BitVec 8)
  stackUser : Nat
  entered : Option (Nat × Nat)

/-- The copies of the strings, with their addresses in the array from index `i` on. -/
def execveStrings (array : Nat) : Nat → List (List (BitVec 8)) → UserProcess → Option UserProcess
  | _, [], process => some process
  | i, string :: rest, process =>
    (process.schedProcessSbrk (string.length + 1)).bind fun (copy, process) =>
      (process.store32 (array + 4 * i) copy).bind fun process =>
        (process.store copy string.length fun j => string.getD j 0).bind fun process =>
          execveStrings array (i + 1) rest process

/-- One of the arrays, its room asked for and cleared in bytes. -/
def execveArray (strings : List (List (BitVec 8))) (process : UserProcess) : Option (Nat × UserProcess) :=
  (process.schedProcessSbrk (strings.length + 1)).bind fun (array, process) =>
    (process.store array (strings.length + 1) fun _ => 0).bind fun process =>
      (execveStrings array 0 strings process).map fun process => (array, process)

/-- Up to the result of `elf32_load`; `buffer` is what `virt_fs_read` returns then. -/
def execveLoad (path : List (BitVec 8)) (buffer : Nat) (exec : Exec) : Option (Option Elf32Layout × Exec) :=
  let exec := { exec with name := path }
  (elf32Unload exec.process).bind fun process =>
    (elf32Load buffer process).map fun (elf, load) => (elf, { exec with process := load.process })

/-- `sched_process_execve`. No path returns an error. -/
def schedProcessExecve (path : List (BitVec 8)) (argv envp : List (List (BitVec 8))) (buffer : Nat) (exec : Exec) :
    Option (Int × Exec) :=
  (execveLoad path buffer exec).bind fun (elf, exec) =>
    (execveArray argv exec.process).bind fun (userArgv, process) =>
      (execveArray envp process).bind fun (userEnvp, process) => match elf with
        | none => none
        | some elf =>
          let stackUser := elf.stack
          let stack := (elf.stack + 2 ^ 32 - 4) % 2 ^ 32
          (process.store32 stack userEnvp).bind fun process =>
            let stack := (stack + 2 ^ 32 - 4) % 2 ^ 32
            (process.store32 stack userArgv).bind fun process =>
              let stack := (stack + 2 ^ 32 - 4) % 2 ^ 32
              (process.store32 stack argv.length).map fun process =>
                (0, { exec with process, stackUser, entered := some (stack, elf.entry) })

end YuzuOS.Kernel
