import YuzuOS.Kernel.UserProcess

/-! Loading of ELF32 executables from the buffer that `virt_fs_read` returns. -/

namespace YuzuOS.Kernel
open YuzuOS.Library

def elfErrorNotElfFile : Int := 1
def elfErrorNotSupportedPlatform : Int := 2
def elfErrorNotSupportedEncoding : Int := 3
def elfErrorNotSupportedType : Int := 4
def elfErrorWrongVersion : Int := 5

def schedHeapSize : Nat := 0x20000
def schedStackSize : Nat := 0x2000
def heapUserTop : Nat := 0x40000000

def ptLoad : Nat := 1

/-- `sizeof(struct elf32_phdr)` -/
def elf32PhdrSize : Nat := 32

structure Elf32Layout where
  stack : Nat
  entry : Nat
  deriving DecidableEq

/-- A load with the stretches that it has read and written, the latest first. -/
structure Elf32Load where
  process : UserProcess
  reads : List (Nat × Nat)
  writes : List (Nat × Nat)

namespace Elf32Load

def read (address len : Nat) (load : Elf32Load) : Option Elf32Load :=
  if load.process.Present address len then some { load with reads := (address, len) :: load.reads } else none

def write (address len : Nat) (load : Elf32Load) : Option Elf32Load :=
  if load.process.Present address len then some { load with writes := (address, len) :: load.writes } else none

def read8 (address : Nat) (load : Elf32Load) : Option (Nat × Elf32Load) :=
  (load.read address 1).map fun load => ((load.process.memory address).toNat, load)

def read16 (address : Nat) (load : Elf32Load) : Option (Nat × Elf32Load) :=
  (load.read address 2).map fun load => (load.process.memory.load16 address, load)

def read32 (address : Nat) (load : Elf32Load) : Option (Nat × Elf32Load) :=
  (load.read address 4).map fun load => (load.process.memory.load32 address, load)

def memset (address : Nat) (byte : BitVec 8) (len : Nat) (load : Elf32Load) : Option Elf32Load :=
  (load.write address len).map fun load =>
    { load with process.memory := load.process.memory.fill address len byte }

def memcpy (dest source len : Nat) (load : Elf32Load) : Option Elf32Load :=
  (load.read source len).bind fun load => (load.write dest len).map fun load =>
    { load with process.memory := load.process.memory.copy dest source len }

def mmapMap (addr len : Nat) (load : Elf32Load) : Option (Nat × Elf32Load) :=
  (load.process.mmapMap addr len).map fun (result, process) => (result, { load with process })

end Elf32Load

/-- The bytes of `ident` that are checked, in order, and the error of a mismatch. -/
def elfIdentChecks : List (Nat × Nat × Int) :=
  [(0, 0x7F, elfErrorNotElfFile), (1, 0x45, elfErrorNotElfFile), (2, 0x4C, elfErrorNotElfFile),
    (3, 0x46, elfErrorNotElfFile), (4, 1, elfErrorNotSupportedPlatform), (5, 1, elfErrorNotSupportedEncoding),
    (6, 1, elfErrorWrongVersion)]

def elfVerifyIdent (eheader : Nat) : List (Nat × Nat × Int) → Elf32Load → Option (Int × Elf32Load)
  | [], load => some (0, load)
  | (index, expected, error) :: rest, load =>
    (load.read8 (eheader + index)).bind fun (byte, load) =>
      if byte = expected then elfVerifyIdent eheader rest load else some (-error, load)

def elfVerify (eheader : Nat) (load : Elf32Load) : Option (Int × Elf32Load) :=
  (elfVerifyIdent eheader elfIdentChecks load).bind fun (result, load) =>
    if result ≠ 0 then some (result, load)
    else (load.read16 (eheader + 18)).bind fun (machine, load) =>
      if machine ≠ 3 then some (-elfErrorNotSupportedPlatform, load)
      else (load.read16 (eheader + 16)).bind fun (type, load) =>
        if type ≠ 2 then some (-elfErrorNotSupportedType, load) else some (0, load)

/-- One turn of the loop, after its condition. The branches on the flags map
alike, and the header is read again after the bytes are cleared. -/
def elf32LoadSegment (buffer pheader : Nat) (load : Elf32Load) : Option Elf32Load :=
  (load.read32 pheader).bind fun (type, load) =>
    if type ≠ ptLoad then some load
    else (load.read32 (pheader + 24)).bind fun (_, load) =>
      (load.read32 (pheader + 8)).bind fun (vaddr, load) =>
      (load.read32 (pheader + 20)).bind fun (memsz, load) =>
      (load.mmapMap vaddr memsz).bind fun (_, load) =>
      (load.read32 (pheader + 8)).bind fun (vaddr, load) =>
      (load.read32 (pheader + 20)).bind fun (memsz, load) =>
      (load.memset vaddr 0 memsz).bind fun load =>
      (load.read32 (pheader + 8)).bind fun (vaddr, load) =>
      (load.read32 (pheader + 4)).bind fun (offset, load) =>
      (load.read32 (pheader + 16)).bind fun (filesz, load) =>
      load.memcpy vaddr ((buffer + offset) % 2 ^ 32) filesz

/-- The end of the program headers, read again before every turn. -/
def elf32LoadStop (buffer : Nat) (load : Elf32Load) : Option (Nat × Elf32Load) :=
  (load.read32 (buffer + 28)).bind fun (phoff, load) =>
    (load.read16 (buffer + 42)).bind fun (phentsize, load) =>
      (load.read16 (buffer + 44)).map fun (phnum, load) => ((buffer + phoff + phentsize * phnum) % 2 ^ 32, load)

def elf32LoadLoop (buffer : Nat) : Nat → Nat → Elf32Load → Option Elf32Load
  | 0, _, _ => none
  | turns + 1, pheader, load =>
    if pheader = 0 then some load
    else (elf32LoadStop buffer load).bind fun (stop, load) =>
      if pheader < stop then
        (elf32LoadSegment buffer pheader load).bind fun load =>
          elf32LoadLoop buffer turns ((pheader + elf32PhdrSize) % 2 ^ 32) load
      else some load

/-- After as many turns a header comes back. -/
def elf32Turns : Nat := 2 ^ 27 + 1

/-- The end of `elf32_load`: heap, stack and layout. -/
def elf32LoadLayout (buffer : Nat) (load : Elf32Load) : Option (Elf32Layout × Elf32Load) :=
  (load.mmapMap 0 schedHeapSize).bind fun (heap, load) =>
    let load := { load with process.mm.brk := heap, process.mm.brkEnd := heapUserTop, process.brkStart := heap }
    (load.read32 (buffer + 24)).bind fun (entry, load) =>
      (load.mmapMap 0 schedStackSize).map fun (stack, load) =>
        ({ stack := (stack + schedStackSize) % 2 ^ 32, entry }, load)

/-- No layout is `NULL`. -/
def elf32Load (buffer : Nat) (process : UserProcess) : Option (Option Elf32Layout × Elf32Load) :=
  if buffer = 0 then some (none, ⟨process, [], []⟩)
  else (elfVerify buffer ⟨process, [], []⟩).bind fun (result, load) =>
    if result ≠ 0 then some (none, load)
    else (load.read32 (buffer + 28)).bind fun (phoff, load) =>
      if phoff = 0 then some (none, load)
      else (load.read32 (buffer + 28)).bind fun (phoff, load) =>
        (elf32LoadLoop buffer elf32Turns ((buffer + phoff) % 2 ^ 32) load).bind fun load =>
          (elf32LoadLayout buffer load).map fun (layout, load) => (some layout, load)

end YuzuOS.Kernel
