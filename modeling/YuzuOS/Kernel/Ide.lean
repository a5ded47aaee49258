import Mathlib.Logic.Function.Basic
import YuzuOS.Kernel.Ext2
import YuzuOS.Kernel.Physical

/-! The driver of the disk over the ports of any disk, and a disk of 2^28 sectors behind them. This one answers
as an ATA disk does to `READ SECTORS` with a 28-bit address: it is busy in front of each sector for as many
reads of the status as it likes. -/

namespace YuzuOS.Kernel
open YuzuOS.Library

def ataRegError : BitVec 8 := 0x01
def ataRegDf : BitVec 8 := 0x20
def ataRegDrq : BitVec 8 := 0x08
def ataRegBusy : BitVec 8 := 0x80

def eNxio : Int := 6

/-- The status at `base_io + 7`, the data port at `base_io` and the registers behind it. -/
structure AtaPorts (Disk : Type) where
  inb : Disk → BitVec 8 × Disk
  inw : Disk → Nat × Disk
  outb : Nat → BitVec 8 → Disk → Disk

namespace AtaPorts

variable {Disk : Type}

def insw (ports : AtaPorts Disk) : Nat → Nat → Memory → Disk → Memory × Disk
  | 0, _, memory, disk => (memory, disk)
  | len + 1, buffer, memory, disk =>
    let (word, disk) := ports.inw disk
    ports.insw len (buffer + 2) (memory.write buffer 2 (Memory.wordByte word)) disk

def ideAtaDelay400ns (ports : AtaPorts Disk) (disk : Disk) : Disk :=
  (ports.inb (ports.inb (ports.inb (ports.inb disk).2).2).2).2

/-- `IDE_POLLING_SUCCESS` is true. `turns` bounds the loop. -/
def ideAtaPolling (ports : AtaPorts Disk) : Nat → Disk → Option (Bool × Disk)
  | 0, _ => none
  | turns + 1, disk =>
    let (status, disk) := ports.inb disk
    if status &&& ataRegBusy = 0 ∨ status &&& ataRegDrq ≠ 0 then some (true, disk)
    else if status &&& ataRegError ≠ 0 ∨ status &&& ataRegDf ≠ 0 then some (false, disk)
    else ports.ideAtaPolling turns disk

/-- One turn of the loop of `ide_ata_read`. -/
def ideAtaReadSector (ports : AtaPorts Disk) (turns buffer : Nat) (memory : Memory) (disk : Disk) :
    Option (Bool × Memory × Disk) :=
  let (memory, disk) := ports.insw 256 buffer memory disk
  (ports.ideAtaPolling turns (ports.ideAtaDelay400ns disk)).map fun (ready, disk) => (ready, memory, disk)

/-- The loop over the sectors that are left. -/
def ideAtaReadLoop (ports : AtaPorts Disk) (turns : Nat) : Nat → Nat → Memory → Disk → Option (Int × Memory × Disk)
  | 0, _, memory, disk => some (0, memory, disk)
  | sectors + 1, buffer, memory, disk =>
    (ports.ideAtaReadSector turns buffer memory disk).bind fun (ready, memory, disk) =>
      if ready then ports.ideAtaReadLoop turns sectors (buffer + 512) memory disk else some (-eNxio, memory, disk)

/-- The registers in front of the command. -/
def ideAtaAddress (ports : AtaPorts Disk) (master : Bool) (lba : BitVec 32) (sectors : BitVec 8) (disk : Disk) : Disk :=
  let disk := ports.outb 6 ((if master then 0xE0 else 0xF0 : BitVec 8) ||| ((lba >>> 24).setWidth 8 &&& 0x0F)) disk
  let disk := ports.outb 1 0x00 (ports.ideAtaDelay400ns disk)
  let disk := ports.outb 2 sectors disk
  let disk := ports.outb 3 (lba.setWidth 8) disk
  let disk := ports.outb 4 ((lba >>> 8).setWidth 8) disk
  ports.outb 5 ((lba >>> 16).setWidth 8) disk

def ideAtaRead (ports : AtaPorts Disk) (turns : Nat) (master : Bool) (buffer : Nat) (lba : BitVec 32) (sectors : BitVec 8)
    (memory : Memory) (disk : Disk) : Option (Int × Memory × Disk) :=
  (ports.ideAtaPolling turns (ports.outb 7 0x20 (ports.ideAtaAddress master lba sectors disk))).bind fun (ready, disk) =>
    if ready then ports.ideAtaReadLoop turns sectors.toNat buffer memory disk else some (-eNxio, memory, disk)

/-- `virt_fs_bread` of a disk that `ide_ata_get` finds, with the buffer that `calloc` gives, which is none for no
bytes; `none` stands for `NULL`. The number of sectors is cut to eight bits by the call. -/
def virtFsBread (ports : AtaPorts Disk) (turns : Nat) (sector : BitVec 32) (size : Nat) (disk : Disk) :
    Option (Option Memory × Disk) :=
  let sectors := divCeil size vfsBytesPSector
  if sectors * vfsBytesPSector % 2 ^ 32 = 0 then some (none, disk)
  else
    (ports.ideAtaRead turns true 0 sector (BitVec.ofNat 8 sectors) (fun _ => 0) disk).map fun (result, memory, disk) =>
      (if result < 0 then none else some memory, disk)

/-- A call after the other, with what each of them gives. -/
def breads (ports : AtaPorts Disk) (turns : Nat) : List (BitVec 32 × Nat) → Disk → Option (List (Option Memory) × Disk)
  | [], disk => some ([], disk)
  | (sector, size) :: rest, disk =>
    (ports.virtFsBread turns sector size disk).bind fun (answer, disk) =>
      (ports.breads turns rest disk).map fun (answers, disk) => (answer :: answers, disk)

end AtaPorts

/-- `task` holds the registers behind `base_io`. `buffer` holds the words of a sector that have not been
taken, `left` counts the sectors behind it, and `delays` says how often the status is busy in front of each
one that was ever asked for. `bus` is what the data port gives without a sector. -/
structure AtaDisk where
  device : Memory
  delays : Nat → Nat
  bus : Nat
  asked : Nat
  task : Nat → BitVec 8
  busy : Nat
  lba : Nat
  left : Nat
  buffer : List Nat

namespace AtaDisk

/-- The next sector. -/
def prepare (disk : AtaDisk) : AtaDisk :=
  { disk with
    busy := disk.delays disk.asked
    asked := disk.asked + 1
    buffer := (List.range 256).map fun k => disk.device.load16 (disk.lba * vfsBytesPSector + 2 * k)
    lba := disk.lba + 1
    left := disk.left - 1 }

/-- The sector that the task registers select. -/
def selected (disk : AtaDisk) : Nat :=
  (disk.task 3).toNat + 256 * (disk.task 4).toNat + 256 ^ 2 * (disk.task 5).toNat + 256 ^ 3 *
    (disk.task 6 &&& 0x0F).toNat

/-- A count of zero stands for 256 sectors. -/
def count (disk : AtaDisk) : Nat := if disk.task 2 = 0 then 256 else (disk.task 2).toNat

def readSectors (disk : AtaDisk) : AtaDisk := { disk with lba := disk.selected, left := disk.count }.prepare

def status (disk : AtaDisk) : BitVec 8 := if 0 < disk.busy then 0x80 else if disk.buffer = [] then 0x40 else 0x48

/-- A disk that has not done with a command takes no other one. -/
def outb (offset : Nat) (value : BitVec 8) (disk : AtaDisk) : AtaDisk :=
  if offset = 7 then (if value = 0x20 ∧ disk.busy = 0 ∧ disk.buffer = [] then disk.readSectors else disk)
  else { disk with task := Function.update disk.task offset value }

/-- A word from the data port. With the last one of a sector the disk goes on to the next. -/
def inw (disk : AtaDisk) : Nat × AtaDisk :=
  match disk.buffer with
  | [] => (disk.bus, disk)
  | [word] => (word, if 0 < disk.left then { disk with buffer := [] }.prepare else { disk with buffer := [] })
  | word :: rest => (word, { disk with buffer := rest })

def ports : AtaPorts AtaDisk where
  inb := fun disk => (disk.status, { disk with busy := disk.busy - 1 })
  inw := inw
  outb := outb

end AtaDisk

end YuzuOS.Kernel
