import YuzuOS.Library.Memory
import YuzuOS.Kernel.Align
import YuzuOS.Kernel.Physical

/-! The kernel heap. Headers lie in memory in front of their payloads. The frames
behind new heap pages are taken as fresh; `none` is a call that does not return. -/

namespace YuzuOS.Kernel
open YuzuOS.Library

def heapBottom : Nat := 0xD0000000
def heapTop : Nat := 0xF0000000

/-- The largest block that `malloc_assert` lets through. -/
def mallocLimit : Nat := 0x2000000

/-- `sizeof(struct malloc_block)`: size, free, next and prev. -/
def mallocHeader : Nat := 16

structure Malloc where
  memory : Memory
  blocks : Nat
  current : Nat
  remaining : Nat

def blockSize (memory : Memory) (block : Nat) : Nat := memory.load32 block

def blockFree (memory : Memory) (block : Nat) : Bool := memory (block + 4) != 0

def blockNext (memory : Memory) (block : Nat) : Nat := memory.load32 (block + 8)

def setBlockSize (memory : Memory) (block size : Nat) : Memory := memory.store32 block size

def setBlockFree (memory : Memory) (block : Nat) (free : Bool) : Memory :=
  memory.store8 (block + 4) (if free then 1 else 0)

def setBlockNext (memory : Memory) (block next : Nat) : Memory := memory.store32 (block + 8) next

/-- The loop of `malloc_sbrk` over the new pages. -/
def mallocMapPages : Nat → Nat → Nat → Option Nat
  | 0, _, _ => none
  | turns + 1, stop, address =>
    if address < stop then mallocMapPages turns stop ((address + physMmBlock) % 2 ^ 32) else some address

/-- No break past the address space is a success. -/
def mallocSbrk (increment : Nat) (heap : Malloc) : Option (Nat × Malloc) :=
  if increment = 0 then some (heap.current, heap)
  else if 2 ^ 32 ≤ heap.current + increment then none
  else
    let grown := { heap with
      memory := heap.memory.fill heap.current increment 0
      current := heap.current + increment }
    if increment ≤ heap.remaining then some (heap.current, { grown with remaining := heap.remaining - increment })
    else (mallocMapPages (2 ^ 20 + 1) grown.current (divCeil heap.current physMmBlock * physMmBlock % 2 ^ 32)).map
      fun mapped => (heap.current, { grown with remaining := mapped - grown.current })

def mallocGet (last size : Nat) (heap : Malloc) : Option (Nat × Malloc) :=
  (mallocSbrk ((size + mallocHeader) % 2 ^ 32) heap).map fun (block, heap) =>
    let memory := if last ≠ 0 then setBlockNext heap.memory last block else heap.memory
    let memory := setBlockSize memory block size
    let memory := setBlockNext memory block 0
    (block, { heap with memory := setBlockFree memory block false })

/-- The loop of `malloc`: the last block passed and the block found, or zero. -/
def mallocFind : Nat → Memory → Nat → Nat → Nat → Option (Nat × Nat)
  | 0, _, _, _, _ => none
  | turns + 1, memory, size, last, current =>
    if current = 0 ∨ (blockFree memory current ∧ size ≤ blockSize memory current) then some (last, current)
    else if mallocLimit < blockSize memory current then none
    else
      let next := blockNext memory current
      if next ≠ 0 ∧ mallocLimit < blockSize memory next then none
      else mallocFind turns memory size current next

/-- More headers than this do not fit in the address space. -/
def mallocTurns : Nat := 2 ^ 28

/-- The inner branch of `malloc`: the rest of a block becomes a free block. -/
def mallocSplit (block size : Nat) (memory : Memory) : Memory :=
  let split := block + mallocHeader + size
  let memory := setBlockFree memory split true
  let memory := setBlockSize memory split (blockSize memory block - size - mallocHeader)
  let memory := setBlockNext memory split (blockNext memory block)
  let memory := setBlockSize memory block size
  setBlockNext memory block split

def mallocReuse (block size : Nat) (memory : Memory) : Memory :=
  let memory := setBlockFree memory block false
  if size + mallocHeader < blockSize memory block then mallocSplit block size memory else memory

def mallocServe (size : Nat) (heap : Malloc) : Option (Nat × Malloc) :=
  if heap.blocks ≠ 0 then
    (mallocFind mallocTurns heap.memory size heap.blocks heap.blocks).bind fun (last, block) =>
      if block ≠ 0 then some (block, { heap with memory := mallocReuse block size heap.memory })
      else mallocGet last size heap
  else (mallocGet 0 size heap).map fun (block, heap) => (block, { heap with blocks := block })

def malloc (size : Nat) (heap : Malloc) : Option (Nat × Malloc) :=
  if size ≤ 0 then some (0, heap)
  else (mallocServe (alignUp size 4) heap).bind fun (block, heap) =>
    if mallocLimit < blockSize heap.memory block then none
    else some (if block ≠ 0 then block + mallocHeader else 0, heap)

/-- Clearing past the address space faults. -/
def calloc (nitems size : Nat) (heap : Malloc) : Option (Nat × Malloc) :=
  let targetSize := nitems * size % 2 ^ 32
  (malloc targetSize heap).bind fun (block, heap) =>
    if block = 0 then some (0, heap)
    else if 2 ^ 32 < block + targetSize then none
    else some (block, { heap with memory := heap.memory.fill block targetSize 0 })

def mallocFree (ptr : Nat) (heap : Malloc) : Option Malloc :=
  if ptr = 0 then some heap
  else
    let block := ptr - mallocHeader
    if mallocLimit < blockSize heap.memory block then none
    else some { heap with memory := setBlockFree heap.memory block true }

/-- The walk of `malloc_align`, which goes on while there is no next block. -/
def mallocAlignLast (memory : Memory) : Nat → Nat → Option Nat
  | 0, _ => none
  | turns + 1, last =>
    if last = 0 then none
    else if blockNext memory last = 0 then mallocAlignLast memory turns (blockNext memory last)
    else some last

/-- The loop of `malloc_align`. -/
def mallocAlignPad (size : Nat) (heap : Malloc) : Nat → Nat → Option (Nat × Malloc)
  | 0, _ => none
  | turns + 1, padding =>
    let required := mallocHeader * 2
    if padding ≤ heapTop then
      if required < padding then
        (mallocAlignLast heap.memory mallocTurns heap.blocks).bind fun last =>
          (mallocGet last (padding - required) heap).map fun (block, heap) => (block + mallocHeader, heap)
      else mallocAlignPad size heap turns ((padding + size) % 2 ^ 32)
    else some (0, heap)

/-- The padding passes two headers before it has grown that often. -/
def mallocAlign (size : Nat) (heap : Malloc) : Option (Nat × Malloc) :=
  (mallocSbrk 0 heap).bind fun (addr, heap) =>
    if addr % size = 0 then some (0, heap)
    else mallocAlignPad size heap (mallocHeader * 2 + 2) ((divCeil addr size * size + 2 ^ 32 - addr) % 2 ^ 32)

/-- A call of `virt_mm_map_addr`. -/
structure Mapping where
  virtual : Nat
  physical : Nat
  deriving DecidableEq

/-- The heap with the frames that were granted to it and the pages it mapped. -/
structure PagedHeap where
  heap : Malloc
  granted : List Nat
  mapped : List Mapping

/-- The loop of `malloc_sbrk` with the pages. -/
def mallocMapFrames : Nat → Nat → Nat → Nat → List Mapping → Option (Nat × List Mapping)
  | 0, _, _, _, _ => none
  | turns + 1, stop, physical, address, mapped =>
    if address < stop then
      mallocMapFrames turns stop ((physical + physMmBlock) % 2 ^ 32) ((address + physMmBlock) % 2 ^ 32)
        (mapped ++ [⟨address, physical⟩])
    else some (address, mapped)

/-- The frames of a block that `phys_mm_block_n_alloc` gives. -/
def grantedFrames (physical len : Nat) : List Nat := (List.range len).map fun i => physical + physMmBlock * i

/-- `malloc_sbrk`, where `physical` is what `phys_mm_block_n_alloc` gives when it is
called. -/
def mallocSbrkPaged (increment physical : Nat) (state : PagedHeap) : Option (Nat × PagedHeap) :=
  let heap := state.heap
  if increment = 0 then some (heap.current, state)
  else
    let grown := { heap with
      memory := heap.memory.fill heap.current increment 0
      current := (heap.current + increment) % 2 ^ 32 }
    if increment ≤ heap.remaining then
      some (heap.current, { state with heap := { grown with remaining := heap.remaining - increment } })
    else
      let len := divCeil (increment - heap.remaining) physMmBlock
      (mallocMapFrames (2 ^ 20 + 1) grown.current physical (divCeil heap.current physMmBlock * physMmBlock % 2 ^ 32)
        state.mapped).map fun (address, mapped) => (heap.current, {
          heap := { grown with remaining := (address + 2 ^ 32 - grown.current) % 2 ^ 32 }
          granted := state.granted ++ grantedFrames physical len
          mapped })

section Headers

variable {memory : Memory} {block size next place : Nat} {free : Bool}

@[simp] theorem blockSize_setSize (fits : size < 2 ^ 32) : blockSize (setBlockSize memory block size) block = size :=
  Memory.load32_store32 fits

@[simp] theorem blockSize_setFree : blockSize (setBlockFree memory block free) block = blockSize memory block :=
  Memory.load32_write_outside (by omega)

@[simp] theorem blockSize_setNext : blockSize (setBlockNext memory block next) block = blockSize memory block :=
  Memory.load32_write_outside (by omega)

@[simp] theorem blockFree_setFree : blockFree (setBlockFree memory block free) block = free := by
  rw [blockFree, setBlockFree, Memory.store8, Memory.write_inside (Nat.le_refl _) (Nat.lt_succ_self _)]
  cases free <;> rfl

@[simp] theorem blockFree_setSize : blockFree (setBlockSize memory block size) block = blockFree memory block := by
  rw [blockFree, blockFree, setBlockSize, Memory.store32, Memory.write_outside (by omega)]

@[simp] theorem blockFree_setNext : blockFree (setBlockNext memory block next) block = blockFree memory block := by
  rw [blockFree, blockFree, setBlockNext, Memory.store32, Memory.write_outside (by omega)]

@[simp] theorem blockNext_setNext (fits : next < 2 ^ 32) : blockNext (setBlockNext memory block next) block = next :=
  Memory.load32_store32 fits

@[simp] theorem blockNext_setSize : blockNext (setBlockSize memory block size) block = blockNext memory block :=
  Memory.load32_write_outside (by omega)

@[simp] theorem blockNext_setFree : blockNext (setBlockFree memory block free) block = blockNext memory block :=
  Memory.load32_write_outside (by omega)

theorem setBlockSize_outside (apart : place < block ∨ block + mallocHeader ≤ place) :
    setBlockSize memory block size place = memory place := by
  unfold mallocHeader at apart
  exact Memory.write_outside (by omega)

theorem setBlockFree_outside (apart : place < block ∨ block + mallocHeader ≤ place) :
    setBlockFree memory block free place = memory place := by
  unfold mallocHeader at apart
  rw [setBlockFree, Memory.store8, Memory.write_outside (by omega)]

theorem setBlockNext_outside (apart : place < block ∨ block + mallocHeader ≤ place) :
    setBlockNext memory block next place = memory place := by
  unfold mallocHeader at apart
  exact Memory.write_outside (by omega)

end Headers

/-- Two memories hold the same header. -/
def SameHeader (memory changed : Memory) (block : Nat) : Prop :=
  ∀ place, block ≤ place → place < block + mallocHeader → changed place = memory place

variable {memory changed final : Memory} {block other : Nat}

theorem SameHeader.trans (first : SameHeader memory changed block) (last : SameHeader changed final block) :
    SameHeader memory final block :=
  fun place lower upper => (last place lower upper).trans (first place lower upper)

theorem SameHeader.size (same : SameHeader memory changed block) : blockSize changed block = blockSize memory block :=
  Memory.load32_congr fun i bound => same _ (by omega) (by unfold mallocHeader; omega)

theorem SameHeader.free (same : SameHeader memory changed block) :
    blockFree changed block = blockFree memory block := by
  rw [blockFree, blockFree, same _ (by omega) (by unfold mallocHeader; omega)]

theorem SameHeader.next (same : SameHeader memory changed block) : blockNext changed block = blockNext memory block :=
  Memory.load32_congr fun i bound => same _ (by omega) (by unfold mallocHeader; omega)

/-- Writes to one header leave the headers beside it. -/
theorem sameHeader_of_outside (apart : other + mallocHeader ≤ block ∨ block + mallocHeader ≤ other)
    (outside : ∀ place, place < block ∨ block + mallocHeader ≤ place → changed place = memory place) :
    SameHeader memory changed other :=
  fun place lower upper => outside place (by omega)

/-- What a split leaves in the two headers, and that it touches nothing else. -/
theorem mallocSplit_spec (memory : Memory) (block taken : Nat) {split : Nat}
    (behind : split = block + mallocHeader + taken) (fits : split < 2 ^ 32) :
    blockSize (mallocSplit block taken memory) block = taken ∧
    blockFree (mallocSplit block taken memory) block = blockFree memory block ∧
    blockNext (mallocSplit block taken memory) block = split ∧
    blockSize (mallocSplit block taken memory) split = blockSize memory block - taken - mallocHeader ∧
    blockFree (mallocSplit block taken memory) split = true ∧
    blockNext (mallocSplit block taken memory) split = blockNext memory block ∧
    ∀ place, (place < block ∨ block + mallocHeader ≤ place) → (place < split ∨ split + mallocHeader ≤ place) →
      mallocSplit block taken memory place = memory place := by
  have low : block + mallocHeader ≤ split ∨ split + mallocHeader ≤ block := by omega
  have large : blockSize memory block < 2 ^ 32 := Memory.load32_lt
  have follows : blockNext memory block < 2 ^ 32 := Memory.load32_lt
  have freed : SameHeader memory (setBlockFree memory split true) block :=
    sameHeader_of_outside low fun _ => setBlockFree_outside
  have sized : SameHeader memory (setBlockSize (setBlockFree memory split true) split
      (blockSize memory block - taken - mallocHeader)) block :=
    freed.trans (sameHeader_of_outside low fun _ => setBlockSize_outside)
  generalize made : setBlockNext (setBlockSize (setBlockFree memory split true) split
    (blockSize memory block - taken - mallocHeader)) split (blockNext memory block) = middle
  have front : SameHeader memory middle block := by
    rw [← made]
    exact sized.trans (sameHeader_of_outside low fun _ => setBlockNext_outside)
  have result : mallocSplit block taken memory = setBlockNext (setBlockSize middle block taken) block split := by
    simp only [mallocSplit, ← behind, freed.size, sized.next, made]
  have rest : SameHeader middle (setBlockNext (setBlockSize middle block taken) block split) split :=
    SameHeader.trans (sameHeader_of_outside low.symm fun _ => setBlockSize_outside)
      (sameHeader_of_outside low.symm fun _ => setBlockNext_outside)
  rw [result, rest.size, rest.free, rest.next, blockSize_setNext, blockSize_setSize (by omega), blockFree_setNext,
    blockFree_setSize, blockNext_setNext fits, ← front.free, ← made]
  refine ⟨rfl, rfl, rfl, ?_, ?_, ?_, fun place first last => ?_⟩
  · rw [blockSize_setNext, blockSize_setSize (by omega)]
  · simp
  · exact blockNext_setNext follows
  · rw [setBlockNext_outside first, setBlockSize_outside first, setBlockNext_outside last, setBlockSize_outside last,
      setBlockFree_outside last]

end YuzuOS.Kernel
