import Mathlib.Data.List.FinRange
import YuzuOS.Kernel.Frames

/-! Page directories and the functions that make them. A directory is an object beside the
frames; they are numbered in the order of creation, from `virt_mm_dir` on, and the last entry
of each shows the directory itself. What the allocations ask of `malloc_sbrk` is an argument,
and the list of blocks and the contents of the heap are left out. `none` is a page fault. -/

namespace YuzuOS.Kernel

/-- With `malloc_current`, `malloc_remaining` and the variables of `virt_mm_fork_dir`: `heap_current`,
and `virtual_tbl` and `physical_tbl` inside of a table. -/
structure Directories where
  dirs : Nat → Nat → BitVec 32
  count : Nat
  active : Nat
  words : Nat → Nat → BitVec 32
  blocks : Nat → BitVec 32
  taken : Nat
  current : Nat
  remaining : Nat
  heapCurrent : Nat
  table : Option (Nat × BitVec 32)

namespace Directories

def entry (space : Directories) (index : Nat) : BitVec 32 := space.dirs space.active index

def setEntry (dir index : Nat) (word : BitVec 32) (space : Directories) : Directories :=
  { space with dirs := Function.update space.dirs dir (Function.update (space.dirs dir) index word) }

def setWord (frame index : Nat) (word : BitVec 32) (space : Directories) : Directories :=
  { space with words := Function.update space.words frame (Function.update (space.words frame) index word) }

/-- The block that the allocator answers. -/
def takeBlock (space : Directories) : BitVec 32 × Directories :=
  (space.blocks space.taken, { space with taken := space.taken + 1 })

/-- The window shows the table at an index. -/
def Shown (space : Directories) (index : Nat) : Prop :=
  pageIsEnabled (space.entry 1023) = true ∧ pageIsEnabled (space.entry index) = true

instance (space : Directories) (index : Nat) : Decidable (space.Shown index) :=
  inferInstanceAs (Decidable (_ ∧ _))

/-- A word of a table, through the window. The last table is the directory. -/
def tableWord (space : Directories) (index tbl : Nat) : BitVec 32 :=
  if index = 1023 then space.entry tbl else space.words (frameNumber (space.entry index)) tbl

def setTableWord (index tbl : Nat) (word : BitVec 32) (space : Directories) : Directories :=
  if index = 1023 then space.setEntry space.active tbl word else space.setWord (frameNumber (space.entry index)) tbl word

def clearTable (index : Nat) (space : Directories) : Directories :=
  if index = 1023 then { space with dirs := Function.update space.dirs space.active fun _ => 0 }
  else { space with words := Function.update space.words (frameNumber (space.entry index)) fun _ => 0 }

def virtMmPhysAddrGet (virtual : Nat) (space : Directories) : Option (BitVec 32) :=
  if space.Shown (pageDirIndex virtual) then some (space.tableWord (pageDirIndex virtual) (pageTblIndex virtual)) else none

/-- The part of `virt_mm_map_addr` that makes a missing table. -/
def virtMmMapTable (dir index : Nat) (flags : BitVec 32) (space : Directories) : Option Directories :=
  if pageIsEnabled (space.dirs dir index) then some space
  else
    let (physicalTbl, space) := space.takeBlock
    let space := space.setEntry dir index (virtMmFrameSet (virtMmFlagSet (space.dirs dir index) flags) physicalTbl)
    if space.Shown index then some (space.clearTable index) else none

def virtMmMapAddr (dir : Nat) (physical : BitVec 32) (virtual : Nat) (flags : BitVec 32) (space : Directories) :
    Option Directories :=
  (space.virtMmMapTable dir (pageDirIndex virtual) flags).bind fun space =>
    if space.Shown (pageDirIndex virtual) then
      let word := space.tableWord (pageDirIndex virtual) (pageTblIndex virtual)
      some (space.setTableWord (pageDirIndex virtual) (pageTblIndex virtual) (virtMmFrameSet (virtMmFlagSet word flags) physical))
    else none

def virtMmAddrUnmap (dir virtual : Nat) (space : Directories) : Option Directories :=
  if pageIsEnabled (space.dirs dir (pageDirIndex virtual)) then
    if space.Shown (pageDirIndex virtual) then
      if pageIsEnabled (space.tableWord (pageDirIndex virtual) (pageTblIndex virtual)) then
        some (space.setTableWord (pageDirIndex virtual) (pageTblIndex virtual) 0)
      else some space
    else none
  else some space

/-- The loop of `malloc_sbrk` over the pages that it maps in `virt_mm_dir`, and where it ends. -/
def mapFrames (stop : Nat) : Nat → BitVec 32 → Nat → Directories → Option (Nat × Directories)
  | 0, _, _, _ => none
  | turns + 1, physical, virtual, space =>
    if virtual < stop then
      (space.virtMmMapAddr 0 physical virtual pageTblKernelFlags).bind
        (mapFrames stop turns (physical + 4096) ((virtual + physMmBlock) % 2 ^ 32))
    else some (virtual, space)

def mallocSbrk (increment : Nat) (space : Directories) : Option Directories :=
  let current := (space.current + increment) % 2 ^ 32
  if increment = 0 then some space
  else if increment ≤ space.remaining then some { space with current, remaining := space.remaining - increment }
  else
    let (physical, mapped) := space.takeBlock
    (mapped.mapFrames current (2 ^ 20 + 1) physical (divCeil space.current physMmBlock * physMmBlock % 2 ^ 32)).map
      fun (virtual, mapped) => { mapped with current, remaining := (virtual + 2 ^ 32 - current) % 2 ^ 32 }

/-- What `malloc_align(PHYS_MM_BLOCK)` asks of `malloc_sbrk`: the padding, less two headers, with the header of a block. -/
def alignGrow (space : Directories) : Nat :=
  if space.current % physMmBlock = 0 then 0
  else
    let padding := divCeil space.current physMmBlock * physMmBlock - space.current
    (if mallocHeader * 2 < padding then padding else padding + physMmBlock) - mallocHeader * 2 + mallocHeader

/-- `virt_mm_addr_create` behind its allocations, with the address of its block. -/
def virtMmAddrCreate (address : Nat) (space : Directories) : Option Directories :=
  ((List.range' 768 255).foldlM (fun dir i =>
    (space.virtMmPhysAddrGet (pageTblBase + i * physMmBlock)).map (Function.update dir i)) fun _ => 0).bind fun dir =>
      (space.virtMmPhysAddrGet address).map fun last =>
        { space with dirs := Function.update space.dirs space.count (Function.update dir 1023 last), count := space.count + 1 }

/-- The frame behind an address in a directory. -/
def translate (dir virtual : Nat) (space : Directories) : Option Nat :=
  let entry := space.dirs dir (pageDirIndex virtual)
  if pageIsEnabled entry then
    let word := if pageDirIndex virtual = 1023 then space.dirs dir (pageTblIndex virtual)
      else space.words (frameNumber entry) (pageTblIndex virtual)
    if pageIsEnabled word then some (frameNumber word) else none
  else none

def load (virtual : Nat) (space : Directories) : Option (BitVec 32) :=
  (space.translate space.active virtual).map fun frame => space.words frame (virtual / 4 % 1024)

def store (virtual : Nat) (word : BitVec 32) (space : Directories) : Option Directories :=
  (space.translate space.active virtual).map fun frame => space.setWord frame (virtual / 4 % 1024) word

/-- `memset` over a table, word by word. -/
def clearPage (virtual : Nat) (space : Directories) : Option Directories :=
  (List.range 1024).foldlM (fun space i => space.store (virtual + 4 * i) 0) space

/-- `memcpy` of a page, word by word. -/
def copyPage (target source : Nat) (space : Directories) : Option Directories :=
  (List.range 1024).foldlM (fun space i =>
    (space.load (source + 4 * i)).bind fun word => space.store (target + 4 * i) word) space

/-- `virt_mm_fork_dir` in front of the pages of a table. The directory of the parent is the active one. -/
def forkTable (iDir : Fin 768) (space : Directories) : Option Directories :=
  if pageIsEnabled (space.entry iDir) then
    let virtualTbl := space.heapCurrent
    let (physicalTbl, space) := space.takeBlock
    (space.virtMmMapAddr space.active physicalTbl virtualTbl pageTblFlags).bind fun space =>
      (space.clearPage virtualTbl).map fun space =>
        { space with heapCurrent := (virtualTbl + physMmBlock) % 2 ^ 32, table := some (virtualTbl, physicalTbl) }
  else some { space with table := none }

/-- The copy of a page that is present, with its entry in the table of the child. -/
def forkCopy (virtualTbl : Nat) (iTbl : Fin 1024) (word : BitVec 32) (space : Directories) : Option Directories :=
  let virtualEntry := space.heapCurrent
  let forkedEntry := (virtualEntry + physMmBlock) % 2 ^ 32
  let (physicalEntry, space) := { space with heapCurrent := (forkedEntry + physMmBlock) % 2 ^ 32 }.takeBlock
  (space.virtMmMapAddr space.active word virtualEntry pageTblFlags).bind fun space =>
    (space.virtMmMapAddr space.active physicalEntry forkedEntry pageTblFlags).bind fun space =>
      (space.copyPage forkedEntry virtualEntry).bind fun space =>
        (space.virtMmAddrUnmap space.active virtualEntry).bind fun space =>
          (space.virtMmAddrUnmap space.active forkedEntry).bind fun space =>
            space.store (virtualTbl + 4 * iTbl) (physicalEntry ||| pageTblFlags)

/-- A turn of the inner loop. -/
def forkPage (iDir : Fin 768) (iTbl : Fin 1024) (space : Directories) : Option Directories :=
  match space.table with
  | none => some space
  | some (virtualTbl, _) =>
    if space.Shown iDir then
      let word := space.tableWord iDir iTbl
      if pageIsEnabled word then space.forkCopy virtualTbl iTbl word else some space
    else none

/-- `virt_mm_fork_dir` behind the pages of a table. The child has the directory created last. -/
def forkEntry (iDir : Fin 768) (space : Directories) : Option Directories :=
  match space.table with
  | none => some space
  | some (virtualTbl, physicalTbl) =>
    (space.virtMmAddrUnmap space.active virtualTbl).map fun space =>
      { space.setEntry (space.count - 1) iDir (physicalTbl ||| pageTblFlags) with table := none }

end Directories

/-- An allocation comes with what it asks of `malloc_sbrk`, nothing where a free block serves it. -/
inductive DirStep
  | malloc (grow : Nat)
  | mallocAlign
  | addrCreate (address : Nat)
  | forkStart
  | forkTable (iDir : Fin 768)
  | forkPage (iDir : Fin 768) (iTbl : Fin 1024)
  | forkEntry (iDir : Fin 768)
  | switch (dir : Nat)

def dirStep (space : Directories) : DirStep → Option Directories
  | .malloc grow => space.mallocSbrk grow
  | .mallocAlign => space.mallocSbrk space.alignGrow
  | .addrCreate address => space.virtMmAddrCreate address
  | .forkStart => some { space with heapCurrent := space.current, table := none }
  | .forkTable iDir => space.forkTable iDir
  | .forkPage iDir iTbl => space.forkPage iDir iTbl
  | .forkEntry iDir => space.forkEntry iDir
  | .switch dir => if dir < space.count then some { space with active := dir } else none

/-- What the allocations of a call ask for, whether the directory comes to lie in a new block, and where. -/
structure HeapAnswers where
  grow : Nat → Nat
  fresh : Bool
  address : Nat

namespace HeapAnswers

/-- Some of the allocations of a call. -/
def mallocs (heap : HeapAnswers) (first count : Nat) : List DirStep :=
  (List.range' first count).map fun n => .malloc (heap.grow n)

/-- `virt_mm_addr_create`: the alignment, the directory of one page and its entries. -/
def virtMmAddrCreate (heap : HeapAnswers) : List DirStep :=
  [.mallocAlign, .malloc (if heap.fresh then physMmBlock + mallocHeader else 0), .addrCreate heap.address]

/-- `virt_mm_fork_dir`. -/
def virtMmForkDir (heap : HeapAnswers) : List DirStep :=
  heap.virtMmAddrCreate ++ .mallocAlign :: .forkStart ::
    (List.finRange 768).flatMap fun iDir =>
      .forkTable iDir :: (List.finRange 1024).map (.forkPage iDir) ++ [.forkEntry iDir]

/-- `sched_process_create` for a child of the running process: the process, its directory, `mm`, `fs` and `files`. -/
def schedProcessCreate (heap : HeapAnswers) : List DirStep :=
  heap.mallocs 0 1 ++ heap.virtMmAddrCreate ++ heap.mallocs 1 3

/-- `sched_load`: two copies of the path around the thread and its stack. -/
def schedLoad (heap : HeapAnswers) : List DirStep := heap.schedProcessCreate ++ heap.mallocs 4 4

/-- `sched_process_fork` of a process with a number of areas: the process, its name, `mm`, the areas, `fs` and
`files`, the directory, and the thread with its stack. -/
def schedProcessFork (heap : HeapAnswers) (areas : Nat) : List DirStep :=
  heap.mallocs 0 (5 + areas) ++ heap.virtMmForkDir ++ heap.mallocs (5 + areas) 2

end HeapAnswers

/-- A switch installs the directory of another process. -/
inductive DirCall
  | malloc (grow : Nat)
  | load (heap : HeapAnswers)
  | fork (areas : Nat) (heap : HeapAnswers)
  | switch (dir : Nat)

def DirCall.steps : DirCall → List DirStep
  | .malloc grow => [.malloc grow]
  | .load heap => heap.schedLoad
  | .fork areas heap => heap.schedProcessFork areas
  | .switch dir => [.switch dir]

end YuzuOS.Kernel
