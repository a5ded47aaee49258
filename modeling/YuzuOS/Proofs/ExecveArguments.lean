import YuzuOS.Proofs.ExecveCopies

/-! What a program finds on its stack when `execve` enters it: the arrays and the
copies are delivered exactly when the frames behind them happened to hold zeros
in the places that nobody writes. -/

namespace YuzuOS.Proofs.ExecveArguments
open YuzuOS.Library YuzuOS.Kernel YuzuOS.Proofs.MemoryAreas YuzuOS.Proofs.UserPages YuzuOS.Proofs.UserBreak
open YuzuOS.Proofs.ExecveHeap YuzuOS.Proofs.ExecveCopies

variable {process : UserProcess} {exec loaded after : Exec} {elf : Elf32Layout} {path : List (BitVec 8)}
  {argv envp : List (List (BitVec 8))} {buffer vm stack a e : Nat}

/-- A stretch of the heap, from the start of the break to the break, in the user heap. -/
structure InHeap (process : UserProcess) (block : Nat × Nat) : Prop where
  lower : process.brkStart ≤ block.1
  upper : block.1 + block.2 ≤ process.mm.brk
  heap : process.mm.brk ≤ heapUserTop
  mapped : process.Present block.1 block.2

/-- The user stack holds the number of arguments, the array `a` and the array `e`,
which point to copies of the strings in the heap. -/
structure Arguments (argv envp : List (List (BitVec 8))) (process : UserProcess) (stack a e : Nat) : Prop where
  mapped : process.Present stack 12
  count : process.memory.load32 stack = argv.length
  argvAt : process.memory.load32 (stack + 4) = a
  envpAt : process.memory.load32 (stack + 8) = e
  arguments : Copied process.memory a argv
  environment : Copied process.memory e envp
  inHeap : ∀ block ∈ blocks process.memory a argv ++ blocks process.memory e envp, InHeap process block
  disjoint : (blocks process.memory a argv ++ blocks process.memory e envp).Pairwise fun first second =>
    Library.Apart first.1 first.2 second.1 second.2

/-- The call enters user mode, and the program finds its arguments. -/
def Delivered (path : List (BitVec 8)) (argv envp : List (List (BitVec 8))) (buffer : Nat) (exec : Exec) : Prop :=
  ∃ result after stack entry a e, schedProcessExecve path argv envp buffer exec = some (result, after) ∧
    after.entered = some (stack, entry) ∧ Arguments argv envp after.process stack a e

structure Launched (process : UserProcess) (stack : Nat) : Prop where
  backed : Backed process
  brk : process.mm.brk = process.brkStart
  base : OnPage process.brkStart
  below : process.brkStart ≤ heapUserTop
  null : process.mapped 0 = false
  heap : process.brkStart ≠ 0 → ∃ vm, mmapFindVm process.brkStart process.mm = some (some vm) ∧
    (process.mm.vms vm).stop = process.brkStart + schedHeapSize
  above : heapUserTop + 12 ≤ stack
  fits : stack < 2 ^ 32
  mapped : ∀ place, stack - 12 ≤ place → place < stack → process.mapped (place / physMmBlock) = true

/-- What the frames behind the heap held before the call: those of the pages that
are mapped by the load, and the next ones. -/
def stale (process : UserProcess) (place : Nat) : BitVec 8 :=
  if place < process.brkStart + schedHeapSize then process.memory place
  else process.frames (process.taken + (place - (process.brkStart + schedHeapSize)) / physMmBlock) (place % physMmBlock)

structure Deliverable (argv envp : List (List (BitVec 8))) (process : UserProcess) : Prop where
  heap : process.brkStart ≠ 0
  room : process.brkStart + arrayRoom argv + arrayRoom envp ≤ heapUserTop
  fewArguments : argv.length < 1024
  fewVariables : envp.length < 1024
  zeros : ∀ place ∈ unwritten process.brkStart argv ++ unwritten (process.brkStart + arrayRoom argv) envp, stale process place = 0

theorem Launched.toHeap (launched : Launched process stack)
    (found : mmapFindVm process.brkStart process.mm = some (some vm))
    (stop : (process.mm.vms vm).stop = process.brkStart + schedHeapSize) :
    Heap process vm ∧ heapMemory process vm = stale process := by
  have brk := launched.brk
  refine ⟨⟨launched.backed, found, launched.base, brk ▸ launched.base, by omega, launched.null⟩, ?_⟩
  funext place
  rw [heapMemory, stop, stale]

structure Entered (argv envp : List (List (BitVec 8))) (process after : UserProcess) (stack a e : Nat) : Prop where
  brkStart : after.brkStart = a
  brk : after.mm.brk = e + arrayRoom envp
  mapped : after.Present stack 12
  count : argv.length < 2 ^ 32 → after.memory.load32 stack = argv.length
  argvAt : after.memory.load32 (stack + 4) = a
  envpAt : after.memory.load32 (stack + 8) = e
  heap : ∀ address len, a ≤ address → address + len ≤ e + arrayRoom envp → after.Present address len
  memory : ∀ place < e + arrayRoom envp,
    after.memory place = copyArray e envp (copyArray a argv (stale process)) place

def pushed (memory : Memory) (stack count a e : Nat) : Memory :=
  ((memory.store32 (stack + 8) e).store32 (stack + 4) a).store32 stack count

theorem pushed_words (memory : Memory) (stack count : Nat) (placed : a < 2 ^ 32) (behind : e < 2 ^ 32) :
    (count < 2 ^ 32 → (pushed memory stack count a e).load32 stack = count) ∧
      (pushed memory stack count a e).load32 (stack + 4) = a ∧
        (pushed memory stack count a e).load32 (stack + 8) = e := by
  refine ⟨fun small => Memory.load32_store32 small, ?_, ?_⟩
  · rw [pushed, Memory.store32, Memory.load32_write_outside (.inr (by omega)), Memory.load32_store32 placed]
  · rw [pushed, Memory.store32, Memory.load32_write_outside (.inr (by omega)), Memory.store32,
      Memory.load32_write_outside (.inr (by omega)), Memory.load32_store32 behind]

theorem pushed_below {memory : Memory} {count place : Nat} (below : place < stack) :
    pushed memory stack count a e place = memory place := by
  rw [pushed, Memory.store32, Memory.write_outside (.inl below), Memory.store32, Memory.write_outside (.inl (by omega)),
    Memory.store32, Memory.write_outside (.inl (by omega))]

theorem execve_enters (load : execveLoad path buffer exec = some (some elf, loaded))
    (launched : Launched loaded.process elf.stack) (heap : loaded.process.brkStart ≠ 0)
    (room : loaded.process.brkStart + arrayRoom argv + arrayRoom envp ≤ heapUserTop) :
    ∃ after, schedProcessExecve path argv envp buffer exec = some (0, after) ∧
      after.entered = some (elf.stack - 12, elf.entry) ∧
      Entered argv envp loaded.process after.process (elf.stack - 12) loaded.process.brkStart
        (loaded.process.brkStart + arrayRoom argv) := by
  obtain ⟨vm, found, stop⟩ := launched.heap heap
  obtain ⟨held, content⟩ := launched.toHeap found stop
  have start := launched.brk
  obtain ⟨first, ranArgv, keepsArgv, brkArgv, memoryArgv⟩ := array_copied held start.ge
    (show loaded.process.mm.brk + arrayRoom argv ≤ _ by omega)
  have base := keepsArgv.brkStart
  obtain ⟨second, ranEnvp, keepsEnvp, brkEnvp, memoryEnvp⟩ := array_copied keepsArgv.heap (show first.brkStart ≤ first.mm.brk by omega)
    (show first.mm.brk + arrayRoom envp ≤ _ by omega)
  have keeps := keepsArgv.trans keepsEnvp
  have above := launched.above
  have fits := launched.fits
  have top : heapUserTop = 0x40000000 := rfl
  have present (address len : Nat) (lower : elf.stack - 12 ≤ address) (upper : address + len ≤ elf.stack) : second.Present address len :=
    ⟨by omega, fun i inside => keeps.pages _ (launched.mapped _ (by omega) (by omega))⟩
  have first32 : (elf.stack + 2 ^ 32 - 4) % 2 ^ 32 = elf.stack - 12 + 8 := by omega
  have second32 : (elf.stack - 12 + 8 + 2 ^ 32 - 4) % 2 ^ 32 = elf.stack - 12 + 4 := by omega
  have third32 : (elf.stack - 12 + 4 + 2 ^ 32 - 4) % 2 ^ 32 = elf.stack - 12 := by omega
  have stored {memory : Memory} (address value : Nat) (lower : elf.stack - 12 ≤ address) (upper : address + 4 ≤ elf.stack) :
      UserProcess.store32 address value { second with memory } = some { second with memory := memory.store32 address value } :=
    if_pos (present address 4 lower upper)
  have run : schedProcessExecve path argv envp buffer exec = some (0, { loaded with
      process := { second with memory := pushed second.memory (elf.stack - 12) argv.length loaded.process.mm.brk first.mm.brk }
      stackUser := elf.stack
      entered := some (elf.stack - 12, elf.entry) }) := by
    simp only [schedProcessExecve, load, Option.bind_some, ranArgv, ranEnvp, first32, second32, third32]
    rw [stored _ _ (by omega) (by omega), Option.bind_some, stored _ _ (by omega) (by omega), Option.bind_some,
      stored _ _ (by omega) (by omega)]
    rfl
  have reached := keepsEnvp.heap.reached
  obtain ⟨count, argvAt, envpAt⟩ := pushed_words second.memory (elf.stack - 12) argv.length
    (show loaded.process.mm.brk < 2 ^ 32 by omega) (show first.mm.brk < 2 ^ 32 by omega)
  refine ⟨_, run, rfl, ⟨keeps.brkStart, by simp only; omega, present _ _ le_rfl (by omega), count, argvAt.trans start,
    envpAt.trans (by omega), fun address len lower upper => ?_, fun place below => ?_⟩⟩
  · exact keepsEnvp.heap.present (keeps.brkStart.trans_le lower) (by omega)
  · have inside : heapMemory second vm place = second.memory place := if_pos (by omega)
    simp only
    rw [pushed_below (by omega), ← inside, memoryEnvp, memoryArgv, content, brkArgv, start]

/-- An array that is longer than a page runs into its first copy. -/
theorem blocks_overlap {memory other : Memory} {strings : List (List (BitVec 8))} {rest : List (Nat × Nat)}
    {array : Nat} (many : 1024 ≤ strings.length) (small : array + arrayRoom strings < 2 ^ 32)
    (agrees : ∀ place < array + arrayRoom strings, memory place = copyArray array strings other place) :
    ¬(blocks memory array strings ++ rest).Pairwise fun first second => Library.Apart first.1 first.2 second.1 second.2 := by
  obtain ⟨pointer, short⟩ : (copyArray array strings other).load32 array = array + room (strings.length + 1) ∧
    room (strings.length + 1) < 4 * (strings.length + 1) := copyArray_many many small
  have page : physMmBlock ≤ room (strings.length + 1) := page_le_room (Nat.succ_pos _)
  have size : physMmBlock = 4096 := rfl
  have first : memory.load32 array = array + room (strings.length + 1) := by
    rw [← pointer]
    exact Memory.load32_congr fun j bound => agrees _ (by unfold arrayRoom; omega)
  intro disjoint
  cases strings with
  | nil => cases many
  | cons string others =>
    have apart := (List.pairwise_cons.mp disjoint).1 (memory.load32 array, string.length + 1) (by simp [copyBlocks])
    unfold Library.Apart at apart
    simp only [first] at apart
    omega

section Entering

variable {after : UserProcess} (entered : Entered argv envp process after stack a (a + arrayRoom argv))

include entered

/-- The first array and its copies are as they were before the second was made. -/
theorem Entered.first {place : Nat} (below : place < a + arrayRoom argv) :
    after.memory place = copyArray a argv (stale process) place := by
  rw [entered.memory place (by omega), copyArray_front below]

variable (fits : a + arrayRoom argv + arrayRoom envp ≤ heapUserTop)

include fits

/-- Arrays that fit on a page are in rooms of their own with the copies, and the
strings are terminated where the frames held zeros. -/
theorem Entered.layout (fewArguments : argv.length < 1024) (fewVariables : envp.length < 1024) :
    Tiles Prod.fst (fun block => ExecveCopies.room block.2) a
      (blocks after.memory a argv ++ blocks after.memory (a + arrayRoom argv) envp) (a + arrayRoom argv + arrayRoom envp) ∧
      (Copied after.memory a argv ∧ Copied after.memory (a + arrayRoom argv) envp ↔
        ∀ place ∈ unwritten a argv ++ unwritten (a + arrayRoom argv) envp, stale process place = 0) := by
  have top : heapUserTop = 0x40000000 := rfl
  obtain ⟨front, shape⟩ : ∃ front, front = copyArray a argv (stale process) := ⟨_, rfl⟩
  obtain ⟨whole, shapes⟩ : ∃ whole, whole = copyArray (a + arrayRoom argv) envp front := ⟨_, rfl⟩
  have tilesArgv : Tiles Prod.fst (fun block => room block.2) a (blocks front a argv) (a + arrayRoom argv) := by
    rw [shape]
    exact copyArray_tiles fewArguments (by omega)
  have tilesEnvp : Tiles Prod.fst (fun block => room block.2) (a + arrayRoom argv) (blocks whole (a + arrayRoom argv) envp)
      (a + arrayRoom argv + arrayRoom envp) := by
    rw [shapes]
    exact copyArray_tiles fewVariables (by omega)
  have firstAgrees (place : Nat) (below : place < a + arrayRoom argv) : after.memory place = front place := by
    rw [shape, entered.first below]
  have allAgrees (place : Nat) (below : place < a + arrayRoom argv + arrayRoom envp) : after.memory place = whole place := by
    rw [shapes, shape, entered.memory place below]
  obtain ⟨argvCopied, argvBlocks⟩ := copied_congr firstAgrees (rooms_inside tilesArgv List.mem_cons_self).2
    fun block member => (rooms_inside tilesArgv (List.mem_cons_of_mem _ member)).2
  obtain ⟨envpCopied, envpBlocks⟩ := copied_congr allAgrees (rooms_inside tilesEnvp List.mem_cons_self).2
    fun block member => (rooms_inside tilesEnvp (List.mem_cons_of_mem _ member)).2
  constructor
  · rw [blocks, blocks, argvBlocks, envpBlocks]
    exact chain_append.mpr ⟨_, tilesArgv, tilesEnvp⟩
  · have behind : (∀ place ∈ unwritten (a + arrayRoom argv) envp, front place = 0) ↔
        ∀ place ∈ unwritten (a + arrayRoom argv) envp, stale process place = 0 := by
      refine forall₂_congr fun place member => ?_
      rw [shape, copyArray_behind fewArguments (unwritten_behind member)]
    rw [argvCopied, envpCopied, shape, copyArray_copied fewArguments (by omega), shapes, copyArray_copied fewVariables (by omega),
      behind, List.forall_mem_append]

/-- Once the call has entered, the arguments are there when the arrays fit on a page
and the places that were not written held zeros. -/
theorem Entered.arguments_iff : (∃ argvAt envpAt, Arguments argv envp after stack argvAt envpAt) ↔
    (argv.length < 1024 ∧ envp.length < 1024) ∧
      ∀ place ∈ unwritten a argv ++ unwritten (a + arrayRoom argv) envp, stale process place = 0 := by
  have top : heapUserTop = 0x40000000 := rfl
  constructor
  · rintro ⟨argvAt, envpAt, arguments⟩
    have first : a = argvAt := entered.argvAt.symm.trans arguments.argvAt
    have second : a + arrayRoom argv = envpAt := entered.envpAt.symm.trans arguments.envpAt
    subst first second
    have fewArguments : argv.length < 1024 := by
      by_contra many
      exact blocks_overlap (Nat.not_lt.mp many) (by omega) (fun place below => entered.first below) arguments.disjoint
    have fewVariables : envp.length < 1024 := by
      by_contra many
      have disjoint := (List.pairwise_append.mp arguments.disjoint).2.1
      rw [← List.append_nil (blocks _ _ envp)] at disjoint
      exact blocks_overlap (Nat.not_lt.mp many) (by omega) entered.memory disjoint
    exact ⟨⟨fewArguments, fewVariables⟩,
      (entered.layout fits fewArguments fewVariables).2.mp ⟨arguments.arguments, arguments.environment⟩⟩
  · rintro ⟨⟨fewArguments, fewVariables⟩, zeros⟩
    obtain ⟨tiled, copied⟩ := entered.layout fits fewArguments fewVariables
    obtain ⟨argvCopied, envpCopied⟩ := copied.mpr zeros
    refine ⟨a, a + arrayRoom argv, entered.mapped, entered.count (by omega), entered.argvAt, entered.envpAt, argvCopied, envpCopied,
      fun block member => ?_, tiled.ordered.imp fun ordered => .inl (Nat.le_trans (Nat.add_le_add_left le_room _) ordered)⟩
    obtain ⟨lower, upper⟩ := rooms_inside tiled member
    exact ⟨entered.brkStart ▸ lower, entered.brk ▸ upper, entered.brk ▸ fits, entered.heap _ _ lower upper⟩

end Entering

/-- Without a heap there is no room for the first array, and its store faults. -/
theorem execveArray_null {strings : List (List (BitVec 8))} (backed : Backed process) (null : process.mapped 0 = false)
    (brk : process.mm.brk = 0) (brkStart : process.brkStart = 0) : execveArray strings process = none := by
  apply Option.eq_none_iff_forall_ne_some.mpr
  rintro ⟨array, after⟩ ran
  obtain ⟨⟨place, grown⟩, asked, ran⟩ := Option.bind_eq_some_iff.mp ran
  obtain ⟨cleared, clearing, _⟩ := Option.bind_eq_some_iff.mp ran
  obtain ⟨⟨_, next⟩, moved, same⟩ := Option.map_eq_some_iff.mp asked
  cases same
  have unmapped : grown.mapped 0 = false := by
    unfold UserProcess.syscallBrk at moved
    split at moved
    next =>
      cases moved
      exact null
    next =>
      split at moved
      next =>
        cases moved
        exact null
      next =>
        obtain ⟨⟨result, found, mm⟩, requested, mapping⟩ := Option.bind_eq_some_iff.mp moved
        obtain ⟨held, search, content⟩ := Option.bind_eq_some_iff.mp requested
        cases held with
        | none =>
          cases content
          cases mapping
          exact null
        | some vm =>
          obtain ⟨small, holds⟩ := mmapFindVm_holds backed.paged search
          have placed := backed.paged.placed small holds
          have lower := holds.1
          omega
  obtain ⟨present, _⟩ := store_some clearing
  have first := present.2 0 (Nat.succ_pos _)
  rw [brk] at first
  exact Bool.false_ne_true (unmapped.symm.trans first)

theorem store32_mm {after : UserProcess} {address value : Nat} (stored : process.store32 address value = some after) :
    after.mm = process.mm := by
  obtain ⟨_, same⟩ := store_some stored
  rw [same]

theorem execve_trace {result : Int} (load : execveLoad path buffer exec = some (some elf, loaded))
    (ran : schedProcessExecve path argv envp buffer exec = some (result, after)) :
    ∃ userArgv first userEnvp second, execveArray argv loaded.process = some (userArgv, first) ∧
      execveArray envp first = some (userEnvp, second) ∧ after.process.mm = second.mm := by
  rw [schedProcessExecve, load, Option.bind_some] at ran
  obtain ⟨⟨userArgv, first⟩, arguments, ran⟩ := Option.bind_eq_some_iff.mp ran
  obtain ⟨⟨userEnvp, second⟩, environment, ran⟩ := Option.bind_eq_some_iff.mp ran
  obtain ⟨third, word, ran⟩ := Option.bind_eq_some_iff.mp ran
  obtain ⟨fourth, more, ran⟩ := Option.bind_eq_some_iff.mp ran
  obtain ⟨last, count, same⟩ := Option.map_eq_some_iff.mp ran
  have process : after.process = last := congrArg (fun pair => pair.2.process) same.symm
  rw [process]
  exact ⟨userArgv, first, userEnvp, second, arguments, environment,
    (store32_mm count).trans ((store32_mm more).trans (store32_mm word))⟩

/-- The blocks of arguments that are in the heap are not longer than it. -/
theorem short_strings {strings : List (List (BitVec 8))} {memory : Memory} {array : Nat}
    (inHeap : ∀ block ∈ blocks memory array strings, InHeap process block) :
    strings.length + 1 ≤ heapUserTop ∧ ∀ string ∈ strings, string.length + 1 ≤ heapUserTop := by
  constructor
  · have block := inHeap _ List.mem_cons_self
    have upper := block.upper
    have heap := block.heap
    simp only at upper
    omega
  · intro string member
    obtain ⟨copy, known⟩ : ∃ copy, (copy, string.length + 1) ∈ copyBlocks memory array strings := copyBlocks_mem member
    have block := inHeap _ (List.mem_cons_of_mem _ known)
    have upper := block.upper
    have heap := block.heap
    simp only at upper
    omega

theorem launched_delivered_iff (load : execveLoad path buffer exec = some (some elf, loaded))
    (launched : Launched loaded.process elf.stack) :
    Delivered path argv envp buffer exec ↔ Deliverable argv envp loaded.process := by
  constructor
  · rintro ⟨result, after, stack, entry, argvAt, envpAt, ran, entered, arguments⟩
    obtain ⟨userArgv, first, userEnvp, second, ranArgv, ranEnvp, mm⟩ := execve_trace load ran
    have heap : loaded.process.brkStart ≠ 0 := by
      intro zero
      rw [execveArray_null launched.backed launched.null (launched.brk.trans zero) zero] at ranArgv
      cases ranArgv
    have room : loaded.process.brkStart + arrayRoom argv + arrayRoom envp ≤ heapUserTop := by
      obtain ⟨vm, found, stop⟩ := launched.heap heap
      obtain ⟨held, _⟩ := launched.toHeap found stop
      have start := launched.brk
      have within : Within loaded.process := ⟨start.ge, start.trans_le launched.below⟩
      obtain ⟨fewArgv, shortArgv⟩ := short_strings fun block member => arguments.inHeap block (List.mem_append_left _ member)
      obtain ⟨fewEnvp, shortEnvp⟩ := short_strings fun block member => arguments.inHeap block (List.mem_append_right _ member)
      obtain ⟨_, keepsArgv, advancesArgv⟩ := array_advances held (.inr within) fewArgv shortArgv ranArgv
      obtain ⟨_, keepsEnvp, advancesEnvp⟩ := array_advances keepsArgv.heap (advancesArgv.state keepsArgv) fewEnvp shortEnvp ranEnvp
      have block := arguments.inHeap _ (List.mem_append_left _ List.mem_cons_self)
      have upper := block.upper
      have below := block.heap
      rw [mm] at upper below
      rcases Advances.trans advancesArgv (fun _ => advancesEnvp) keepsArgv with above | ⟨_, brk, fits⟩
      · rcases above with zero | high
        · simp only at upper
          omega
        · exact absurd below (Nat.not_le.mpr high)
      · omega
    obtain ⟨final, again, enters, state⟩ := execve_enters load launched heap room
    rw [ran] at again
    cases again
    rw [entered] at enters
    cases enters
    obtain ⟨⟨fewArguments, fewVariables⟩, zeros⟩ := (state.arguments_iff room).mp ⟨_, _, arguments⟩
    exact ⟨heap, room, fewArguments, fewVariables, zeros⟩
  · intro deliverable
    obtain ⟨after, ran, entered, state⟩ := execve_enters load launched deliverable.heap deliverable.room
    obtain ⟨argvAt, envpAt, arguments⟩ := (state.arguments_iff deliverable.room).mpr
      ⟨⟨deliverable.fewArguments, deliverable.fewVariables⟩, deliverable.zeros⟩
    exact ⟨0, after, _, _, argvAt, envpAt, ran, entered, arguments⟩

end YuzuOS.Proofs.ExecveArguments
