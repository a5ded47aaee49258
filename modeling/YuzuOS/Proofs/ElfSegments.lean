import YuzuOS.Library.Run
import YuzuOS.Proofs.UserPages

/-! Loading of a well-formed executable, segment by segment. As long as the kernel
half of memory stays as it is, the loop over the program headers loads the
segments that the file lists, one after the other. -/

namespace YuzuOS.Proofs.ElfSegments
open YuzuOS.Library YuzuOS.Kernel YuzuOS.Proofs.UserPages

structure Elf32Phdr where
  type : Nat
  offset : Nat
  vaddr : Nat
  filesz : Nat
  memsz : Nat
  deriving DecidableEq

def phdrAt (memory : Memory) (pheader : Nat) : Elf32Phdr where
  type := memory.load32 pheader
  offset := memory.load32 (pheader + 4)
  vaddr := memory.load32 (pheader + 8)
  filesz := memory.load32 (pheader + 16)
  memsz := memory.load32 (pheader + 20)

def phoff (memory : Memory) (buffer : Nat) : Nat := memory.load32 (buffer + 28)

def phnum (memory : Memory) (buffer : Nat) : Nat := memory.load16 (buffer + 44)

def segmentsFrom (memory : Memory) : Nat → Nat → List Elf32Phdr
  | _, 0 => []
  | pheader, count + 1 =>
    if (phdrAt memory pheader).type = ptLoad then phdrAt memory pheader :: segmentsFrom memory (pheader + elf32PhdrSize) count
    else segmentsFrom memory (pheader + elf32PhdrSize) count

def segments (memory : Memory) (buffer : Nat) : List Elf32Phdr :=
  segmentsFrom memory (buffer + phoff memory buffer) (phnum memory buffer)

/-- Of two segments, the first lies in front of the second. -/
def Elf32Phdr.Before (first second : Elf32Phdr) : Prop :=
  first.vaddr ≤ second.vaddr ∧ (first.memsz = 0 ∨ second.memsz = 0 ∨ first.vaddr + first.memsz ≤ second.vaddr)

instance (first second : Elf32Phdr) : Decidable (first.Before second) := by unfold Elf32Phdr.Before; infer_instance

/-- A segment below the top of the user heap whose bytes are in the file. -/
structure Elf32Phdr.Inside (segment : Elf32Phdr) (length : Nat) : Prop where
  below : segment.vaddr + segment.memsz ≤ heapUserTop
  whole : segment.filesz ≤ segment.memsz
  inFile : segment.offset + segment.filesz ≤ length

/-- The bytes of a well-formed executable in a buffer of the kernel. -/
structure WellFormed (process : UserProcess) (buffer length : Nat) : Prop where
  kernel : kernelVirtAddr ≤ buffer
  fits : buffer + length < 2 ^ 32
  present : ∀ i < length, process.mapped ((buffer + i) / physMmBlock) = true
  header : 52 ≤ length
  verified : (elfVerify buffer ⟨process, [], []⟩).map Prod.fst = some 0
  phoff : phoff process.memory buffer ≠ 0
  phentsize : process.memory.load16 (buffer + 42) = elf32PhdrSize
  table : ElfSegments.phoff process.memory buffer + elf32PhdrSize * phnum process.memory buffer ≤ length
  inside : ∀ segment ∈ segments process.memory buffer, segment.Inside length
  ascending : (segments process.memory buffer).Pairwise Elf32Phdr.Before

def loadSegment (buffer : Nat) (process : UserProcess) (segment : Elf32Phdr) : Option UserProcess :=
  (process.mmapMap segment.vaddr segment.memsz).bind fun (_, process) =>
    if process.Present segment.vaddr segment.memsz then
      some { process with
        memory := (process.memory.fill segment.vaddr segment.memsz 0).write segment.vaddr segment.filesz fun i =>
          process.memory (buffer + segment.offset + i) }
    else none

/-- The kernel half of memory is as it was, and its pages are still there. -/
structure Steady (start process : UserProcess) : Prop where
  memory : ∀ place, kernelVirtAddr ≤ place → process.memory place = start.memory place
  pages : ∀ page, start.mapped page = true → process.mapped page = true

variable {start process next : UserProcess} {load after : Elf32Load}
  {buffer length address len pheader count turns : Nat} {segment : Elf32Phdr}

theorem Steady.refl (process : UserProcess) : Steady process process := ⟨fun _ _ => rfl, fun _ old => old⟩

theorem Steady.write {bytes : Nat → BitVec 8} (steady : Steady start process) (below : address + len ≤ kernelVirtAddr) :
    Steady start { process with memory := process.memory.write address len bytes } := by
  refine ⟨fun place high => ?_, steady.pages⟩
  have kept : process.memory.write address len bytes place = process.memory place := Memory.write_outside (by omega)
  exact kept.trans (steady.memory place high)

theorem Steady.load32 (steady : Steady start process) (kernel : kernelVirtAddr ≤ address) :
    process.memory.load32 address = start.memory.load32 address :=
  Memory.load32_congr fun _ _ => steady.memory _ (Nat.le_add_right_of_le kernel)

theorem Steady.load16 (steady : Steady start process) (kernel : kernelVirtAddr ≤ address) :
    process.memory.load16 address = start.memory.load16 address := by
  rw [Memory.load16, Memory.load16, steady.memory _ kernel, steady.memory _ (Nat.le_add_right_of_le kernel)]

theorem WellFormed.reads (formed : WellFormed start buffer length) (steady : Steady start process)
    (lower : buffer ≤ address) (upper : address + len ≤ buffer + length) : process.Present address len := by
  have fits := formed.fits
  refine ⟨by omega, fun i bound => ?_⟩
  have place : address + i = buffer + (address + i - buffer) := by omega
  rw [place]
  exact steady.pages _ (formed.present _ (by omega))

theorem read32_eq {reads writes : List (Nat × Nat)} (formed : WellFormed start buffer length)
    (steady : Steady start process) (lower : buffer ≤ address) (upper : address + 4 ≤ buffer + length) :
    Elf32Load.read32 address ⟨process, reads, writes⟩ =
      some (start.memory.load32 address, ⟨process, (address, 4) :: reads, writes⟩) := by
  rw [Elf32Load.read32, Elf32Load.read, if_pos (formed.reads steady lower upper), ← steady.load32 (formed.kernel.trans lower)]
  rfl

theorem read16_eq {reads writes : List (Nat × Nat)} (formed : WellFormed start buffer length)
    (steady : Steady start process) (lower : buffer ≤ address) (upper : address + 2 ≤ buffer + length) :
    Elf32Load.read16 address ⟨process, reads, writes⟩ =
      some (start.memory.load16 address, ⟨process, (address, 2) :: reads, writes⟩) := by
  rw [Elf32Load.read16, Elf32Load.read, if_pos (formed.reads steady lower upper), ← steady.load16 (formed.kernel.trans lower)]
  rfl

def segmentReads (buffer pheader : Nat) (segment : Elf32Phdr) : List (Nat × Nat) :=
  [(buffer + segment.offset, segment.filesz), (pheader + 16, 4), (pheader + 4, 4), (pheader + 8, 4), (pheader + 20, 4),
    (pheader + 8, 4), (pheader + 20, 4), (pheader + 8, 4), (pheader + 24, 4), (pheader, 4)]

def loadedSegment (buffer pheader : Nat) (segment : Elf32Phdr) (load : Elf32Load) (process : UserProcess) :
    Elf32Load where
  process := process
  reads := segmentReads buffer pheader segment ++ load.reads
  writes := (segment.vaddr, segment.filesz) :: (segment.vaddr, segment.memsz) :: load.writes

theorem elf32LoadSegment_other {reads writes : List (Nat × Nat)} (formed : WellFormed start buffer length)
    (steady : Steady start process) (lower : buffer ≤ pheader) (upper : pheader + elf32PhdrSize ≤ buffer + length)
    (other : (phdrAt start.memory pheader).type ≠ ptLoad) :
    elf32LoadSegment buffer pheader ⟨process, reads, writes⟩ = some ⟨process, (pheader, 4) :: reads, writes⟩ := by
  have size : elf32PhdrSize = 32 := rfl
  rw [elf32LoadSegment, read32_eq formed steady lower (by omega), Option.bind_some]
  exact if_pos other

/-- Clearing and copying leave the source alone, which is in the kernel half. -/
theorem memcpy_eq {reads writes : List (Nat × Nat)} (formed : WellFormed start buffer length)
    (steady : Steady start process) (inside : segment.Inside length)
    (present : process.Present segment.vaddr segment.memsz) :
    Elf32Load.memcpy segment.vaddr ((buffer + segment.offset) % 2 ^ 32) segment.filesz
        ⟨{ process with memory := process.memory.fill segment.vaddr segment.memsz 0 }, reads, writes⟩ =
      some ⟨{ process with
          memory := (process.memory.fill segment.vaddr segment.memsz 0).write segment.vaddr segment.filesz fun i =>
            process.memory (buffer + segment.offset + i) },
        (buffer + segment.offset, segment.filesz) :: reads, (segment.vaddr, segment.filesz) :: writes⟩ := by
  have below := inside.below
  have whole := inside.whole
  have inFile := inside.inFile
  have kernel := formed.kernel
  have fits := formed.fits
  have top : heapUserTop < kernelVirtAddr := by decide
  have cleared : Steady start { process with memory := process.memory.fill segment.vaddr segment.memsz 0 } :=
    steady.write (by omega)
  have source : (buffer + segment.offset) % 2 ^ 32 = buffer + segment.offset := Nat.mod_eq_of_lt (by omega)
  have reached : ({ process with memory := process.memory.fill segment.vaddr segment.memsz 0 } : UserProcess).Present
      segment.vaddr segment.filesz := ⟨by omega, fun i bound => present.2 i (by omega)⟩
  rw [source, Elf32Load.memcpy, Elf32Load.read, if_pos (formed.reads cleared (by omega) (by omega)), Option.bind_some,
    Elf32Load.write, if_pos reached, Option.map_some]
  simp only
  rw [Memory.copy_apart (.inl (by omega))]
  have same : ∀ i < segment.filesz, process.memory.fill segment.vaddr segment.memsz 0 (buffer + segment.offset + i) =
      process.memory (buffer + segment.offset + i) := fun i bound => Memory.write_outside (by omega)
  rw [Memory.write_congr same]

theorem elf32LoadSegment_eq {reads writes : List (Nat × Nat)} (formed : WellFormed start buffer length)
    (steady : Steady start process) (lower : buffer ≤ pheader) (upper : pheader + elf32PhdrSize ≤ buffer + length)
    (here : phdrAt start.memory pheader = segment) (kind : segment.type = ptLoad) (inside : segment.Inside length)
    (calm : ∀ result next, process.mmapMap segment.vaddr segment.memsz = some (result, next) → Steady start next) :
    elf32LoadSegment buffer pheader ⟨process, reads, writes⟩ =
      (loadSegment buffer process segment).map (loadedSegment buffer pheader segment ⟨process, reads, writes⟩) := by
  have size : elf32PhdrSize = 32 := rfl
  have vaddr : start.memory.load32 (pheader + 8) = segment.vaddr := congrArg Elf32Phdr.vaddr here
  have memsz : start.memory.load32 (pheader + 20) = segment.memsz := congrArg Elf32Phdr.memsz here
  have offset : start.memory.load32 (pheader + 4) = segment.offset := congrArg Elf32Phdr.offset here
  have filesz : start.memory.load32 (pheader + 16) = segment.filesz := congrArg Elf32Phdr.filesz here
  have type : start.memory.load32 pheader = ptLoad := (congrArg Elf32Phdr.type here).trans kind
  rw [elf32LoadSegment, read32_eq formed steady lower (by omega), Option.bind_some, type]
  simp only [ne_eq, not_true_eq_false, if_false]
  rw [read32_eq formed steady (by omega) (by omega), Option.bind_some, read32_eq formed steady (by omega) (by omega),
    Option.bind_some, read32_eq formed steady (by omega) (by omega), Option.bind_some, vaddr, memsz, loadSegment,
    Elf32Load.mmapMap]
  cases mapped : process.mmapMap segment.vaddr segment.memsz with
  | none => rfl
  | some pair =>
    obtain ⟨result, next⟩ := pair
    have later := calm result next mapped
    simp only [Option.map_some, Option.bind_some]
    rw [read32_eq formed later (by omega) (by omega), Option.bind_some, read32_eq formed later (by omega) (by omega),
      Option.bind_some, vaddr, memsz, Elf32Load.memset, Elf32Load.write]
    simp only
    split
    next present =>
      have kernel := formed.kernel
      have top : heapUserTop < kernelVirtAddr := by decide
      have below := inside.below
      have cleared : Steady start { next with memory := next.memory.fill segment.vaddr segment.memsz 0 } :=
        later.write (by omega)
      rw [Option.map_some, Option.bind_some, read32_eq formed cleared (by omega) (by omega), Option.bind_some,
        read32_eq formed cleared (by omega) (by omega), Option.bind_some, read32_eq formed cleared (by omega) (by omega),
        Option.bind_some, vaddr, offset, filesz, memcpy_eq formed later inside present]
      rfl
    next => rfl

theorem elf32LoadStop_eq {reads writes : List (Nat × Nat)} (formed : WellFormed start buffer length)
    (steady : Steady start process) :
    elf32LoadStop buffer ⟨process, reads, writes⟩ =
      some (buffer + phoff start.memory buffer + elf32PhdrSize * phnum start.memory buffer,
        ⟨process, [(buffer + 44, 2), (buffer + 42, 2), (buffer + 28, 4)] ++ reads, writes⟩) := by
  have header := formed.header
  have table := formed.table
  have fits := formed.fits
  have stop : (buffer + phoff start.memory buffer + elf32PhdrSize * phnum start.memory buffer) % 2 ^ 32 =
      buffer + phoff start.memory buffer + elf32PhdrSize * phnum start.memory buffer := Nat.mod_eq_of_lt (by omega)
  rw [elf32LoadStop, read32_eq formed steady (by omega) (by omega)]
  simp only [Option.bind_some]
  rw [read16_eq formed steady (by omega) (by omega)]
  simp only [Option.bind_some]
  rw [read16_eq formed steady (by omega) (by omega)]
  simp only [Option.map_some]
  rw [formed.phentsize]
  exact congrArg (fun stop => some (stop, _)) stop

/-- Loading the segments leaves the kernel half alone, also between mapping and writing. -/
def Calm (start : UserProcess) (buffer : Nat) : UserProcess → List Elf32Phdr → Prop
  | process, [] => Steady start process
  | process, segment :: rest => Steady start process ∧
      (∀ result next, process.mmapMap segment.vaddr segment.memsz = some (result, next) → Steady start next) ∧
      ∀ next, loadSegment buffer process segment = some next → Calm start buffer next rest

theorem Calm.steady {rest : List Elf32Phdr} (calm : Calm start buffer process rest) : Steady start process := by
  cases rest with
  | nil => exact calm
  | cons segment rest => exact calm.1

def InBuffer (buffer length : Nat) (entry : Nat × Nat) : Prop := buffer ≤ entry.1 ∧ entry.1 + entry.2 ≤ buffer + length

/-- A stretch of the user half that belongs to a segment. -/
def OfSegment (segments : List Elf32Phdr) (entry : Nat × Nat) : Prop :=
  ∃ segment ∈ segments, entry.1 = segment.vaddr ∧ entry.2 ≤ segment.memsz

structure Looped (buffer length : Nat) (load : Elf32Load) (rest : List Elf32Phdr) (result : Option Elf32Load)
    (reads writes : List (Nat × Nat)) : Prop where
  result : result = (run (loadSegment buffer) load.process rest).map fun process => ⟨process, reads, writes⟩
  reads : ∀ entry ∈ reads, entry ∈ load.reads ∨ InBuffer buffer length entry
  writes : ∀ entry ∈ writes, entry ∈ load.writes ∨ OfSegment rest entry

theorem segmentReads_inBuffer (lower : buffer ≤ pheader) (upper : pheader + elf32PhdrSize ≤ buffer + length)
    (inside : segment.Inside length) : ∀ entry ∈ segmentReads buffer pheader segment, InBuffer buffer length entry := by
  have inFile := inside.inFile
  have size : elf32PhdrSize = 32 := rfl
  intro entry member
  simp only [segmentReads, List.mem_cons, List.not_mem_nil, or_false] at member
  rcases member with rfl | rfl | rfl | rfl | rfl | rfl | rfl | rfl | rfl | rfl <;> exact ⟨by simp only; omega, by simp only; omega⟩

theorem stopReads_inBuffer (formed : WellFormed start buffer length) :
    ∀ entry ∈ [(buffer + 44, 2), (buffer + 42, 2), (buffer + 28, 4)], InBuffer buffer length entry := by
  have header := formed.header
  intro entry member
  simp only [List.mem_cons, List.not_mem_nil, or_false] at member
  rcases member with rfl | rfl | rfl <;> exact ⟨by simp only; omega, by simp only; omega⟩

theorem Looped.more {first : Elf32Load} {rest : List Elf32Phdr} {result : Option Elf32Load}
    {reads writes : List (Nat × Nat)} (looped : Looped buffer length first rest result reads writes)
    (process : first.process = load.process)
    (before : ∀ entry ∈ first.reads, entry ∈ load.reads ∨ InBuffer buffer length entry)
    (kept : first.writes = load.writes) :
    Looped buffer length load rest result reads writes := by
  refine ⟨process ▸ looped.result, fun entry member => ?_, kept ▸ looped.writes⟩
  exact (looped.reads entry member).elim (before entry) .inr

theorem elf32LoadLoop_looped (formed : WellFormed start buffer length) (load : Elf32Load)
    (calm : Calm start buffer load.process (segmentsFrom start.memory pheader count)) (lower : buffer ≤ pheader)
    (positive : 0 < pheader)
    (place : pheader + elf32PhdrSize * count = buffer + phoff start.memory buffer + elf32PhdrSize * phnum start.memory buffer)
    (inside : ∀ segment ∈ segmentsFrom start.memory pheader count, segment.Inside length) (enough : count < turns) :
    ∃ reads writes, Looped buffer length load (segmentsFrom start.memory pheader count)
      (elf32LoadLoop buffer turns pheader load) reads writes := by
  have size : elf32PhdrSize = 32 := rfl
  have table := formed.table
  have fits := formed.fits
  induction count generalizing pheader turns load with
  | zero =>
    obtain ⟨turns, rfl⟩ := Nat.exists_eq_succ_of_ne_zero (Nat.ne_of_gt enough)
    obtain ⟨process, reads, writes⟩ := load
    have steady : Steady start process := calm.steady
    refine ⟨[(buffer + 44, 2), (buffer + 42, 2), (buffer + 28, 4)] ++ reads, writes, ?_, fun entry member => ?_, fun _ => .inl⟩
    · rw [elf32LoadLoop, if_neg (Nat.ne_of_gt positive), elf32LoadStop_eq formed steady, Option.bind_some]
      exact if_neg (by omega)
    · exact (List.mem_append.mp member).elim (fun new => .inr (stopReads_inBuffer formed entry new)) .inl
  | succ count ih =>
    obtain ⟨turns, rfl⟩ := Nat.exists_eq_succ_of_ne_zero (Nat.ne_of_gt (Nat.zero_lt_of_lt enough))
    have sum : elf32PhdrSize * (count + 1) = elf32PhdrSize * count + elf32PhdrSize := Nat.mul_succ _ _
    have upper : pheader + elf32PhdrSize ≤ buffer + length := by omega
    have below : pheader < buffer + phoff start.memory buffer + elf32PhdrSize * phnum start.memory buffer := by omega
    have next : (pheader + elf32PhdrSize) % 2 ^ 32 = pheader + elf32PhdrSize := Nat.mod_eq_of_lt (by omega)
    obtain ⟨process, reads, writes⟩ := load
    have steady : Steady start process := calm.steady
    rw [elf32LoadLoop, if_neg (Nat.ne_of_gt positive), elf32LoadStop_eq formed steady, Option.bind_some]
    simp only
    rw [if_pos below, next]
    have onward : pheader + elf32PhdrSize + elf32PhdrSize * count =
        buffer + phoff start.memory buffer + elf32PhdrSize * phnum start.memory buffer := by omega
    rw [segmentsFrom] at calm inside ⊢
    split at calm
    next kind =>
      rw [if_pos kind] at inside ⊢
      obtain ⟨_, mapping, later⟩ := calm
      have first := inside _ List.mem_cons_self
      rw [elf32LoadSegment_eq formed steady lower upper rfl kind first mapping]
      cases loaded : loadSegment buffer process (phdrAt start.memory pheader) with
      | none =>
        refine ⟨reads, writes, ?_, fun _ => .inl, fun _ => .inl⟩
        rw [run, loaded]
        rfl
      | some after =>
        have ends := ih (loadedSegment buffer pheader (phdrAt start.memory pheader)
          ⟨process, [(buffer + 44, 2), (buffer + 42, 2), (buffer + 28, 4)] ++ reads, writes⟩ after)
          (later after loaded) (by omega) (by omega) onward (fun other member => inside other (List.mem_cons_of_mem _ member))
          (Nat.lt_of_succ_lt_succ enough)
        obtain ⟨allReads, allWrites, result, read, written⟩ := ends
        refine ⟨allReads, allWrites, ?_, fun entry member => ?_, fun entry member => ?_⟩
        · rw [run, loaded]
          exact result
        · rcases read entry member with old | new
          · simp only [loadedSegment, List.mem_append] at old
            rcases old with here | stop | old
            · exact .inr (segmentReads_inBuffer lower upper first entry here)
            · exact .inr (stopReads_inBuffer formed entry stop)
            · exact .inl old
          · exact .inr new
        · rcases written entry member with old | ⟨other, known, bounds⟩
          · simp only [loadedSegment, List.mem_cons] at old
            rcases old with rfl | rfl | old
            · exact .inr ⟨_, List.mem_cons_self, rfl, first.whole⟩
            · exact .inr ⟨_, List.mem_cons_self, rfl, le_rfl⟩
            · exact .inl old
          · exact .inr ⟨other, List.mem_cons_of_mem _ known, bounds⟩
    next kind =>
      rw [if_neg kind] at inside ⊢
      rw [elf32LoadSegment_other formed steady lower upper kind, Option.bind_some]
      obtain ⟨allReads, allWrites, looped⟩ := ih ⟨process, (pheader, 4) ::
        ([(buffer + 44, 2), (buffer + 42, 2), (buffer + 28, 4)] ++ reads), writes⟩ calm (by omega) (by omega) onward inside
        (Nat.lt_of_succ_lt_succ enough)
      refine ⟨allReads, allWrites, looped.more rfl (fun entry member => ?_) rfl⟩
      rcases List.mem_cons.mp member with rfl | later
      · exact .inr ⟨lower, by simp only; omega⟩
      · exact (List.mem_append.mp later).elim (fun stop => .inr (stopReads_inBuffer formed entry stop)) .inl

structure OnlyReads (buffer length : Nat) (load after : Elf32Load) : Prop where
  process : after.process = load.process
  reads : ∀ entry ∈ after.reads, entry ∈ load.reads ∨ InBuffer buffer length entry
  writes : after.writes = load.writes

theorem OnlyReads.refl : OnlyReads buffer length load load := ⟨rfl, fun _ => .inl, rfl⟩

theorem OnlyReads.trans {final : Elf32Load} (first : OnlyReads buffer length load after)
    (last : OnlyReads buffer length after final) :
    OnlyReads buffer length load final :=
  ⟨last.process.trans first.process, fun entry member => (last.reads entry member).elim (first.reads entry) .inr,
    last.writes.trans first.writes⟩

theorem read_onlyReads (lower : buffer ≤ address) (upper : address + len ≤ buffer + length)
    (ran : load.read address len = some after) : OnlyReads buffer length load after := by
  obtain ⟨_, same⟩ := Option.ite_none_right_eq_some.mp ran
  cases same
  refine ⟨rfl, fun entry member => ?_, rfl⟩
  rcases List.mem_cons.mp member with rfl | old
  · exact .inr ⟨lower, upper⟩
  · exact .inl old

theorem read8_onlyReads {value : Nat} (lower : buffer ≤ address) (upper : address + 1 ≤ buffer + length)
    (ran : load.read8 address = some (value, after)) : OnlyReads buffer length load after := by
  obtain ⟨_, reading, same⟩ := Option.map_eq_some_iff.mp ran
  cases same
  exact read_onlyReads lower upper reading

theorem read16_onlyReads {value : Nat} (lower : buffer ≤ address) (upper : address + 2 ≤ buffer + length)
    (ran : load.read16 address = some (value, after)) : OnlyReads buffer length load after := by
  obtain ⟨_, reading, same⟩ := Option.map_eq_some_iff.mp ran
  cases same
  exact read_onlyReads lower upper reading

theorem read32_onlyReads {value : Nat} (lower : buffer ≤ address) (upper : address + 4 ≤ buffer + length)
    (ran : load.read32 address = some (value, after)) : OnlyReads buffer length load after := by
  obtain ⟨_, reading, same⟩ := Option.map_eq_some_iff.mp ran
  cases same
  exact read_onlyReads lower upper reading

theorem elfVerifyIdent_onlyReads {checks : List (Nat × Nat × Int)} {result : Int}
    (inside : ∀ check ∈ checks, check.1 < length) (ran : elfVerifyIdent buffer checks load = some (result, after)) :
    OnlyReads buffer length load after := by
  induction checks generalizing load with
  | nil =>
    cases ran
    exact .refl
  | cons check rest ih =>
    have here := inside check List.mem_cons_self
    obtain ⟨⟨byte, next⟩, reading, ran⟩ := Option.bind_eq_some_iff.mp ran
    have first : OnlyReads buffer length load next := read8_onlyReads (by omega) (by omega) reading
    simp only at ran
    split at ran
    next => exact first.trans (ih (fun other member => inside other (List.mem_cons_of_mem _ member)) ran)
    next =>
      cases ran
      exact first

theorem elfVerify_onlyReads {result : Int} (header : 52 ≤ length) (ran : elfVerify buffer load = some (result, after)) :
    OnlyReads buffer length load after := by
  obtain ⟨⟨_, first⟩, ident, ran⟩ := Option.bind_eq_some_iff.mp ran
  have indices : ∀ check ∈ elfIdentChecks, check.1 < 52 := by decide
  have begins : OnlyReads buffer length load first :=
    elfVerifyIdent_onlyReads (fun check member => (indices check member).trans_le header) ident
  simp only at ran
  split at ran
  next =>
    cases ran
    exact begins
  next =>
    obtain ⟨⟨_, second⟩, machine, ran⟩ := Option.bind_eq_some_iff.mp ran
    have middle := begins.trans (read16_onlyReads (by omega) (by omega) machine)
    simp only at ran
    split at ran
    next =>
      cases ran
      exact middle
    next =>
      obtain ⟨⟨_, third⟩, type, ran⟩ := Option.bind_eq_some_iff.mp ran
      have ends := middle.trans (read16_onlyReads (by omega) (by omega) type)
      simp only at ran
      split at ran <;> cases ran <;> exact ends

/-- A load in a process with other frames to come. -/
def Elf32Load.retake (frames : Nat → Nat → BitVec 8) (load : Elf32Load) : Elf32Load :=
  { load with process.frames := frames }

section Retaking

variable (frames : Nat → Nat → BitVec 8) (load : Elf32Load)

theorem read_retake (address len : Nat) :
    (Elf32Load.retake frames load).read address len = (load.read address len).map (Elf32Load.retake frames) := by
  unfold Elf32Load.read
  by_cases present : load.process.Present address len
  · rw [if_pos present]
    exact if_pos present
  · rw [if_neg present]
    exact if_neg present

theorem read8_retake (address : Nat) : (Elf32Load.retake frames load).read8 address =
    (load.read8 address).map fun (value, load) => (value, Elf32Load.retake frames load) := by
  rw [Elf32Load.read8, Elf32Load.read8, read_retake, Option.map_map, Option.map_map]
  rfl

theorem read16_retake (address : Nat) : (Elf32Load.retake frames load).read16 address =
    (load.read16 address).map fun (value, load) => (value, Elf32Load.retake frames load) := by
  rw [Elf32Load.read16, Elf32Load.read16, read_retake, Option.map_map, Option.map_map]
  rfl

theorem elfVerifyIdent_retake (checks : List (Nat × Nat × Int)) :
    elfVerifyIdent buffer checks (Elf32Load.retake frames load) =
    (elfVerifyIdent buffer checks load).map fun (result, load) => (result, Elf32Load.retake frames load) := by
  induction checks generalizing load with
  | nil => rfl
  | cons check rest ih =>
    rw [elfVerifyIdent, elfVerifyIdent, read8_retake]
    cases load.read8 (buffer + check.1) with
    | none => rfl
    | some pair =>
      simp only [Option.map_some, Option.bind_some]
      split
      next => exact ih pair.2
      next => rfl

/-- Whether a header is accepted does not depend on the frames to come. -/
theorem elfVerify_retake : elfVerify buffer (Elf32Load.retake frames load) =
    (elfVerify buffer load).map fun (result, load) => (result, Elf32Load.retake frames load) := by
  rw [elfVerify, elfVerify, elfVerifyIdent_retake]
  cases elfVerifyIdent buffer elfIdentChecks load with
  | none => rfl
  | some pair =>
    simp only [Option.map_some, Option.bind_some]
    split
    next => rfl
    next =>
      rw [read16_retake]
      cases pair.2.read16 (buffer + 18) with
      | none => rfl
      | some machine =>
        simp only [Option.map_some, Option.bind_some]
        split
        next => rfl
        next =>
          rw [read16_retake]
          cases machine.2.read16 (buffer + 16) with
          | none => rfl
          | some type =>
            simp only [Option.map_some, Option.bind_some]
            split <;> rfl

end Retaking

theorem WellFormed.retake (formed : WellFormed process buffer length) (frames : Nat → Nat → BitVec 8) :
    WellFormed { process with frames } buffer length := by
  refine ⟨formed.kernel, formed.fits, formed.present, formed.header, ?_, formed.phoff, formed.phentsize, formed.table, formed.inside,
    formed.ascending⟩
  have same : elfVerify buffer (Elf32Load.retake frames ⟨process, [], []⟩) = _ := elfVerify_retake frames ⟨process, [], []⟩
  rw [Elf32Load.retake] at same
  rw [same, Option.map_map]
  exact formed.verified

theorem elf32Load_eq (formed : WellFormed start buffer length)
    (calm : Calm start buffer start (segments start.memory buffer)) :
    ∃ reads writes, elf32Load buffer start =
      ((run (loadSegment buffer) start (segments start.memory buffer)).bind fun process =>
        (elf32LoadLayout buffer ⟨process, reads, writes⟩).map fun (layout, load) => (some layout, load)) ∧
      (∀ entry ∈ reads, InBuffer buffer length entry) ∧
        ∀ entry ∈ writes, OfSegment (segments start.memory buffer) entry := by
  have kernel := formed.kernel
  have header := formed.header
  have fits := formed.fits
  have table := formed.table
  have top : 0 < kernelVirtAddr := by decide
  have size : elf32PhdrSize = 32 := rfl
  obtain ⟨⟨result, ⟨process, reads, writes⟩⟩, verified, rfl⟩ := Option.map_eq_some_iff.mp formed.verified
  have only := elfVerify_onlyReads header verified
  have same : process = start := only.process
  have none : writes = [] := only.writes
  subst same none
  have count : phnum process.memory buffer < elf32Turns := by
    have first := (process.memory (buffer + 44)).isLt
    have second := (process.memory (buffer + 44 + 1)).isLt
    unfold phnum Memory.load16 elf32Turns
    omega
  have place : (buffer + phoff process.memory buffer) % 2 ^ 32 = buffer + phoff process.memory buffer := Nat.mod_eq_of_lt (by omega)
  have steady := Steady.refl process
  obtain ⟨allReads, allWrites, looped⟩ := elf32LoadLoop_looped formed
    ⟨process, (buffer + 28, 4) :: (buffer + 28, 4) :: reads, []⟩ calm (Nat.le_add_right _ _) (by omega) rfl formed.inside count
  refine ⟨allReads, allWrites, ?_, fun entry member => ?_, fun entry member => ?_⟩
  · rw [elf32Load, if_neg (by omega), verified, Option.bind_some]
    simp only [ne_eq, not_true_eq_false, if_false]
    rw [read32_eq formed steady (by omega) (by omega), Option.bind_some]
    have stored : process.memory.load32 (buffer + 28) = phoff process.memory buffer := rfl
    simp only [stored]
    rw [if_neg formed.phoff, read32_eq formed steady (by omega) (by omega), Option.bind_some]
    simp only [stored, place]
    rw [looped.result, Option.bind_map]
    rfl
  · rcases looped.reads entry member with old | new
    · simp only [List.mem_cons] at old
      rcases old with rfl | rfl | old
      · exact ⟨by simp only; omega, by simp only; omega⟩
      · exact ⟨by simp only; omega, by simp only; omega⟩
      · exact (only.reads entry old).resolve_left List.not_mem_nil
    · exact new
  · exact (looped.writes entry member).resolve_left List.not_mem_nil

end YuzuOS.Proofs.ElfSegments
