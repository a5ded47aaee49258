import YuzuOS.Proofs.ElfImage

/-! What a load touches. A well-formed executable is read inside its buffer and
written only to user pages that were mapped for it; nothing checks the fields of
the program headers, so other executables reach the kernel. -/

namespace YuzuOS.Proofs.ElfSafety
open YuzuOS.Library YuzuOS.Kernel YuzuOS.Proofs.UserPages YuzuOS.Proofs.ElfSegments YuzuOS.Proofs.ElfLoading
open YuzuOS.Proofs.ElfImage

variable {process next final : UserProcess} {segment : Elf32Phdr} {segs : List Elf32Phdr} {buffer length : Nat}
  {layout : Elf32Layout} {load : Elf32Load} {reads writes : List (Nat × Nat)}

/-- Reads inside the buffer, and writes below the kernel to pages that became present. -/
structure Confined (process : UserProcess) (buffer length : Nat) (load : Elf32Load) : Prop where
  reads : ∀ entry ∈ load.reads, InBuffer buffer length entry
  below : ∀ entry ∈ load.writes, entry.1 + entry.2 ≤ kernelVirtAddr
  mapped : ∀ entry ∈ load.writes, ∀ i < entry.2, process.mapped ((entry.1 + i) / physMmBlock) = false ∧
    load.process.mapped ((entry.1 + i) / physMmBlock) = true

structure Widens (process next : UserProcess) : Prop where
  backed : Backed next
  pages : ∀ page, process.mapped page = true → next.mapped page = true

theorem mmapMap_widens {vaddr memsz result : Nat} (backed : Backed process) (small : vaddr < 2 ^ 32)
    (ran : process.mmapMap vaddr memsz = some (result, next)) : Widens process next := by
  obtain ⟨_, _, _, kept, maps⟩ := userMmapMap_spec backed small ran
  exact ⟨kept, fun page old => maps.extends.pages page old⟩

theorem loadSegment_widens (backed : Backed process) (small : segment.vaddr < 2 ^ 32)
    (loaded : loadSegment buffer process segment = some next) :
    Widens process next ∧ next.Present segment.vaddr segment.memsz := by
  obtain ⟨_, mapped, ran, present, rfl⟩ := loadSegment_some loaded
  have widens := mmapMap_widens backed small ran
  exact ⟨⟨widens.backed.memory, widens.pages⟩, present⟩

theorem run_widens (backed : Backed process) (small : ∀ segment ∈ segs, segment.vaddr < 2 ^ 32)
    (ran : run (loadSegment buffer) process segs = some final) :
    Widens process final ∧ ∀ segment ∈ segs, final.Present segment.vaddr segment.memsz := by
  induction segs generalizing process with
  | nil =>
    cases ran
    exact ⟨⟨backed, fun _ old => old⟩, by simp⟩
  | cons segment rest ih =>
    obtain ⟨next, loaded, ran⟩ := run_cons.mp ran
    obtain ⟨first, present⟩ := loadSegment_widens backed (small segment List.mem_cons_self) loaded
    obtain ⟨later, others⟩ := ih first.backed (fun other member => small other (List.mem_cons_of_mem _ member)) ran
    refine ⟨⟨later.backed, fun page old => later.pages page (first.pages page old)⟩, fun other member => ?_⟩
    rcases List.mem_cons.mp member with rfl | member
    · exact ⟨present.1, fun i inside => later.pages _ (present.2 i inside)⟩
    · exact others other member

theorem layout_widens (backed : Backed process)
    (laid : elf32LoadLayout buffer ⟨process, reads, writes⟩ = some (layout, load)) :
    Widens process load.process ∧ load.reads = (buffer + 24, 4) :: reads ∧ load.writes = writes := by
  obtain ⟨heap, next, stack, final, heapMap, stackMap, rfl⟩ := layout_trace laid
  have first := mmapMap_widens backed (by decide) heapMap
  have last := mmapMap_widens (Backed.started first.backed) (by decide) stackMap
  exact ⟨⟨last.backed, fun page old => last.pages page (first.pages page old)⟩, rfl, rfl⟩

theorem load_confined (fresh : Fresh process) (formed : WellFormed process buffer length)
    (ran : elf32Load buffer process = some (some layout, load)) : Confined process buffer length load := by
  have tidy := WellFormed.tidy formed
  have header := formed.header
  have top : heapUserTop < kernelVirtAddr := by decide
  have small : ∀ segment ∈ segments process.memory buffer, segment.vaddr < 2 ^ 32 := by
    intro segment member
    have below := tidy.below segment member
    unfold heapUserTop at below
    omega
  obtain ⟨reads, writes, same, read, written⟩ := elf32Load_eq formed (load_calm fresh formed)
  rw [same] at ran
  obtain ⟨final, segmented, finish⟩ := Option.bind_eq_some_iff.mp ran
  obtain ⟨⟨_, _⟩, laid, content⟩ := Option.map_eq_some_iff.mp finish
  cases content
  obtain ⟨first, present⟩ := run_widens fresh.backed small segmented
  obtain ⟨last, allReads, allWrites⟩ := layout_widens first.backed laid
  refine ⟨fun entry member => ?_, fun entry member => ?_, fun entry member i inside => ?_⟩
  · rw [allReads] at member
    rcases List.mem_cons.mp member with rfl | known
    · exact ⟨Nat.le_add_right _ _, by simp only; omega⟩
    · exact read entry known
  · rw [allWrites] at member
    obtain ⟨segment, known, address, size⟩ := written entry member
    have below := tidy.below segment known
    omega
  · rw [allWrites] at member
    obtain ⟨segment, known, address, size⟩ := written entry member
    have below := tidy.below segment known
    rw [address]
    refine ⟨fresh.unmapped _ ?_, last.pages _ ((present segment known).2 i (by omega))⟩
    have lower := Nat.div_mul_le_self (segment.vaddr + i) physMmBlock
    omega

/-- A refused file has been read in its header at most. -/
theorem refused_confined (header : 52 ≤ length)
    (ran : elf32Load buffer process = some (none, load)) :
    (∀ entry ∈ load.reads, InBuffer buffer length entry) ∧ load.writes = [] := by
  rw [elf32Load] at ran
  split at ran
  next =>
    cases ran
    exact ⟨by simp, rfl⟩
  next =>
    obtain ⟨⟨result, verified⟩, verify, ran⟩ := Option.bind_eq_some_iff.mp ran
    have only := elfVerify_onlyReads header verify
    simp only at ran
    split at ran
    next =>
      cases ran
      exact ⟨fun entry member => (only.reads entry member).resolve_left List.not_mem_nil, only.writes⟩
    next =>
      obtain ⟨⟨phoff, first⟩, reading, ran⟩ := Option.bind_eq_some_iff.mp ran
      simp only at ran
      split at ran
      next =>
        cases ran
        have both := only.trans (read32_onlyReads (by omega) (by omega) reading)
        exact ⟨fun entry member => (both.reads entry member).resolve_left List.not_mem_nil, both.writes⟩
      next =>
        obtain ⟨⟨_, second⟩, _, ran⟩ := Option.bind_eq_some_iff.mp ran
        obtain ⟨looped, _, ran⟩ := Option.bind_eq_some_iff.mp ran
        obtain ⟨⟨_, _⟩, _, content⟩ := Option.map_eq_some_iff.mp ran
        cases content

/-- A file of at least a header: refused, it has been read in its header and nothing
was written; well-formed, it loads within its buffer and its own pages, and the load
returns when the segments keep to pages of their own. -/
theorem executable_confined (fresh : Fresh process) (header : 52 ≤ length) :
    (∀ load, elf32Load buffer process = some (none, load) →
      (∀ entry ∈ load.reads, InBuffer buffer length entry) ∧ load.writes = []) ∧
    (WellFormed process buffer length →
      (∀ layout load, elf32Load buffer process = some (some layout, load) → Confined process buffer length load) ∧
      (Separate (segments process.memory buffer) → ∃ layout load, elf32Load buffer process = some (some layout, load))) := by
  refine ⟨fun load ran => refused_confined header ran, fun formed => ⟨fun layout load ran => load_confined fresh formed ran, ?_⟩⟩
  intro separate
  obtain ⟨layout, load, ran, _⟩ := load_imaged fresh formed separate
  exact ⟨layout, load, ran⟩

theorem executable_confined_example : ∃ layout load,
    elf32Load 0xD0001000 (elfProcess 0xD0001000 (twoSegments 0x20)) = some (some layout, load) ∧
      Confined (elfProcess 0xD0001000 (twoSegments 0x20)) 0xD0001000 121 load := by
  have confined := (executable_confined (elfProcess_fresh 0xD0001000 (twoSegments 0x20)) (by decide)).2
    (twoSegments_formed (.inr rfl))
  have listed : segments (elfProcess 0xD0001000 (twoSegments 0x20)).memory 0xD0001000 =
      [⟨1, 116, 0x1000, 4, 16⟩, ⟨1, 120, 0x2008, 1, 3⟩] := twoSegments_listed (.inr rfl)
  obtain ⟨layout, load, ran⟩ := confined.2 (by rw [listed]; exact twoSegments_separate)
  exact ⟨layout, load, ran, confined.1 layout load ran⟩

/-- Between two segments of the program, four bytes for an address of the kernel and no memory size. -/
def hostileSegment : List (BitVec 8) :=
  [0x7F, 0x45, 0x4C, 0x46, 1, 1, 1, 0, 0, 0, 0, 0, 0, 0, 0, 0, 2, 0, 3, 0, 1, 0, 0, 0, 4, 0x10, 0, 0, 52, 0, 0, 0,
    0, 0, 0, 0, 0, 0, 0, 0, 52, 0, 32, 0, 3, 0, 0, 0, 0, 0, 0, 0,
    1, 0, 0, 0, 148, 0, 0, 0, 0, 0x10, 0, 0, 0, 0x10, 0, 0, 4, 0, 0, 0, 16, 0, 0, 0, 5, 0, 0, 0, 0, 0, 0, 0,
    1, 0, 0, 0, 148, 0, 0, 0, 0, 0, 0x10, 0xC0, 0, 0, 0x10, 0xC0, 4, 0, 0, 0, 0, 0, 0, 0, 6, 0, 0, 0, 0, 0, 0, 0,
    1, 0, 0, 0, 148, 0, 0, 0, 0, 0x20, 0, 0, 0, 0x20, 0, 0, 4, 0, 0, 0, 16, 0, 0, 0, 6, 0, 0, 0, 0, 0, 0, 0,
    9, 8, 7, 6]

/-- The bytes are copied over what the kernel has there, and the load returns. -/
theorem kernel_overwritten : ∃ layout load,
    elf32Load 0xD0001000 (elfProcess 0xD0001000 hostileSegment) = some (some layout, load) ∧
      (0xC0100000, 4) ∈ load.writes ∧ ¬Confined (elfProcess 0xD0001000 hostileSegment) 0xD0001000 152 load := by
  have ends : (elf32Load 0xD0001000 (elfProcess 0xD0001000 hostileSegment)).map (fun result =>
      (result.1.isSome, decide ((0xC0100000, 4) ∈ result.2.writes))) = some (true, true) := by decide +kernel
  obtain ⟨⟨returned, load⟩, loaded, same⟩ := Option.map_eq_some_iff.mp ends
  simp only [Prod.mk.injEq, decide_eq_true_eq] at same
  obtain ⟨filled, written⟩ := same
  obtain ⟨layout, rfl⟩ := Option.isSome_iff_exists.mp filled
  exact ⟨layout, load, loaded, written, fun confined => absurd (confined.below _ written) (by decide)⟩

end YuzuOS.Proofs.ElfSafety
