import YuzuOS.Proofs.UserBreak
import YuzuOS.Kernel.Execve

/-! Room for what a new program is given. Moving the break only moves the end of
a memory that was there before: the pages of the heap area, and behind them the
frames that growing it will take. -/

namespace YuzuOS.Proofs.ExecveHeap
open YuzuOS.Library YuzuOS.Kernel YuzuOS.Proofs.MemoryAreas YuzuOS.Proofs.UserPages YuzuOS.Proofs.UserBreak

variable {process after : UserProcess} {vm start stop turns address len addr : Nat}

structure TakesFrames (process after : UserProcess) (start stop : Nat) : Prop where
  memory : ∀ place, start ≤ place → place < stop →
    after.memory place = process.frames (process.taken + (place - start) / physMmBlock) (place % physMmBlock)
  before : ∀ place < start, after.memory place = process.memory place
  taken : after.taken = process.taken + (stop - start) / physMmBlock
  frames : after.frames = process.frames

theorem TakesFrames.refl (none : stop ≤ start) : TakesFrames process process start stop := by
  refine ⟨fun place lower upper => by omega, fun _ _ => rfl, ?_, rfl⟩
  rw [Nat.sub_eq_zero_of_le none]
  rfl

theorem TakesFrames.step (aligned : OnPage start) (inside : start + physMmBlock ≤ stop)
    (later : TakesFrames (process.mapAddr start) after (start + physMmBlock) stop) :
    TakesFrames process after start stop := by
  have size : physMmBlock = 4096 := rfl
  have here := aligned.aligned
  have page : start / physMmBlock * physMmBlock = start := Nat.div_mul_cancel (Nat.dvd_of_mod_eq_zero here)
  have memory : (process.mapAddr start).memory = process.memory.write start physMmBlock (process.frames process.taken) := by
    rw [UserProcess.mapAddr, page]
  have taken : (process.mapAddr start).taken = process.taken + 1 := rfl
  have frames : (process.mapAddr start).frames = process.frames := rfl
  rw [size] at here
  refine ⟨fun place lower upper => ?_, fun place below => ?_, ?_, later.frames⟩
  · rcases Nat.lt_or_ge place (start + physMmBlock) with first | behind
    · have offset : place - start = place % physMmBlock := by
        rw [size] at first ⊢
        omega
      have none : (place - start) / physMmBlock = 0 := Nat.div_eq_of_lt (by omega)
      rw [later.before place first, memory, Memory.write_inside lower first, none, Nat.add_zero, offset]
    · have count : 1 + (place - (start + physMmBlock)) / physMmBlock = (place - start) / physMmBlock := by
        rw [size] at behind ⊢
        omega
      rw [later.memory place behind upper, taken, frames, Nat.add_assoc, count]
  · rw [later.before place (by omega), memory, Memory.write_outside (.inl below)]
  · rw [later.taken, taken]
    rw [size] at inside ⊢
    omega

theorem mapPages_takes (aligned : OnPage start) (whole : OnPage stop)
    (ran : UserProcess.mapPages turns stop start process = some after) : TakesFrames process after start stop := by
  induction turns generalizing start process with
  | zero => cases ran
  | succ turns ih =>
    rw [UserProcess.mapPages] at ran
    split at ran
    next below =>
      have here := aligned.aligned
      have there := whole.aligned
      have small := whole.fits
      have inside : start + physMmBlock ≤ stop := by
        unfold physMmBlock at *
        omega
      have next : OnPage (start + physMmBlock) := ⟨by simp [here], by unfold physMmBlock at *; omega⟩
      rw [Nat.mod_eq_of_lt next.fits] at ran
      exact .step aligned inside (ih next ran)
    next none =>
      cases ran
      exact .refl (Nat.not_lt.mp none)

/-- What every place of the heap holds as soon as its page is mapped. -/
def heapMemory (process : UserProcess) (vm : Nat) : Memory := fun place =>
  if place < (process.mm.vms vm).stop then process.memory place
  else process.frames (process.taken + (place - (process.mm.vms vm).stop) / physMmBlock) (place % physMmBlock)

structure Heap (process : UserProcess) (vm : Nat) : Prop where
  backed : Backed process
  found : mmapFindVm process.brkStart process.mm = some (some vm)
  base : OnPage process.brkStart
  onPage : OnPage process.mm.brk
  reached : process.mm.brk ≤ (process.mm.vms vm).stop
  null : process.mapped 0 = false

theorem Heap.holds (heap : Heap process vm) : vm < process.mm.vmCount ∧ Holds process.mm process.brkStart vm :=
  mmapFindVm_holds heap.backed.paged heap.found

theorem Heap.positive (heap : Heap process vm) : physMmBlock ≤ process.brkStart := by
  obtain ⟨small, holds⟩ := heap.holds
  have placed := heap.backed.paged.placed small holds
  have lower := holds.1
  have aligned := heap.base.aligned
  unfold physMmBlock at *
  omega

theorem Heap.ends (heap : Heap process vm) : OnPage (process.mm.vms vm).stop :=
  heap.backed.paged.stop vm heap.holds.1

theorem Heap.memory {memory : Memory} (heap : Heap process vm) : Heap { process with memory } vm :=
  ⟨heap.backed.memory, heap.found, heap.base, heap.onPage, heap.reached, heap.null⟩

theorem Heap.present (heap : Heap process vm) (lower : process.brkStart ≤ address)
    (upper : address + len ≤ (process.mm.vms vm).stop) :
    process.Present address len := by
  obtain ⟨small, start, _⟩ := heap.holds
  refine ⟨upper.trans heap.ends.fits.le, fun i inside => ?_⟩
  exact heap.backed.backed vm small _ (by omega) (by omega)

structure Keeps (process after : UserProcess) (vm : Nat) : Prop where
  heap : Heap after vm
  brkStart : after.brkStart = process.brkStart
  pages : ∀ page, process.mapped page = true → after.mapped page = true

theorem Keeps.refl (heap : Heap process vm) : Keeps process process vm := ⟨heap, rfl, fun _ old => old⟩

theorem Keeps.trans {last : UserProcess} (first : Keeps process after vm) (second : Keeps after last vm) :
    Keeps process last vm :=
  ⟨second.heap, second.brkStart.trans first.brkStart, fun page old => second.pages page (first.pages page old)⟩

theorem Keeps.memory {memory : Memory} (keeps : Keeps process after vm) : Keeps process { after with memory } vm :=
  ⟨keeps.heap.memory, keeps.brkStart, keeps.pages⟩

theorem Heap.store (heap : Heap process vm) (bytes : Nat → BitVec 8) (lower : process.brkStart ≤ address)
    (upper : address + len ≤ (process.mm.vms vm).stop) :
    ∃ next, process.store address len bytes = some next ∧ Keeps process next vm ∧ next.mm = process.mm ∧
      heapMemory next vm = (heapMemory process vm).write address len bytes := by
  refine ⟨_, if_pos (heap.present lower upper), (Keeps.refl heap).memory, rfl, ?_⟩
  funext place
  unfold heapMemory Memory.write
  simp only
  split
  next => rfl
  next behind =>
    have outside : ¬(address ≤ place ∧ place < address + len) := by omega
    rw [if_neg outside]

def nextBrk (brkStart brk increment : Nat) : Nat :=
  if (brk + increment) % 2 ^ 32 < brkStart then brk else pageAlign ((brk + increment) % 2 ^ 32)

theorem heapMemory_grown (heap : Heap process vm) (grown : MapsHeap process after vm addr) :
    heapMemory after vm = heapMemory process vm := by
  have old := heap.ends
  have new : OnPage (after.mm.vms vm).stop := by
    obtain ⟨small, _⟩ := mmapFindVm_holds grown.backed.paged grown.found
    exact grown.backed.paged.stop vm small
  have takes := mapPages_takes old new grown.ran
  have larger := grown.larger
  have aligned := old.aligned
  have whole := new.aligned
  have taken : after.taken = process.taken + _ := takes.taken
  have frames : after.frames = process.frames := takes.frames
  have size : physMmBlock = 4096 := rfl
  rw [size] at aligned whole
  funext place
  unfold heapMemory
  rcases Nat.lt_or_ge place (process.mm.vms vm).stop with inside | behind
  · rw [if_pos inside, if_pos (inside.trans_le larger)]
    exact takes.before place inside
  · rw [if_neg (Nat.not_lt.mpr behind)]
    split
    next mapped => exact takes.memory place behind mapped
    next further =>
      have count : ((after.mm.vms vm).stop - (process.mm.vms vm).stop) / physMmBlock +
          (place - (after.mm.vms vm).stop) / physMmBlock = (place - (process.mm.vms vm).stop) / physMmBlock := by
        rw [size]
        omega
      rw [frames, taken, Nat.add_assoc, count]

/-- A request for room always returns the old break. -/
theorem Heap.sbrk (heap : Heap process vm) (increment : Nat) :
    ∃ after, process.schedProcessSbrk increment = some (process.mm.brk, after) ∧ Keeps process after vm ∧
      after.mm.brk = nextBrk process.brkStart process.mm.brk increment ∧
        heapMemory after vm = heapMemory process vm := by
  have positive := heap.positive
  have page : 0 < physMmBlock := by decide
  unfold UserProcess.schedProcessSbrk UserProcess.syscallBrk nextBrk
  split
  next null =>
    rw [if_pos (by omega)]
    exact ⟨process, rfl, .refl heap, rfl, rfl⟩
  next =>
    split
    next below => exact ⟨process, rfl, .refl heap, rfl, rfl⟩
    next above =>
      have small : (process.mm.brk + increment) % 2 ^ 32 < 2 ^ 32 := Nat.mod_lt _ (by decide)
      obtain ⟨after, ran, grown⟩ := mmapBrk_maps heap.backed heap.found (Nat.not_lt.mp above) small
      have brkStart : after.brkStart = process.brkStart := grown.maps.brkStart
      rw [ran]
      refine ⟨after, rfl, ⟨⟨grown.backed, brkStart ▸ grown.found, brkStart ▸ heap.base, ?_, ?_, ?_⟩, brkStart,
        grown.maps.extends.pages⟩, grown.brk, heapMemory_grown heap grown⟩
      · rw [grown.brk]
        exact pageAlign_onPage _
      · rw [grown.brk]
        exact grown.reached
      · -- the heap area does not start at zero, and so does not end there
        have stop := heap.holds.2.2
        apply Bool.eq_false_iff.mpr
        intro mapped
        rcases (grown.maps.pages 0).mp mapped with old | ⟨lower, _⟩
        · exact Bool.false_ne_true (heap.null.symm.trans old)
        · omega

end YuzuOS.Proofs.ExecveHeap
