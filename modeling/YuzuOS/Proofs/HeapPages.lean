import Mathlib.Data.List.Nodup
import YuzuOS.Library.Run
import YuzuOS.Kernel.Malloc

/-! Runs of the break of the kernel heap. Frames are asked for by the bytes that
are missing, and pages are mapped by rounded addresses; both are the same pages. -/

namespace YuzuOS.Proofs.HeapPages
open YuzuOS.Library YuzuOS.Kernel

structure SbrkCall where
  increment : Nat
  physical : Nat

def sbrkStep (state : PagedHeap) (call : SbrkCall) : Option PagedHeap :=
  (mallocSbrkPaged call.increment call.physical state).map Prod.snd

def sbrkStart (memory : Memory) : PagedHeap := ⟨⟨memory, 0, heapBottom, 0⟩, [], []⟩

/-- The break stays below the top of the heap, and where frames are asked for, a
block of as many is given. -/
structure Within (state : PagedHeap) (call : SbrkCall) : Prop where
  below : state.heap.current + call.increment ≤ heapTop
  succeeds : state.heap.remaining < call.increment →
    call.physical ≠ 0 ∧ call.physical % physMmBlock = 0 ∧
      call.physical + physMmBlock * divCeil (call.increment - state.heap.remaining) physMmBlock ≤ 2 ^ 32

instance (state : PagedHeap) (call : SbrkCall) : Decidable (Within state call) :=
  decidable_of_iff (_ ∧ _) ⟨fun both => ⟨both.1, both.2⟩, fun within => ⟨within.below, within.succeeds⟩⟩

/-- The end of the pages that are mapped. -/
def mappedEnd (heap : Malloc) : Nat := heap.current + heap.remaining

def pagesFrom (start count : Nat) : List Nat := (List.range count).map fun i => start + physMmBlock * i

/-- Each page up to the end is mapped once and to a frame of its own. -/
structure Accounted (state : PagedHeap) : Prop where
  aligned : mappedEnd state.heap % physMmBlock = 0
  part : state.heap.remaining < physMmBlock
  bottom : heapBottom ≤ state.heap.current
  top : mappedEnd state.heap ≤ heapTop
  pages : state.mapped.map Mapping.virtual = pagesFrom heapBottom ((mappedEnd state.heap - heapBottom) / physMmBlock)
  frames : state.mapped.map Mapping.physical = state.granted

structure Adds (before after : PagedHeap) (call : SbrkCall) (count : Nat) : Prop where
  granted : after.granted = before.granted ++ grantedFrames call.physical count
  mapped : ∃ pages, after.mapped = before.mapped ++ pages ∧
    pages.map Mapping.virtual = pagesFrom (mappedEnd before.heap) count ∧
    pages.map Mapping.physical = grantedFrames call.physical count

variable {state : PagedHeap} {call : SbrkCall} {turns stop physical address count : Nat}

/-- The loop maps as many pages as the stop is away, to consecutive frames. -/
theorem mapFrames_spec (mapped : List Mapping) (enough : count < turns) (reaches : stop ≤ address + physMmBlock * count)
    (last : count ≠ 0 → address + physMmBlock * count < stop + physMmBlock)
    (bounded : address + physMmBlock * count < 2 ^ 32) (granted : physical + physMmBlock * count ≤ 2 ^ 32) :
    mallocMapFrames turns stop physical address mapped = some (address + physMmBlock * count,
      mapped ++ (List.range count).map fun i => ⟨address + physMmBlock * i, physical + physMmBlock * i⟩) := by
  induction count generalizing turns physical address mapped with
  | zero =>
    obtain ⟨turns, rfl⟩ := Nat.exists_eq_succ_of_ne_zero (Nat.ne_of_gt enough)
    have done : ¬address < stop := Nat.not_lt.mpr reaches
    simp [mallocMapFrames, done]
  | succ count ih =>
    obtain ⟨turns, rfl⟩ := Nat.exists_eq_succ_of_ne_zero (Nat.ne_of_gt (Nat.zero_lt_of_lt enough))
    have near := last (Nat.succ_ne_zero count)
    have split : physMmBlock * (count + 1) = physMmBlock * count + physMmBlock := Nat.mul_succ _ _
    rw [split] at reaches near bounded granted
    have more : address < stop := by omega
    have next : (address + physMmBlock) % 2 ^ 32 = address + physMmBlock := Nat.mod_eq_of_lt (by omega)
    rw [mallocMapFrames, if_pos more, next, split]
    cases count with
    | zero =>
      obtain ⟨turns, rfl⟩ := Nat.exists_eq_succ_of_ne_zero (Nat.ne_of_gt (Nat.lt_of_succ_lt_succ enough))
      have done : ¬address + physMmBlock < stop := by omega
      simp [mallocMapFrames, done]
    | succ count =>
      have frame : (physical + physMmBlock) % 2 ^ 32 = physical + physMmBlock := Nat.mod_eq_of_lt (by
        have positive : 0 < physMmBlock * (count + 1) := Nat.mul_pos (by decide) (Nat.succ_pos count)
        omega)
      rw [frame, ih _ (by omega) (by omega) (fun _ => by omega) (by omega) (by omega), List.range_succ_eq_map (n := count + 1)]
      simp only [List.map_cons, List.map_map, List.append_assoc, List.singleton_append, Option.some.injEq, Prod.mk.injEq]
      refine ⟨by omega, congrArg (mapped ++ ·) (List.cons_eq_cons.mpr ⟨rfl, List.map_congr_left fun i _ => ?_⟩)⟩
      have shifted : physMmBlock * (i + 1) = physMmBlock * i + physMmBlock := Nat.mul_succ _ _
      simp only [Function.comp_apply, Nat.succ_eq_add_one, shifted, Mapping.mk.injEq]
      omega

theorem pagesFrom_append (start first count : Nat) :
    pagesFrom start (first + count) = pagesFrom start first ++ pagesFrom (start + physMmBlock * first) count := by
  simp only [pagesFrom, List.range_add, List.map_append, List.map_map, List.append_cancel_left_eq]
  refine List.map_congr_left fun i _ => ?_
  simp only [Function.comp_apply, Nat.mul_add, Nat.add_assoc]

/-- The part of a page that is left makes the rounded break the end of the pages. -/
theorem Accounted.rounded (accounted : Accounted state) :
    divCeil state.heap.current physMmBlock * physMmBlock = mappedEnd state.heap := by
  have aligned := accounted.aligned
  have part := accounted.part
  unfold mappedEnd physMmBlock at *
  unfold divCeil
  split <;> omega

/-- Rounding the missing bytes up gives less than a page too much. -/
theorem divCeil_block (missing : Nat) : missing ≤ physMmBlock * divCeil missing physMmBlock ∧
    physMmBlock * divCeil missing physMmBlock < missing + physMmBlock := by
  unfold divCeil physMmBlock
  split <;> omega

def kept (state : PagedHeap) (call : SbrkCall) : PagedHeap := { state with heap := { state.heap with
  memory := state.heap.memory.fill state.heap.current call.increment 0
  current := state.heap.current + call.increment
  remaining := state.heap.remaining - call.increment } }

def extended (state : PagedHeap) (call : SbrkCall) (count : Nat) : PagedHeap where
  heap := { state.heap with
    memory := state.heap.memory.fill state.heap.current call.increment 0
    current := state.heap.current + call.increment
    remaining := mappedEnd state.heap + physMmBlock * count - (state.heap.current + call.increment) }
  granted := state.granted ++ grantedFrames call.physical count
  mapped := state.mapped ++ (List.range count).map fun i => ⟨mappedEnd state.heap + physMmBlock * i, call.physical + physMmBlock * i⟩

theorem kept_accounted (accounted : Accounted state) (left : call.increment ≤ state.heap.remaining) :
    Accounted (kept state call) ∧ Adds state (kept state call) call 0 := by
  have stays : mappedEnd (kept state call).heap = mappedEnd state.heap := by
    simp only [kept, mappedEnd]
    omega
  refine ⟨⟨?_, ?_, accounted.bottom.trans (Nat.le_add_right _ _), ?_, ?_, accounted.frames⟩,
    (List.append_nil _).symm, [], (List.append_nil _).symm, rfl, rfl⟩
  · rw [stays]
    exact accounted.aligned
  · exact (Nat.sub_le _ _).trans_lt accounted.part
  · rw [stays]
    exact accounted.top
  · rw [stays]
    exact accounted.pages

theorem extended_accounted {count : Nat} (accounted : Accounted state) (missing : state.heap.remaining < call.increment)
    (enough : call.increment - state.heap.remaining ≤ physMmBlock * count)
    (near : physMmBlock * count < call.increment - state.heap.remaining + physMmBlock)
    (below : mappedEnd state.heap + physMmBlock * count ≤ heapTop) :
    Accounted (extended state call count) ∧ Adds state (extended state call count) call count := by
  have start : mappedEnd state.heap = state.heap.current + state.heap.remaining := rfl
  have aligned := accounted.aligned
  have bottom := accounted.bottom
  have ends : mappedEnd (extended state call count).heap = mappedEnd state.heap + physMmBlock * count := by
    simp only [extended, mappedEnd]
    omega
  have multiple : heapBottom % physMmBlock = 0 := rfl
  have pages : (mappedEnd state.heap + physMmBlock * count - heapBottom) / physMmBlock =
      (mappedEnd state.heap - heapBottom) / physMmBlock + count := by
    rw [Nat.sub_add_comm (by omega), Nat.add_mul_div_left _ _ (by decide)]
  have whole : heapBottom + physMmBlock * ((mappedEnd state.heap - heapBottom) / physMmBlock) = mappedEnd state.heap := by
    rw [Nat.mul_div_cancel' (Nat.dvd_sub (Nat.dvd_of_mod_eq_zero aligned) (Nat.dvd_of_mod_eq_zero multiple))]
    omega
  refine ⟨⟨?_, ?_, bottom.trans (Nat.le_add_right _ _), ?_, ?_, ?_⟩, rfl, _, rfl, ?_, ?_⟩
  · rw [ends, Nat.add_mul_mod_self_left]
    exact aligned
  · simp only [extended]
    omega
  · rw [ends]
    exact below
  · rw [ends, pages, pagesFrom_append, whole, ← accounted.pages, extended, List.map_append, List.map_map]
    rfl
  · rw [extended, List.map_append, List.map_map, accounted.frames]
    rfl
  · rw [List.map_map]
    rfl
  · rw [List.map_map]
    rfl

theorem sbrkStep_accounted (accounted : Accounted state) (within : Within state call) :
    ∃ after count, sbrkStep state call = some after ∧ Accounted after ∧ Adds state after call count := by
  have top : heapTop = 0xF0000000 := rfl
  have below := within.below
  have current : (state.heap.current + call.increment) % 2 ^ 32 = state.heap.current + call.increment := Nat.mod_eq_of_lt (by omega)
  by_cases left : call.increment ≤ state.heap.remaining
  · by_cases none : call.increment = 0
    · refine ⟨state, 0, ?_, accounted, (List.append_nil _).symm, [], (List.append_nil _).symm, rfl, rfl⟩
      simp only [sbrkStep, mallocSbrkPaged, none, if_true, Option.map_some]
    · refine ⟨kept state call, 0, ?_, kept_accounted accounted left⟩
      simp only [sbrkStep, mallocSbrkPaged, none, left, current, if_true, if_false, Option.map_some, kept]
  · have missing := Nat.not_le.mp left
    obtain ⟨_, _, granted⟩ := within.succeeds missing
    obtain ⟨enough, near⟩ := divCeil_block (call.increment - state.heap.remaining)
    generalize counted : divCeil (call.increment - state.heap.remaining) physMmBlock = count at granted enough near
    have start : mappedEnd state.heap = state.heap.current + state.heap.remaining := rfl
    have aligned := accounted.aligned
    have highest : mappedEnd state.heap + physMmBlock * count ≤ heapTop := by
      unfold physMmBlock heapTop at *
      omega
    have first : mappedEnd state.heap % 2 ^ 32 = mappedEnd state.heap := Nat.mod_eq_of_lt (by omega)
    have turns : count < 2 ^ 20 + 1 := by
      unfold physMmBlock at granted
      omega
    have reaches : state.heap.current + call.increment ≤ mappedEnd state.heap + physMmBlock * count := by omega
    have loop := mapFrames_spec state.mapped turns reaches (fun _ => by omega) (by omega) granted
    have remaining : (mappedEnd state.heap + physMmBlock * count + 2 ^ 32 - (state.heap.current + call.increment)) % 2 ^ 32 =
        mappedEnd state.heap + physMmBlock * count - (state.heap.current + call.increment) := by omega
    have some : call.increment ≠ 0 := by omega
    refine ⟨extended state call count, count, ?_, extended_accounted accounted missing enough near highest⟩
    simp only [sbrkStep, mallocSbrkPaged, some, left, current, if_false, accounted.rounded, first, loop, counted, remaining,
      Option.map_some, extended]

section Heap

theorem mapFrames_pages (turns : Nat) (mapped : List Mapping) :
    (mallocMapFrames turns stop physical address mapped).map Prod.fst = mallocMapPages turns stop address := by
  induction turns generalizing physical address mapped with
  | zero => rfl
  | succ turns ih =>
    rw [mallocMapFrames, mallocMapPages]
    split
    next => exact ih _
    next => rfl

theorem mapPages_end {last : Nat} (bounded : address < 2 ^ 32) (ends : mallocMapPages turns stop address = some last) :
    stop ≤ last ∧ last < 2 ^ 32 := by
  induction turns generalizing address with
  | zero => cases ends
  | succ turns ih =>
    rw [mallocMapPages] at ends
    split at ends
    next => exact ih (Nat.mod_lt _ (by decide)) ends
    next done =>
      cases ends
      exact ⟨Nat.not_lt.mp done, bounded⟩

/-- The break with its pages is the break of the heap. -/
theorem sbrkPaged_heap {increment : Nat} (inside : state.heap.current + increment < 2 ^ 32) :
    (mallocSbrkPaged increment physical state).map (fun result => (result.1, result.2.heap)) =
      mallocSbrk increment state.heap := by
  have current : (state.heap.current + increment) % 2 ^ 32 = state.heap.current + increment := Nat.mod_eq_of_lt inside
  simp only [mallocSbrkPaged, mallocSbrk, current, Nat.not_le.mpr inside, if_false]
  split
  next => rfl
  next =>
    split
    next => rfl
    next =>
      rw [← mapFrames_pages (2 ^ 20 + 1) state.mapped, Option.map_map, Option.map_map]
      refine Option.map_congr fun result ended => ?_
      have loop := (mapFrames_pages (2 ^ 20 + 1) state.mapped).symm.trans (congrArg (Option.map Prod.fst) (Option.mem_def.mp ended))
      obtain ⟨above, below⟩ := mapPages_end (Nat.mod_lt _ (by decide)) loop
      have remaining : (result.1 + 2 ^ 32 - (state.heap.current + increment)) % 2 ^ 32 = result.1 - (state.heap.current + increment) := by
        omega
      simp only [Function.comp_apply, remaining]

end Heap

theorem sbrkStart_accounted (memory : Memory) : Accounted (sbrkStart memory) := by
  have multiple : heapBottom % physMmBlock = 0 := rfl
  have part : 0 < physMmBlock := by decide
  have below : heapBottom ≤ heapTop := by decide
  have none : (mappedEnd (sbrkStart memory).heap - heapBottom) / physMmBlock = 0 := by
    simp [sbrkStart, mappedEnd]
  exact ⟨multiple, part, Nat.le_refl _, below, by rw [none]; rfl, rfl⟩

theorem mem_pagesFrom {start count page : Nat} (aligned : start % physMmBlock = 0) :
    page ∈ pagesFrom start count ↔ page % physMmBlock = 0 ∧ start ≤ page ∧ page < start + physMmBlock * count := by
  unfold pagesFrom physMmBlock at *
  simp only [List.mem_map, List.mem_range]
  constructor
  · rintro ⟨i, less, rfl⟩
    omega
  · rintro ⟨multiple, above, below⟩
    exact ⟨(page - start) / 4096, by omega, by omega⟩

theorem pagesFrom_nodup (start count : Nat) : (pagesFrom start count).Nodup := by
  refine List.Nodup.map_on (fun i _ j _ same => ?_) List.nodup_range
  have product : physMmBlock * i = physMmBlock * j := Nat.add_left_cancel same
  exact Nat.eq_of_mul_eq_mul_left (by decide) product

/-- After every call the pages of the heap up to the end of the last one that was begun,
and no others, are mapped once, and the call has mapped as many pages as it asked for
frames, one to each of those. -/
theorem sbrk_accounts {memory : Memory} {calls : List SbrkCall}
    (met : Meets sbrkStep Within (sbrkStart memory) (calls ++ [call])) :
    ∃ before after count, run sbrkStep (sbrkStart memory) calls = some before ∧ sbrkStep before call = some after ∧
      mappedEnd after.heap % physMmBlock = 0 ∧ after.heap.remaining < physMmBlock ∧
      (after.mapped.map Mapping.virtual).Nodup ∧
      (∀ page, page ∈ after.mapped.map Mapping.virtual ↔
        page % physMmBlock = 0 ∧ heapBottom ≤ page ∧ page < mappedEnd after.heap) ∧
      after.granted.length = before.granted.length + count ∧ after.mapped.length = before.mapped.length + count ∧
      after.mapped.map Mapping.physical = after.granted ∧ Adds before after call count := by
  have returns (state : PagedHeap) (call : SbrkCall) (accounted : Accounted state) (within : Within state call) :
      ∃ after, sbrkStep state call = some after ∧ Accounted after := by
    obtain ⟨after, _, stepped, kept, _⟩ := sbrkStep_accounted accounted within
    exact ⟨after, stepped, kept⟩
  obtain ⟨all, ran, _⟩ := run_returns Accounted returns (sbrkStart_accounted memory) met
  obtain ⟨before, first, _⟩ := run_append.mp ran
  obtain ⟨earlier, last⟩ := meets_append met first
  have accounted : Accounted before := by
    obtain ⟨other, again, kept⟩ := run_returns Accounted returns (sbrkStart_accounted memory) earlier
    cases first.symm.trans again
    exact kept
  obtain ⟨after, count, stepped, kept, adds⟩ := sbrkStep_accounted accounted last.1
  obtain ⟨pages, mapped, virtual, _⟩ := adds.mapped
  have length : pages.length = count := by
    rw [← List.length_map (f := Mapping.virtual), virtual, pagesFrom, List.length_map, List.length_range]
  have multiple : heapBottom % physMmBlock = 0 := rfl
  have above : heapBottom ≤ mappedEnd after.heap := kept.bottom.trans (Nat.le_add_right _ _)
  have whole : heapBottom + physMmBlock * ((mappedEnd after.heap - heapBottom) / physMmBlock) = mappedEnd after.heap := by
    rw [Nat.mul_div_cancel' (Nat.dvd_sub (Nat.dvd_of_mod_eq_zero kept.aligned) (Nat.dvd_of_mod_eq_zero multiple))]
    omega
  refine ⟨before, after, count, first, stepped, kept.aligned, kept.part, ?_, fun page => ?_, ?_, ?_, kept.frames, adds⟩
  · rw [kept.pages]
    exact pagesFrom_nodup _ _
  · rw [kept.pages, mem_pagesFrom multiple, whole]
  · rw [adds.granted, List.length_append, grantedFrames, List.length_map, List.length_range]
  · rw [mapped, List.length_append, length]

/-- Ten bytes take the first page, 5000 a second one, and 9000 two more. -/
theorem sbrk_accounts_example :
    ∃ before after, run sbrkStep (sbrkStart fun _ => 0) [⟨10, 0x200000⟩, ⟨5000, 0x300000⟩] = some before ∧
    sbrkStep before ⟨9000, 0x400000⟩ = some after ∧ after.mapped.length = before.mapped.length + 2 ∧
    mappedEnd after.heap % physMmBlock = 0 := by
  have reached : (run sbrkStep (sbrkStart fun _ => 0) [⟨10, 0x200000⟩, ⟨5000, 0x300000⟩]).map
      (fun before => (before.mapped.length, (sbrkStep before ⟨9000, 0x400000⟩).map fun after => after.mapped.length)) =
      some (2, some 4) := by decide +kernel
  have met : Meets sbrkStep Within (sbrkStart fun _ => 0) ([⟨10, 0x200000⟩, ⟨5000, 0x300000⟩] ++ [⟨9000, 0x400000⟩]) := by
    decide +kernel
  obtain ⟨before, after, count, ran, stepped, aligned, _⟩ := sbrk_accounts met
  rw [ran, Option.map_some, stepped, Option.map_some] at reached
  simp only [Option.some.injEq, Prod.mk.injEq] at reached
  exact ⟨before, after, ran, stepped, by omega, aligned⟩

end YuzuOS.Proofs.HeapPages
