import YuzuOS.Kernel.Ide

/-! Transfers from the disk. The driver waits while the disk is busy, and takes every other status for a sector
that is ready. -/

namespace YuzuOS.Proofs.IdeTransfers
open YuzuOS.Library YuzuOS.Kernel YuzuOS.Kernel.AtaPorts

variable {turns buffer lba sectors size : Nat} {memory : Memory} {Disk : Type} {ports : AtaPorts Disk}

/-! ### Words -/

def storeWords (buffer : Nat) (memory : Memory) : List Nat → Memory
  | [] => memory
  | word :: rest => storeWords (buffer + 2) (memory.write buffer 2 (Memory.wordByte word)) rest

def wordBytes (words : List Nat) (i : Nat) : BitVec 8 := Memory.wordByte (words.getD (i / 2) 0) (i % 2)

theorem storeWords_write (words : List Nat) :
    storeWords buffer memory words = memory.write buffer (2 * words.length) (wordBytes words) := by
  induction words generalizing buffer memory with
  | nil => exact Memory.write_zero.symm
  | cons word rest ih =>
    have total : 2 * (word :: rest).length = 2 + 2 * rest.length := by
      rw [List.length_cons]
      omega
    have first : memory.write buffer 2 (Memory.wordByte word) = memory.write buffer 2 (wordBytes (word :: rest)) := by
      refine Memory.write_congr fun i small => ?_
      rw [wordBytes, Nat.div_eq_of_lt small, Nat.mod_eq_of_lt small]
      rfl
    have behind (i : Nat) : wordBytes rest i = wordBytes (word :: rest) (2 + i) := by
      rw [wordBytes, wordBytes, Nat.add_div_left _ (by decide), Nat.add_mod_left]
      rfl
    have bytes : wordBytes rest = fun i => wordBytes (word :: rest) (2 + i) := funext behind
    rw [storeWords, ih, total, first, bytes, Memory.write_append]

theorem storeWords_zero (words : List Nat) : storeWords 0 (fun _ => 0) words = wordBytes words := by
  rw [storeWords_write]
  funext i
  by_cases inside : i < 2 * words.length
  · rw [Memory.write_inside (Nat.zero_le i) (by omega), Nat.sub_zero]
  · rw [Memory.write_outside (.inr (by omega)), wordBytes, List.getD_eq_default _ _ (by omega), Memory.wordByte, Nat.zero_div]
    rfl

theorem storeWords_append (words more : List Nat) :
    storeWords buffer memory (words ++ more) = storeWords (buffer + 2 * words.length) (storeWords buffer memory words) more := by
  induction words generalizing buffer memory with
  | nil => rfl
  | cons word rest ih =>
    have place : buffer + 2 * (word :: rest).length = buffer + 2 + 2 * rest.length := by
      rw [List.length_cons]
      omega
    rw [List.cons_append, storeWords, ih, place]
    rfl

theorem wordByte_load16 (device : Memory) (base : Nat) {i : Nat} (small : i < 2) :
    Memory.wordByte (device.load16 base) i = device (base + i) := by
  have first := (device base).isLt
  have second := (device (base + 1)).isLt
  apply BitVec.eq_of_toNat_eq
  unfold Memory.wordByte Memory.load16
  rw [BitVec.toNat_ofNat]
  have which : i = 0 ∨ i = 1 := by omega
  obtain rfl | rfl := which
  · rw [Nat.pow_zero, base.add_zero]
    omega
  · omega

/-! ### Any disk -/

def polled (ports : AtaPorts Disk) : Nat → Disk → Disk
  | 0, disk => disk
  | count + 1, disk => polled ports count (ports.inb disk).2

/-- A disk that sets no error bit while it is busy, and is not busy for `turns` reads of its status. -/
structure Calm (ports : AtaPorts Disk) (turns : Nat) (calm : Disk → Prop) : Prop where
  inb : ∀ disk, calm disk → calm (ports.inb disk).2
  inw : ∀ disk, calm disk → calm (ports.inw disk).2
  outb : ∀ disk, calm disk → ∀ offset value, calm (ports.outb offset value disk)
  quiet : ∀ disk, calm disk → (ports.inb disk).1 &&& ataRegBusy ≠ 0 →
    (ports.inb disk).1 &&& ataRegError = 0 ∧ (ports.inb disk).1 &&& ataRegDf = 0
  ends : ∀ disk, calm disk → ∃ count < turns, (ports.inb (polled ports count disk)).1 &&& ataRegBusy = 0

def recording (ports : AtaPorts Disk) : AtaPorts (Disk × List Nat) where
  inb := fun (disk, words) => let (status, disk) := ports.inb disk; (status, disk, words)
  inw := fun (disk, words) => let (word, disk) := ports.inw disk; (word, disk, words ++ [word])
  outb := fun offset value (disk, words) => (ports.outb offset value disk, words)

section AnyDisk

variable {calm : Disk → Prop} (calms : Calm ports turns calm) {disk : Disk}
include calms

theorem polling_succeeds {turns count : Nat} (words : List Nat) (good : calm disk) (few : count < turns)
    (free : (ports.inb (polled ports count disk)).1 &&& ataRegBusy = 0) :
    ∃ after, (recording ports).ideAtaPolling turns (disk, words) = some (true, after, words) ∧ calm after := by
  induction turns generalizing disk count with
  | zero => cases few
  | succ turns ih =>
    have kept := calms.inb disk good
    rw [ideAtaPolling]
    by_cases ready : (ports.inb disk).1 &&& ataRegBusy = 0 ∨ (ports.inb disk).1 &&& ataRegDrq ≠ 0
    · exact ⟨_, if_pos ready, kept⟩
    · have busy := (not_or.mp ready).1
      obtain ⟨error, fault⟩ := calms.quiet disk good busy
      have fine : ¬((ports.inb disk).1 &&& ataRegError ≠ 0 ∨ (ports.inb disk).1 &&& ataRegDf ≠ 0) := by
        rw [error, fault]
        simp
      cases count with
      | zero => exact absurd free busy
      | succ count =>
        obtain ⟨after, rest, later⟩ := ih kept (Nat.lt_of_succ_lt_succ few) free
        exact ⟨after, (if_neg ready).trans ((if_neg fine).trans rest), later⟩

theorem polling_calm (words : List Nat) (good : calm disk) :
    ∃ after, (recording ports).ideAtaPolling turns (disk, words) = some (true, after, words) ∧ calm after := by
  obtain ⟨count, few, free⟩ := calms.ends disk good
  exact polling_succeeds calms words good few free

theorem delay_calm (good : calm disk) : calm (ports.ideAtaDelay400ns disk) :=
  calms.inb _ (calms.inb _ (calms.inb _ (calms.inb _ good)))

theorem address_calm (master : Bool) (address : BitVec 32) (count : BitVec 8) (good : calm disk) :
    calm (ports.ideAtaAddress master address count disk) :=
  calms.outb _ (calms.outb _ (calms.outb _ (calms.outb _ (calms.outb _ (delay_calm calms (calms.outb _ good _ _)) _ _) _ _) _ _) _ _) _ _

theorem insw_calm (len buffer : Nat) (memory : Memory) (words : List Nat) (good : calm disk) :
    ∃ taken after, (recording ports).insw len buffer memory (disk, words) =
        (storeWords buffer memory taken, after, words ++ taken) ∧ taken.length = len ∧ calm after := by
  induction len generalizing disk words buffer memory with
  | zero => exact ⟨[], disk, by rw [insw, List.append_nil]; rfl, rfl, good⟩
  | succ len ih =>
    obtain ⟨taken, after, rest, length, later⟩ := ih (buffer + 2) (memory.write buffer 2 (Memory.wordByte (ports.inw disk).1))
      (words ++ [(ports.inw disk).1]) (calms.inw disk good)
    refine ⟨(ports.inw disk).1 :: taken, after, ?_, congrArg Nat.succ length, later⟩
    rw [insw]
    refine rest.trans ?_
    rw [List.append_assoc]
    rfl

theorem readLoop_calm (buffer : Nat) (memory : Memory) (words : List Nat) (good : calm disk) :
    ∃ taken after, (recording ports).ideAtaReadLoop turns sectors buffer memory (disk, words) =
        some (0, storeWords buffer memory taken, after, words ++ taken) ∧ taken.length = 256 * sectors ∧ calm after := by
  induction sectors generalizing disk words buffer memory with
  | zero => exact ⟨[], disk, by rw [ideAtaReadLoop, List.append_nil]; rfl, rfl, good⟩
  | succ sectors ih =>
    obtain ⟨taken, middle, sector, length, kept⟩ := insw_calm calms 256 buffer memory words good
    obtain ⟨ready, polling, going⟩ := polling_calm calms (words ++ taken) (delay_calm calms kept)
    have turn : (recording ports).ideAtaReadSector turns buffer memory (disk, words) =
        some (true, storeWords buffer memory taken, ready, words ++ taken) := by
      rw [ideAtaReadSector, sector]
      exact congrArg (Option.map _) polling
    obtain ⟨others, after, rest, count, later⟩ := ih (buffer + 512) (storeWords buffer memory taken) (words ++ taken) going
    refine ⟨taken ++ others, after, ?_, ?_, later⟩
    · rw [ideAtaReadLoop, turn, Option.bind_some]
      refine rest.trans ?_
      rw [storeWords_append, length, List.append_assoc]
    · rw [List.length_append, length, count]
      omega

/-- No call gives `NULL`: the words of the data port are taken as they come. -/
theorem bread_calm (sector : BitVec 32) (words : List Nat) (some : 0 < size) (small : size + vfsBytesPSector ≤ 2 ^ 32)
    (good : calm disk) :
    ∃ taken after, (recording ports).virtFsBread turns sector size (disk, words) =
        .some (.some (storeWords 0 (fun _ => 0) taken), after, words ++ taken) ∧
      taken.length = 256 * (divCeil size vfsBytesPSector % 256) ∧ calm after := by
  have holds : divCeil size vfsBytesPSector * vfsBytesPSector % 2 ^ 32 ≠ 0 := by
    unfold divCeil vfsBytesPSector at *
    split <;> omega
  have cut : (BitVec.ofNat 8 (divCeil size vfsBytesPSector)).toNat = divCeil size vfsBytesPSector % 256 :=
    BitVec.toNat_ofNat ..
  have addressed := address_calm calms true sector (BitVec.ofNat 8 (divCeil size vfsBytesPSector)) good
  obtain ⟨ready, polling, going⟩ := polling_calm calms words (calms.outb _ addressed 7 0x20)
  obtain ⟨taken, after, loop, length, later⟩ := readLoop_calm calms 0 (fun _ => 0) words going
  refine ⟨taken, after, ?_, length.trans (congrArg _ cut), later⟩
  have read : (recording ports).ideAtaRead turns true 0 sector (BitVec.ofNat 8 (divCeil size vfsBytesPSector)) (fun _ => 0)
      (disk, words) = .some (0, storeWords 0 (fun _ => 0) taken, after, words ++ taken) :=
    (congrArg (Option.bind · _) polling).trans loop
  rw [AtaPorts.virtFsBread]
  exact (if_neg holds).trans (congrArg (Option.map _) read)

/-- The driver reports no failure, whatever the disk reports when it is no longer busy: every buffer has what the
data port gave, as many sectors as eight bits say, and zeros behind. -/
theorem breads_succeed {requests : List (BitVec 32 × Nat)} (good : calm disk)
    (sizes : ∀ request ∈ requests, 0 < request.2 ∧ request.2 + vfsBytesPSector ≤ 2 ^ 32) (words : List Nat) :
    ∃ (results : List (List Nat × Memory)) (final : Disk),
      (recording ports).breads turns requests (disk, words) =
        some (results.map fun result => some result.2, final, words ++ (results.map Prod.fst).flatten) ∧ calm final ∧
      List.Forall₂ (fun request result => result.1.length = 256 * (divCeil request.2 vfsBytesPSector % 256) ∧
        ∀ i, result.2 i = wordBytes result.1 i) requests results := by
  induction requests generalizing disk words with
  | nil => exact ⟨[], disk, by rw [List.map_nil, List.map_nil, List.flatten_nil, List.append_nil]; rfl, good, .nil⟩
  | cons request rest ih =>
    obtain ⟨sector, size⟩ := request
    obtain ⟨some, small⟩ := sizes (sector, size) List.mem_cons_self
    obtain ⟨taken, middle, read, length, kept⟩ := bread_calm calms sector words some small good
    obtain ⟨results, final, ran, later, agree⟩ :=
      ih kept (fun other member => sizes other (List.mem_cons_of_mem _ member)) (words ++ taken)
    refine ⟨(taken, storeWords 0 (fun _ => 0) taken) :: results, final, ?_, later, .cons ⟨length, fun i => ?_⟩ agree⟩
    · rw [List.append_assoc] at ran
      rw [breads, read, Option.bind_some]
      exact congrArg (Option.map _) ran
    · exact congrFun (storeWords_zero taken) i

end AnyDisk

/-- A disk that is busy for three reads of its status, and then reports an error. Its data port gives ones. -/
def refusing : AtaPorts Nat where
  inb := fun busy => (if 0 < busy then 0x80 else 0x41, busy - 1)
  inw := fun busy => (0xFFFF, busy)
  outb := fun offset _ busy => if offset = 7 then 3 else busy

theorem refusing_polled (count busy : Nat) : polled refusing count busy = busy - count := by
  induction count generalizing busy with
  | zero => rfl
  | succ count ih =>
    rw [polled, ih]
    exact (Nat.sub_sub busy 1 count).trans (congrArg _ (Nat.add_comm 1 count))

theorem refusing_calm : Calm refusing 4 (· ≤ 3) where
  inb := fun busy small => (Nat.sub_le busy 1).trans small
  inw := fun _ small => small
  outb := fun busy small offset _ => by
    show (if offset = 7 then 3 else busy) ≤ 3
    split
    · exact le_rfl
    · exact small
  quiet := fun busy _ waits => by
    simp only [refusing] at waits ⊢
    split at waits
    next positive =>
      rw [if_pos positive]
      decide
    next => exact absurd (by decide) waits
  ends := fun busy small => ⟨busy, Nat.lt_succ_of_le small, by
    rw [refusing_polled, Nat.sub_self]
    decide⟩

/-- The reads that failed come back as ones. -/
theorem breads_succeed_example : ∃ (results : List (List Nat × Memory)) (final : Nat),
    (recording refusing).breads 4 [(6#32, 2048), (1#32, 512)] (0, []) =
      some (results.map fun result => some result.2, final, (results.map Prod.fst).flatten) ∧ final ≤ 3 ∧
    List.Forall₂ (fun request result => result.1.length = 256 * (divCeil request.2 vfsBytesPSector % 256) ∧
      ∀ i, result.2 i = wordBytes result.1 i) [(6#32, 2048), (1#32, 512)] results :=
  breads_succeed refusing_calm (Nat.zero_le 3) (by decide) []

/-! ### The disk that the filesystem reads from -/

open YuzuOS.Kernel.AtaDisk

variable {disk after : AtaDisk}

def sectorWords (device : Memory) (lba : Nat) : List Nat :=
  (List.range 256).map fun k => device.load16 (lba * vfsBytesPSector + 2 * k)

structure Idle (disk : AtaDisk) : Prop where
  busy : disk.busy = 0
  left : disk.left = 0
  buffer : disk.buffer = []

/-- The sector `lba` can be taken, and `left` more behind it. -/
structure Offers (disk : AtaDisk) (lba left : Nat) : Prop where
  busy : disk.busy = 0
  following : disk.lba = lba + 1
  left : disk.left = left
  buffer : disk.buffer = sectorWords disk.device lba

structure SameDisk (before after : AtaDisk) : Prop where
  device : after.device = before.device
  delays : after.delays = before.delays

theorem SameDisk.trans {middle : AtaDisk} (first : SameDisk disk middle) (second : SameDisk middle after) :
    SameDisk disk after :=
  ⟨second.device.trans first.device, second.delays.trans first.delays⟩

theorem delay_eq : AtaDisk.ports.ideAtaDelay400ns disk = { disk with busy := disk.busy - 4 } := by
  simp [ideAtaDelay400ns, AtaDisk.ports, Nat.sub_sub]

theorem polling_waits (bounded : disk.busy < turns) : AtaDisk.ports.ideAtaPolling turns disk =
    some (true, { disk with busy := 0 }) := by
  induction turns generalizing disk with
  | zero => cases bounded
  | succ turns ih =>
    have step : AtaDisk.ports.ideAtaPolling (turns + 1) disk =
        if disk.status &&& ataRegBusy = 0 ∨ disk.status &&& ataRegDrq ≠ 0 then some (true, { disk with busy := disk.busy - 1 })
        else if disk.status &&& ataRegError ≠ 0 ∨ disk.status &&& ataRegDf ≠ 0 then some (false, { disk with busy := disk.busy - 1 })
        else AtaDisk.ports.ideAtaPolling turns { disk with busy := disk.busy - 1 } := rfl
    rw [step]
    by_cases waits : 0 < disk.busy
    · have status : disk.status = 0x80 := if_pos waits
      have free : ¬(disk.status &&& ataRegBusy = 0 ∨ disk.status &&& ataRegDrq ≠ 0) := by
        rw [status]
        decide
      have fine : ¬(disk.status &&& ataRegError ≠ 0 ∨ disk.status &&& ataRegDf ≠ 0) := by
        rw [status]
        decide
      have less : ({ disk with busy := disk.busy - 1 } : AtaDisk).busy < turns := by
        dsimp only
        omega
      rw [if_neg free, if_neg fine, ih less]
    · have none : disk.busy = 0 := by omega
      have done : disk.status &&& ataRegBusy = 0 := by
        rw [status, if_neg waits]
        split <;> decide
      rw [if_pos (.inl done), none]

def drained (disk : AtaDisk) : AtaDisk :=
  if 0 < disk.left then { disk with buffer := [] }.prepare else { disk with buffer := [] }

theorem insw_drains {words : List Nat} (holds : disk.buffer = words) (some : words ≠ []) :
    AtaDisk.ports.insw words.length buffer memory disk = (storeWords buffer memory words, drained disk) := by
  induction words generalizing disk buffer memory with
  | nil => exact absurd rfl some
  | cons word rest ih =>
    cases rest with
    | nil =>
      have step : AtaDisk.ports.inw disk = (word, drained disk) := by
        show disk.inw = _
        rw [AtaDisk.inw, holds]
        rfl
      rw [List.length_singleton, insw, step]
      rfl
    | cons next more =>
      have step : AtaDisk.ports.inw disk = (word, { disk with buffer := next :: more }) := by
        show disk.inw = _
        rw [AtaDisk.inw, holds]
      rw [List.length_cons, insw, step]
      exact ih rfl (List.cons_ne_nil _ _)

/-! ### Sectors -/

theorem sectorWords_bytes (device : Memory) (lba : Nat) {j : Nat} (inside : j < vfsBytesPSector) :
    wordBytes (sectorWords device lba) j = device (lba * vfsBytesPSector + j) := by
  unfold vfsBytesPSector at inside
  have place : lba * vfsBytesPSector + 2 * (j / 2) + j % 2 = lba * vfsBytesPSector + j := by omega
  have word : (sectorWords device lba).getD (j / 2) 0 = device.load16 (lba * vfsBytesPSector + 2 * (j / 2)) := by
    rw [sectorWords, List.getD_eq_getElem _ _ (by simp; omega)]
    simp
  rw [wordBytes, word, wordByte_load16 _ _ (Nat.mod_lt _ (by decide)), place]

theorem insw_sector (offers : disk.buffer = sectorWords disk.device lba) :
    AtaDisk.ports.insw 256 buffer memory disk =
      (memory.write buffer vfsBytesPSector fun j => disk.device (lba * vfsBytesPSector + j), drained disk) := by
  have len : (sectorWords disk.device lba).length = 256 := by rw [sectorWords, List.length_map, List.length_range]
  have some : sectorWords disk.device lba ≠ [] := by
    rw [← List.length_pos_iff, len]
    decide
  have taken := @insw_drains buffer memory disk _ offers some
  rw [len, storeWords_write, len] at taken
  exact taken.trans (congrArg (·, _) (Memory.write_congr fun j inside => sectorWords_bytes disk.device lba inside))

theorem readSector_eq {words : Memory × AtaDisk} (taken : AtaDisk.ports.insw 256 buffer memory disk = words)
    (short : words.2.busy < turns) :
    AtaDisk.ports.ideAtaReadSector turns buffer memory disk = some (true, words.1, { words.2 with busy := 0 }) := by
  have waits : AtaDisk.ports.ideAtaPolling turns (AtaDisk.ports.ideAtaDelay400ns words.2) = some (true, { words.2 with busy := 0 }) := by
    rw [delay_eq]
    exact polling_waits ((Nat.sub_le _ _).trans_lt short)
  rw [ideAtaReadSector, taken]
  exact congrArg (Option.map _) waits

/-- The driver takes the sectors one after the other, and none is left behind the last one. -/
theorem readLoop_takes (bounded : ∀ n, disk.delays n < turns) (offers : Offers disk lba sectors) :
    ∃ after, AtaDisk.ports.ideAtaReadLoop turns (sectors + 1) buffer memory disk =
        some (0, memory.write buffer (vfsBytesPSector * (sectors + 1)) fun j =>
          disk.device (lba * vfsBytesPSector + j), after) ∧
      Idle after ∧ SameDisk disk after := by
  induction sectors generalizing disk lba buffer memory with
  | zero =>
    have last : drained disk = { disk with buffer := [] } := by
      rw [drained, offers.left, if_neg (Nat.lt_irrefl 0)]
    have short : (drained disk).busy < turns := by
      rw [last, offers.busy]
      exact (Nat.zero_le _).trans_lt (bounded 0)
    rw [ideAtaReadLoop, readSector_eq (insw_sector offers.buffer) short]
    refine ⟨_, rfl, ⟨rfl, ?_, ?_⟩, ⟨?_, ?_⟩⟩
    · rw [last]
      exact offers.left
    all_goals rw [last]
  | succ sectors ih =>
    have more : drained disk = { disk with buffer := [] }.prepare := by
      rw [drained, offers.left, if_pos (Nat.succ_pos sectors)]
    have short : (drained disk).busy < turns := by
      rw [more]
      exact bounded disk.asked
    have next : Offers { drained disk with busy := 0 } (lba + 1) sectors := by
      rw [more]
      refine ⟨rfl, ?_, ?_, ?_⟩
      · exact congrArg (· + 1) offers.following
      · exact congrArg (· - 1) offers.left
      · exact congrArg (sectorWords disk.device) offers.following
    have same : SameDisk disk { drained disk with busy := 0 } := by
      rw [more]
      exact ⟨rfl, rfl⟩
    have turn : AtaDisk.ports.ideAtaReadLoop turns (sectors + 1 + 1) buffer memory disk =
        AtaDisk.ports.ideAtaReadLoop turns (sectors + 1) (buffer + vfsBytesPSector)
          (memory.write buffer vfsBytesPSector fun j => disk.device (lba * vfsBytesPSector + j))
          { drained disk with busy := 0 } := by
      rw [ideAtaReadLoop, readSector_eq (insw_sector offers.buffer) short]
      simp only [Option.bind_some, if_true, vfsBytesPSector]
    have total : vfsBytesPSector * (sectors + 1 + 1) = vfsBytesPSector + vfsBytesPSector * (sectors + 1) := by
      rw [Nat.mul_succ, Nat.add_comm]
    have place (j : Nat) : (lba + 1) * vfsBytesPSector + j = lba * vfsBytesPSector + (vfsBytesPSector + j) := by
      rw [Nat.succ_mul, Nat.add_assoc]
    obtain ⟨after, loop, idle, kept⟩ := ih (by rw [same.delays]; exact bounded) next
    refine ⟨after, turn.trans (loop.trans ?_), idle, same.trans kept⟩
    have device : (drained disk).device = disk.device := same.device
    simp only [device, place, total]
    rw [← Memory.write_append]

/-! ### Commands -/

variable {master : Bool} {count : BitVec 8} {sector address : BitVec 32}

theorem addressed_eq : ∃ task, AtaDisk.ports.ideAtaAddress master address count disk =
      { disk with task := task, busy := disk.busy - 4 } ∧
    task 2 = count ∧ task 3 = address.setWidth 8 ∧ task 4 = (address >>> 8).setWidth 8 ∧
    task 5 = (address >>> 16).setWidth 8 ∧
    task 6 = (if master then 0xE0 else 0xF0 : BitVec 8) ||| ((address >>> 24).setWidth 8 &&& 0x0F) := by
  unfold ideAtaAddress
  simp only [delay_eq]
  exact ⟨_, rfl, rfl, rfl, rfl, rfl, rfl⟩

theorem nibble (byte : BitVec 8) : ((if master then 0xE0 else 0xF0 : BitVec 8) ||| (byte &&& 0x0F)) &&& 0x0F =
    byte &&& 0x0F := by
  cases master <;> decide +revert

/-- Only 28 bits of the address reach the disk. -/
theorem addressed_selected : (AtaDisk.ports.ideAtaAddress master address count disk).selected = address.toNat % 2 ^ 28 := by
  obtain ⟨task, same, -, low, middle, high, top⟩ := @addressed_eq disk master count address
  have head : ((address >>> 24).setWidth 8 &&& (0x0F : BitVec 8)).toNat = address.toNat / 2 ^ 24 % 16 := by
    have width := address.isLt
    rw [BitVec.toNat_and, BitVec.toNat_setWidth, BitVec.toNat_ushiftRight, Nat.shiftRight_eq_div_pow]
    have mask : ((0x0F : BitVec 8).toNat) = 2 ^ 4 - 1 := rfl
    rw [mask, Nat.and_two_pow_sub_one_eq_mod]
    omega
  rw [same, selected]
  simp only [low, middle, high, top, nibble, head, BitVec.toNat_setWidth, BitVec.toNat_ushiftRight,
    Nat.shiftRight_eq_div_pow]
  omega

theorem command_prepares (idle : Idle disk) (some : count ≠ 0) :
    ∃ task, AtaDisk.ports.outb 7 0x20 (AtaDisk.ports.ideAtaAddress master address count disk) =
      { disk with task := task, busy := disk.busy - 4, lba := address.toNat % 2 ^ 28, left := count.toNat }.prepare := by
  have start := @addressed_selected disk master count address
  obtain ⟨task, same, counted, -⟩ := @addressed_eq disk master count address
  have counts : (AtaDisk.ports.ideAtaAddress master address count disk).count = count.toNat := by
    rw [same]
    have nonzero : task 2 ≠ 0 := by rwa [counted]
    exact (if_neg nonzero).trans (congrArg BitVec.toNat counted)
  have free : (AtaDisk.ports.ideAtaAddress master address count disk).busy = 0 ∧
      (AtaDisk.ports.ideAtaAddress master address count disk).buffer = [] := by
    rw [same]
    exact ⟨congrArg (· - 4) idle.busy, idle.buffer⟩
  refine ⟨task, ?_⟩
  show AtaDisk.outb 7 0x20 _ = _
  rw [AtaDisk.outb, if_pos rfl, if_pos ⟨rfl, free.1, free.2⟩, readSectors, start, counts, same]

theorem read_transfers (bounded : ∀ n, disk.delays n < turns) (idle : Idle disk) (some : count ≠ 0) :
    ∃ after, AtaDisk.ports.ideAtaRead turns master buffer address count memory disk =
        .some (0, memory.write buffer (vfsBytesPSector * count.toNat) fun j =>
          disk.device (address.toNat % 2 ^ 28 * vfsBytesPSector + j), after) ∧
      Idle after ∧ SameDisk disk after := by
  have positive : 0 < count.toNat := by
    have differs : count.toNat ≠ (0 : BitVec 8).toNat := fun equal => some (BitVec.eq_of_toNat_eq equal)
    exact Nat.pos_of_ne_zero differs
  obtain ⟨task, command⟩ := @command_prepares disk master count address idle some
  obtain ⟨asked, made⟩ : ∃ asked, asked =
      { disk with task := task, busy := disk.busy - 4, lba := address.toNat % 2 ^ 28, left := count.toNat }.prepare := ⟨_, rfl⟩
  obtain ⟨ready, free⟩ : ∃ ready, ready = { asked with busy := 0 } := ⟨_, rfl⟩
  have waits : AtaDisk.ports.ideAtaPolling turns (AtaDisk.ports.outb 7 0x20 (AtaDisk.ports.ideAtaAddress master address count disk)) =
      .some (true, ready) := by
    rw [command, ← made, free]
    refine polling_waits ?_
    rw [made]
    exact bounded disk.asked
  have offers : Offers ready (address.toNat % 2 ^ 28) (count.toNat - 1) := by
    rw [free, made]
    exact ⟨rfl, rfl, rfl, rfl⟩
  have kept : SameDisk disk ready := by
    rw [free, made]
    exact ⟨rfl, rfl⟩
  have all : count.toNat = count.toNat - 1 + 1 := by omega
  obtain ⟨after, loop, ended, later⟩ := @readLoop_takes turns buffer _ _ memory _ (by rw [kept.delays]; exact bounded) offers
  refine ⟨after, ?_, ended, kept.trans later⟩
  rw [← all, kept.device] at loop
  exact (congrArg (Option.bind · _) waits).trans loop

/-! ### Runs of calls -/

theorem bread_answers (bounded : ∀ n, disk.delays n < turns) (idle : Idle disk) (positive : 0 < size)
    (small : size ≤ 255 * vfsBytesPSector) (inside : sector.toNat + divCeil size vfsBytesPSector ≤ 2 ^ 28) :
    ∃ memory after, AtaDisk.ports.virtFsBread turns sector size disk = some (some memory, after) ∧
      (∀ i < size, memory i = disk.device (sector.toNat * vfsBytesPSector + i)) ∧ Idle after ∧ SameDisk disk after := by
  obtain ⟨few, whole, covers⟩ : divCeil size vfsBytesPSector % 256 = divCeil size vfsBytesPSector ∧
      divCeil size vfsBytesPSector * vfsBytesPSector % 2 ^ 32 ≠ 0 ∧ size ≤ vfsBytesPSector * divCeil size vfsBytesPSector := by
    unfold divCeil vfsBytesPSector at *
    split <;> omega
  have cut : (BitVec.ofNat 8 (divCeil size vfsBytesPSector)).toNat = divCeil size vfsBytesPSector :=
    (BitVec.toNat_ofNat ..).trans few
  have counts : BitVec.ofNat 8 (divCeil size vfsBytesPSector) ≠ 0 := by
    intro zero
    rw [zero] at cut
    rw [← cut] at whole
    exact whole rfl
  obtain ⟨after, read, ended, same⟩ := @read_transfers turns 0 (fun _ => 0) disk true _ sector bounded idle counts
  have sectors : 0 < divCeil size vfsBytesPSector := Nat.pos_of_ne_zero fun none => whole (by rw [none]; rfl)
  rw [cut, Nat.mod_eq_of_lt (by omega)] at read
  refine ⟨Memory.write (fun _ => 0) 0 (vfsBytesPSector * divCeil size vfsBytesPSector) fun j =>
    disk.device (sector.toNat * vfsBytesPSector + j), after, ?_, fun i few => ?_, ended, same⟩
  · rw [AtaPorts.virtFsBread]
    exact (if_neg whole).trans (congrArg (Option.map _) read)
  · rw [Memory.write_inside (Nat.zero_le i) (by omega), Nat.sub_zero]

/-- The disk that the filesystem reads from is the one behind the driver. -/
theorem breads_refine {requests : List (BitVec 32 × Nat)} {sb : VfsSb} (bounded : ∀ n, disk.delays n < turns) (idle : Idle disk)
    (device : sb.device = disk.device)
    (inside : ∀ request ∈ requests, 0 < request.2 ∧ request.2 ≤ 255 * vfsBytesPSector ∧
      request.1.toNat + divCeil request.2 vfsBytesPSector ≤ 2 ^ 28) :
    ∃ answers final, AtaDisk.ports.breads turns requests disk = some (answers, final) ∧ Idle final ∧
      List.Forall₂ (fun request answer => ∃ memory, answer = some memory ∧
        ∀ i < request.2, memory i = Kernel.virtFsBread sb request.1.toNat i) requests answers := by
  induction requests generalizing disk with
  | nil => exact ⟨[], disk, rfl, idle, .nil⟩
  | cons request rest ih =>
    obtain ⟨sector, size⟩ := request
    obtain ⟨positive, small, within⟩ := inside (sector, size) List.mem_cons_self
    obtain ⟨memory, middle, read, bytes, ready, same⟩ := bread_answers bounded idle positive small within
    obtain ⟨answers, final, ran, ended, agree⟩ := ih (by rw [same.delays]; exact bounded) ready (device.trans same.device.symm)
      fun other member => inside other (List.mem_cons_of_mem _ member)
    refine ⟨some memory :: answers, final, ?_, ended, .cons ⟨memory, rfl, fun i few => ?_⟩ agree⟩
    · rw [breads, read, Option.bind_some]
      exact congrArg (Option.map _) ran
    · rw [bytes i few, Kernel.virtFsBread, device]

/-- Sectors with bytes of their own. -/
def someDisk : AtaDisk :=
  { device := fun place => BitVec.ofNat 8 (place / vfsBytesPSector + 1)
    delays := fun n => n % 5
    bus := 0
    asked := 0
    task := fun _ => 0
    busy := 0
    lba := 0
    left := 0
    buffer := [] }

theorem breads_refine_example :
    ∃ answers final, AtaDisk.ports.breads 5 [(1#32, 1024), (7#32, 100), (1#32, 3000)] someDisk = some (answers, final) ∧ Idle final ∧
      List.Forall₂ (fun request answer => ∃ memory, answer = some memory ∧
        ∀ i < request.2, memory i = Kernel.virtFsBread ⟨someDisk.device, 1024⟩ request.1.toNat i)
        [(1#32, 1024), (7#32, 100), (1#32, 3000)] answers :=
  breads_refine (fun n => Nat.mod_lt n (by decide)) ⟨rfl, rfl, rfl⟩ rfl (by decide)

end YuzuOS.Proofs.IdeTransfers
