import YuzuOS.Library.Memory

/-! Words in memory: stores one after the other, and the pushes of a stack that grows down. -/

namespace YuzuOS.Library.Memory

variable {memory other : Memory} {address place esp : Nat} {words more : List Nat}

/-- A store depends at each place on what was there alone. -/
theorem store32_congr (value : Nat) (same : memory place = other place) :
    memory.store32 address value place = other.store32 address value place := by
  unfold store32 write
  split
  next => rfl
  next => exact same

theorem store32_outside {value : Nat} (apart : place < address ∨ address + 4 ≤ place) :
    memory.store32 address value place = memory place := write_outside apart

theorem Words.congr (holds : memory.Words address words)
    (same : ∀ place, address ≤ place → place < address + 4 * words.length → other place = memory place) :
    other.Words address words := by
  induction words generalizing address with
  | nil => trivial
  | cons word rest ih =>
    simp only [List.length_cons] at same
    refine ⟨?_, ih holds.2 fun place lower upper => same place (by omega) (by omega)⟩
    refine Eq.trans (load32_congr fun i bound => ?_) holds.1
    exact same (address + i) (by omega) (by omega)

theorem words_append :
    memory.Words address (words ++ more) ↔
      memory.Words address words ∧ memory.Words (address + 4 * words.length) more := by
  induction words generalizing address with
  | nil => simp [Words]
  | cons word rest ih =>
    have place : address + 4 + 4 * rest.length = address + 4 * (rest.length + 1) := by omega
    simp only [List.cons_append, Words, ih, List.length_cons, place, and_assoc]

/-- The memory after pushes from `esp` down. -/
def pushed (memory : Memory) (esp : Nat) : List Nat → Memory
  | [] => memory
  | word :: rest => pushed (memory.store32 (esp - 4) word) (esp - 4) rest

theorem pushed_congr (words : List Nat) (same : memory place = other place) :
    memory.pushed esp words place = other.pushed esp words place := by
  induction words generalizing memory other esp with
  | nil => exact same
  | cons word rest ih => exact ih (store32_congr word same)

theorem pushed_outside (room : 4 * words.length ≤ esp) (apart : place < esp - 4 * words.length ∨ esp ≤ place) :
    memory.pushed esp words place = memory place := by
  induction words generalizing memory esp with
  | nil => rfl
  | cons word rest ih =>
    rw [List.length_cons] at room apart
    rw [pushed, ih (by omega) (by omega), store32_outside (by omega)]

theorem pushed_words (room : 4 * words.length ≤ esp) (fits : ∀ word ∈ words, word < 2 ^ 32) :
    (memory.pushed esp words).Words (esp - 4 * words.length) words.reverse := by
  induction words generalizing memory esp with
  | nil => trivial
  | cons word rest ih =>
    rw [List.length_cons] at room ⊢
    have first : ((memory.store32 (esp - 4) word).pushed (esp - 4) rest).load32 (esp - 4) = word := by
      have kept : ((memory.store32 (esp - 4) word).pushed (esp - 4) rest).load32 (esp - 4) =
          (memory.store32 (esp - 4) word).load32 (esp - 4) :=
        load32_congr fun i bound => pushed_outside (by omega) (.inr (by omega))
      rw [kept, load32_store32 (fits word List.mem_cons_self)]
    have low : esp - 4 * (rest.length + 1) = esp - 4 - 4 * rest.length := by omega
    have high : esp - 4 - 4 * rest.length + 4 * rest.length = esp - 4 := by omega
    rw [List.reverse_cons, words_append, List.length_reverse, low, high]
    exact ⟨ih (by omega) fun word member => fits word (List.mem_cons_of_mem _ member), first, trivial⟩

end YuzuOS.Library.Memory
