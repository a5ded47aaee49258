import Mathlib.Data.List.Pairwise

/-! Chains of blocks, each with an address and the address that comes next. A
linked list follows stored links; a tiling continues where a block stops. -/

namespace YuzuOS.Library

variable {β : Type u}

def Chain (address next : β → Nat) : Nat → List β → Nat → Prop
  | start, [], stop => start = stop
  | start, block :: rest, stop => address block = start ∧ Chain address next (next block) rest stop

variable {address next other changed : β → Nat} {start stop : Nat} {block first second : β}
  {before blocks parts after : List β}

theorem chain_append : Chain address next start (before ++ after) stop ↔
    ∃ middle, Chain address next start before middle ∧ Chain address next middle after stop := by
  induction before generalizing start with
  | nil => simp [Chain]
  | cons block before ih =>
    simp only [List.cons_append, Chain, ih]
    refine ⟨fun ⟨here, middle, chained, rest⟩ => ⟨middle, ⟨here, chained⟩, rest⟩, ?_⟩
    exact fun ⟨middle, ⟨here, chained⟩, rest⟩ => ⟨here, middle, chained, rest⟩

theorem chain_congr (same : ∀ block ∈ blocks, next block = other block) :
    Chain address next start blocks stop ↔ Chain address other start blocks stop := by
  induction blocks generalizing start with
  | nil => rfl
  | cons block rest ih =>
    rw [Chain, Chain, same block List.mem_cons_self, ih fun later member => same later (List.mem_cons_of_mem _ member)]

/-- A block can give way to a chain over the same stretch. -/
theorem Chain.replace (chained : Chain address next start (before ++ block :: after) stop)
    (kept : ∀ other ∈ before ++ after, next other = changed other)
    (inner : Chain address changed (address block) parts (next block)) :
    Chain address changed start (before ++ parts ++ after) stop := by
  obtain ⟨middle, low, here, high⟩ := chain_append.mp chained
  subst here
  have low' := (chain_congr fun other member => kept other (List.mem_append_left _ member)).mp low
  have high' := (chain_congr fun other member => kept other (List.mem_append_right _ member)).mp high
  exact chain_append.mpr ⟨_, chain_append.mpr ⟨_, low', inner⟩, high'⟩

section Tiling

/-- Two stretches do not meet. -/
def Apart (first firstLen second secondLen : Nat) : Prop := first + firstLen ≤ second ∨ second + secondLen ≤ first

variable {extent : β → Nat}

/-- The blocks fill the stretch from `start` to `stop` without a gap. -/
def Tiles (address extent : β → Nat) (start : Nat) (blocks : List β) (stop : Nat) : Prop :=
  Chain address (fun block => address block + extent block) start blocks stop

theorem tiles_cons {rest : List β} : Tiles address extent start (block :: rest) stop ↔
    address block = start ∧ Tiles address extent (address block + extent block) rest stop := Iff.rfl

theorem Tiles.le (tiled : Tiles address extent start blocks stop) : start ≤ stop := by
  induction blocks generalizing start with
  | nil => exact Nat.le_of_eq tiled
  | cons block rest ih =>
    obtain ⟨here, tiled⟩ := tiles_cons.mp tiled
    have later := ih tiled
    omega

theorem Tiles.bounds (tiled : Tiles address extent start blocks stop) (member : block ∈ blocks) :
    start ≤ address block ∧ address block + extent block ≤ stop := by
  obtain ⟨before, after, rfl⟩ := List.append_of_mem member
  obtain ⟨middle, low, here, high⟩ := chain_append.mp tiled
  have below : start ≤ middle := Tiles.le low
  have above : address block + extent block ≤ stop := Tiles.le high
  omega

theorem Tiles.ordered (tiled : Tiles address extent start blocks stop) :
    blocks.Pairwise fun first second => address first + extent first ≤ address second := by
  induction blocks generalizing start with
  | nil => exact .nil
  | cons block rest ih =>
    obtain ⟨_, tiled⟩ := tiled
    exact List.pairwise_cons.mpr ⟨fun later member => (Tiles.bounds tiled member).1, ih tiled⟩

theorem Tiles.apart (tiled : Tiles address extent start blocks stop) (here : first ∈ blocks) (there : second ∈ blocks)
    (different : first ≠ second) : Apart (address first) (extent first) (address second) (extent second) := by
  have symmetric : Std.Symm fun first second => Apart (address first) (extent first) (address second) (extent second) :=
    ⟨fun _ _ => Or.symm⟩
  have either : blocks.Pairwise fun first second =>
      Apart (address first) (extent first) (address second) (extent second) := tiled.ordered.imp .inl
  exact either.forall here there different

/-- The blocks around one block stay apart from it. -/
theorem Tiles.others (tiled : Tiles address extent start (before ++ block :: after) stop)
    (member : first ∈ before ++ after) : Apart (address first) (extent first) (address block) (extent block) := by
  obtain ⟨_, rest, across⟩ := List.pairwise_append.mp tiled.ordered
  rcases List.mem_append.mp member with low | high
  · exact .inl (across first low block List.mem_cons_self)
  · exact .inr ((List.pairwise_cons.mp rest).1 first high)

/-- As many blocks as there are, so many units are filled. -/
theorem Tiles.length_le {unit : Nat} (tiled : Tiles address extent start blocks stop)
    (large : ∀ block ∈ blocks, unit ≤ extent block) : start + unit * blocks.length ≤ stop := by
  induction blocks generalizing start with
  | nil => exact Nat.le_of_eq tiled
  | cons block rest ih =>
    obtain ⟨here, tiled⟩ := tiles_cons.mp tiled
    have later := ih tiled fun other member => large other (List.mem_cons_of_mem _ member)
    have least := large block List.mem_cons_self
    rw [List.length_cons, Nat.mul_succ]
    omega

end Tiling

end YuzuOS.Library
