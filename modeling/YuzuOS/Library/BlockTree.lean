import YuzuOS.Library.Memory

/-! Trees of pointer blocks: a block of level zero is a leaf, one of a higher
level holds little-endian pointers to `width` blocks of the level below. -/

namespace YuzuOS.Library.BlockTree

def pointer (blocks : Nat → Memory) (block index : Nat) : Nat := (blocks block).load32 (4 * index)

/-- The leaf of a number in the tree below a block. -/
def leaf (blocks : Nat → Memory) (width : Nat) : Nat → Nat → Nat → Nat
  | 0, block, _ => block
  | level + 1, block, index =>
    leaf blocks width level (pointer blocks block (index / width ^ level)) (index % width ^ level)

/-- All leaves from left to right. -/
def leaves (blocks : Nat → Memory) (width : Nat) : Nat → Nat → List Nat
  | 0, block => [block]
  | level + 1, block => (List.range width).flatMap fun index => leaves blocks width level (pointer blocks block index)

/-- Every block on the way to a leaf meets the condition. -/
def Path (blocks : Nat → Memory) (width : Nat) (condition : Nat → Prop) : Nat → Nat → Nat → Prop
  | 0, block, _ => condition block
  | level + 1, block, index => condition block ∧
      Path blocks width condition level (pointer blocks block (index / width ^ level)) (index % width ^ level)

instance Path.decidable {blocks : Nat → Memory} {width : Nat} {condition : Nat → Prop} [DecidablePred condition] :
    ∀ level block index, Decidable (Path blocks width condition level block index)
  | 0, block, _ => inferInstanceAs (Decidable (condition block))
  | level + 1, block, index =>
    have : Decidable (Path blocks width condition level (pointer blocks block (index / width ^ level))
      (index % width ^ level)) := Path.decidable level _ _
    inferInstanceAs (Decidable (condition block ∧ _))

variable {blocks others : Nat → Memory} {width level block index inner : Nat} {condition : Nat → Prop}

/-- The leaves below one pointer of a block are the leaves of its child. -/
theorem leaf_below (blocks : Nat → Memory) (block index : Nat) (inside : inner < width ^ level) :
    leaf blocks width (level + 1) block (index * width ^ level + inner) =
      leaf blocks width level (pointer blocks block index) inner := by
  have positive : 0 < width ^ level := Nat.zero_lt_of_lt inside
  rw [leaf, Nat.mul_comm, Nat.mul_add_div positive, Nat.mul_add_mod, Nat.div_eq_of_lt inside, Nat.add_zero,
    Nat.mod_eq_of_lt inside]

theorem leaves_ne_nil (positive : 0 < width) (level block : Nat) : leaves blocks width level block ≠ [] := by
  induction level generalizing block with
  | zero => exact List.cons_ne_nil _ _
  | succ level ih =>
    obtain ⟨leaf, member⟩ := List.exists_mem_of_ne_nil _ (ih (pointer blocks block 0))
    exact List.ne_nil_of_mem (List.mem_flatMap.mpr ⟨0, List.mem_range.mpr positive, member⟩)

/-- Only the blocks on the way decide which leaf is found. -/
theorem Path.leaf_congr (path : Path blocks width condition level block index)
    (agree : ∀ block, condition block → blocks block = others block) :
    leaf others width level block index = leaf blocks width level block index ∧
      condition (leaf blocks width level block index) := by
  induction level generalizing block index with
  | zero => exact ⟨rfl, path⟩
  | succ level ih =>
    have same : pointer others block (index / width ^ level) = pointer blocks block (index / width ^ level) := by
      rw [pointer, pointer, agree block path.1]
    rw [leaf, leaf, same]
    exact ih path.2

end YuzuOS.Library.BlockTree
