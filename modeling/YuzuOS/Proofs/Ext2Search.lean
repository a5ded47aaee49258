import YuzuOS.Library.BlockTree
import YuzuOS.Library.Search
import YuzuOS.Kernel.Ext2

/-! The recursive search of a block tree is a search through its leaves. -/

namespace YuzuOS.Proofs.Ext2Search
open YuzuOS.Library YuzuOS.Library.BlockTree YuzuOS.Library.Search YuzuOS.Kernel

variable {σ : Type*} {sb : VfsSb} {action : Nat → σ → Int × σ}

theorem breadRecLoop_search (action : Nat → σ → Int × σ) (buffer : Memory) (left i : Nat) (result : Int) (state : σ) :
    ext2FsBreadRecLoop action buffer left i result state =
      search (fun index => action (buffer.load32 (4 * index))) (List.range' i left) result state := by
  induction left generalizing i result state with
  | zero => rfl
  | succ left ih =>
    rw [ext2FsBreadRecLoop, List.range'_succ, search_cons, ← ih]

def sbLeaves (sb : VfsSb) (level block : Nat) : List Nat := leaves (ext2FsBreadBlock sb) (sb.blocksize / 4) level block

theorem breadRec_search (level block : Nat) (state : σ) :
    ext2FsBreadRecAction sb action level block state = search action (sbLeaves sb level block) (-eNoent) state := by
  induction level generalizing block state with
  | zero =>
    rw [ext2FsBreadRecAction, sbLeaves, leaves, search_cons]
    exact (ite_self _).symm
  | succ level ih =>
    have below : ext2FsBreadRecAction sb action level = fun block => search action (sbLeaves sb level block) (-eNoent) :=
      funext fun block => funext fun state => ih block state
    rw [ext2FsBreadRecAction, breadRecLoop_search, below, ← List.range_eq_range']
    refine search_flatMap (fun index member => ?_) (-eNoent)
    exact leaves_ne_nil (Nat.zero_lt_of_lt (List.mem_range.mp member)) level _

/-- A fold that keeps the first number is a search. -/
theorem fold_search (find : Nat → Int) (indices : List Nat) (result : Int) :
    indices.foldl (fun result index => result.bind fun value => if 0 ≤ value then some value else some (find index)) (some result) =
      some (if 0 ≤ result then result else (search (fun index state => (find index, state)) indices result ()).1) := by
  induction indices generalizing result with
  | nil => exact congrArg some (ite_self _).symm
  | cons index indices ih =>
    rw [List.foldl_cons, Option.bind_some, search_cons]
    by_cases found : 0 ≤ result
    · rw [if_pos found, if_pos found, ih, if_pos found]
    · rw [if_neg found, if_neg found, ih]
      rw [apply_ite Prod.fst]

theorem breadRec_action {name : List (BitVec 8)} {find : Nat → Int}
    (finds : ∀ block, ext2FsInoFind sb block name = some (find block)) (level block : Nat) :
    ext2FsBreadRec sb name level block =
      some (ext2FsBreadRecAction sb (fun block state => (find block, state)) level block ()).1 := by
  induction level generalizing block with
  | zero => exact finds block
  | succ level ih =>
    rw [ext2FsBreadRec, ext2FsBreadRecAction, breadRecLoop_search, ← List.range_eq_range']
    simp only [ih]
    exact fold_search _ _ (-eNoent)

/-- The first leaf that the action accepts decides, and the last one where it accepts none. -/
theorem ext2_fs_bread_rec_searches (sb : VfsSb) (action : Nat → σ → Int × σ) (level block : Nat) (state : σ) :
    (∃ tried leaf rest, sbLeaves sb level block = tried ++ leaf :: rest ∧ Refused action tried state ∧
      0 ≤ (action leaf (behind action tried state)).1 ∧
      ext2FsBreadRecAction sb action level block state = action leaf (behind action tried state)) ∨
    Refused action (sbLeaves sb level block) state ∧
      (ext2FsBreadRecAction sb action level block state).2 = behind action (sbLeaves sb level block) state ∧
      ∀ tried leaf, sbLeaves sb level block = tried ++ [leaf] →
        ext2FsBreadRecAction sb action level block state = action leaf (behind action tried state) := by
  rw [breadRec_search]
  rcases search_cases action (sbLeaves sb level block) (-eNoent) state with found | ⟨refused, ran⟩
  · exact .inl found
  · refine .inr ⟨refused, ran, fun tried leaf last => ?_⟩
    rw [last] at refused ⊢
    exact search_last refused

end YuzuOS.Proofs.Ext2Search
