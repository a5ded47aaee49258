import YuzuOS.Proofs.PathCache

/-! Walks along a path whose file system may create nothing. They are defined exactly
when they come to no `create` and to no component that is too long, with any flags. -/

namespace YuzuOS.Proofs.PathWalks
open YuzuOS.Library YuzuOS.Kernel PathCache

variable {ι : Type u} {ops : ι → VfsInodeOp ι} {cache next : Dcache ι} {children : Nat → List Nat} {flags mode i : Nat}
  {dir inode : ι} {name path : List (BitVec 8)} {nameidata : Nameidata} {names : List (List (BitVec 8))}

/-- Every component that the walk comes to fits, and the last one is not to be created. -/
def Reaches (ops : ι → VfsInodeOp ι) (flags : Nat) : ι → List (List (BitVec 8)) → Prop
  | _, [] => True
  | dir, name :: names => name.length < nameMax ∧ match (ops dir).lookup.bind (· name) with
    | some inode => Reaches ops flags inode names
    | none => ¬(names = [] ∧ flags &&& oCreat ≠ 0)

def Exclusive (flags : Nat) : Prop := flags &&& oCreat ≠ 0 ∧ flags &&& oExcl ≠ 0

instance (flags : Nat) : Decidable (Exclusive flags) := inferInstanceAs (Decidable (_ ∧ _))

def opened (ops : ι → VfsInodeOp ι) (flags : Nat) (dir : ι) (names : List (List (BitVec 8))) : Option ι :=
  if names ≠ [] ∧ Exclusive flags then none else resolve ops dir names

/-- A walk is undefined, or it ends at the inode or with an error and keeps the cache right. -/
def Ends (ops : ι → VfsInodeOp ι) (cache : Dcache ι) (flags : Nat) (dir : ι) (names : List (List (BitVec 8)))
    (outcome : Option (Int × Nameidata × Dcache ι)) : Prop :=
  (¬Reaches ops flags dir names ∧ outcome = none) ∨
    Reaches ops flags dir names ∧ ∃ result nameidata next children, outcome = some (result, nameidata, next) ∧
      Cached ops next children ∧ Grows cache next ∧ match opened ops flags dir names with
        | some inode => result = 0 ∧ (next.dentries nameidata.dentry).inode = some inode
        | none => result = -eNoent ∨ result = -eExist

theorem reaches_turn (short : name.length < nameMax) (looked : (ops dir).lookup.bind (· name) = some inode) :
    Reaches ops flags dir (name :: names) ↔ Reaches ops flags inode names := by
  rw [Reaches, looked]
  exact and_iff_right short

theorem opened_turn (looked : (ops dir).lookup.bind (· name) = some inode) (open_ : ¬(names = [] ∧ Exclusive flags)) :
    opened ops flags dir (name :: names) = opened ops flags inode names := by
  unfold opened
  rw [resolve_cons, looked, Option.bind_some]
  by_cases exclusive : Exclusive flags
  · have more : names ≠ [] := fun last => open_ ⟨last, exclusive⟩
    rw [if_pos ⟨List.cons_ne_nil _ _, exclusive⟩, if_pos ⟨more, exclusive⟩]
  · rw [if_neg fun both => exclusive both.2, if_neg fun both => exclusive both.2]

theorem Ends.turn {outcome : Option (Int × Nameidata × Dcache ι)} (ends : Ends ops next flags inode names outcome)
    (grows : Grows cache next) (short : name.length < nameMax) (looked : (ops dir).lookup.bind (· name) = some inode)
    (open_ : ¬(names = [] ∧ Exclusive flags)) : Ends ops cache flags dir (name :: names) outcome := by
  unfold Ends at ends ⊢
  rw [reaches_turn short looked, opened_turn looked open_]
  rcases ends with undefined | ⟨reaches, result, nameidata, final, children, ran, cached, grown, found⟩
  · exact .inl undefined
  · exact .inr ⟨reaches, result, nameidata, final, children, ran, cached, grows.trans grown, found⟩

theorem Ends.exclusive (cached : Cached ops next children) (grows : Grows cache next) (short : name.length < nameMax)
    (looked : (ops dir).lookup.bind (· name) = some inode) (exclusive : Exclusive flags) :
    Ends ops cache flags dir [name] (some (-eExist, nameidata, next)) := by
  refine .inr ⟨(reaches_turn short looked).mpr trivial, _, _, _, children, rfl, cached, grows, ?_⟩
  rw [opened, if_pos ⟨List.cons_ne_nil _ _, exclusive⟩]
  exact .inr rfl

theorem walk_ends {turns : Nat} (fixed : ∀ inode, (ops inode).create = none) (cached : Cached ops cache children)
    (known : nameidata.dentry < cache.count) (inode : (cache.dentries nameidata.dentry).inode = some dir)
    (ended : 0 ∉ path) (inside : i ≤ path.length) (enough : path.length - i < turns)
    (starts : ∀ ch rest, path.drop i = ch :: rest → isSlash ch = false) :
    Ends ops cache flags dir (components (path.drop i)) (virtFsWalk ops path flags mode turns i nameidata cache) := by
  induction turns generalizing i nameidata cache children dir with
  | zero => exact absurd enough (Nat.not_lt_zero _)
  | succ turns ih =>
    rw [virtFsWalk]
    split
    case isFalse finished =>
      have empty : path.drop i = [] := List.drop_eq_nil_of_le (Nat.le_of_not_lt finished)
      have none_left : components (path.drop i) = [] := by
        rw [empty]
        exact tokens_nil
      rw [none_left]
      refine .inr ⟨trivial, _, _, _, children, rfl, cached, Grows.refl cache, ?_⟩
      rw [opened, if_neg fun both => both.1 rfl]
      exact ⟨rfl, inode⟩
    case isTrue more =>
      obtain ⟨j, behind, turn, advanced, within, next_starts⟩ := walk_next more starts
      rw [turn]
      have left : path.length - j < turns := by omega
      have last := components_end within next_starts
      dsimp only
      rw [behind]
      split
      next long => exact .inl ⟨fun reaches => Nat.not_lt.mpr long reaches.1, rfl⟩
      next short =>
        have short := Nat.lt_of_not_le short
        rw [cached.chained.find known (pathName_ended ended)]
        cases search : (children nameidata.dentry).find? fun child => pathName path i = (cache.dentries child).name with
        | some child =>
          obtain ⟨child_known, held, child_inode, looked⟩ := cached.hit inode search
          dsimp only
          split
          next exclusive =>
            rw [last.mpr exclusive.1.1]
            exact Ends.exclusive cached (Grows.refl cache) short looked ⟨exclusive.1.2, exclusive.2⟩
          next open_ =>
            have later : Ends ops cache flags held (components (path.drop j))
                (virtFsWalk ops path flags mode turns j (nameidata.enter child cache) cache) :=
              ih cached child_known child_inode within left next_starts
            exact later.turn (Grows.refl cache) short looked fun both => open_ ⟨⟨last.mp both.1, both.2.1⟩, both.2.2⟩
        | none =>
          have missing := search_miss search
          have kept : ((virtFsDentryAlloc (pathName path i) (some nameidata.dentry) cache).2.dentries
              nameidata.dentry).inode = some dir := by
            rw [(alloc_grows _ _ cache).kept _ known]
            exact inode
          dsimp only
          rw [kept]
          dsimp only
          cases looked : (ops dir).lookup.bind (· (pathName path i)) with
          | none =>
            dsimp only
            split
            next creates =>
              rw [fixed dir]
              refine .inl ⟨fun reaches => ?_, rfl⟩
              rw [Reaches, looked] at reaches
              exact reaches.2 ⟨last.mpr creates.1, creates.2⟩
            next stays =>
              have reaches : Reaches ops flags dir (pathName path i :: components (path.drop j)) := by
                rw [Reaches, looked]
                exact ⟨short, fun both => stays ⟨last.mp both.1, both.2⟩⟩
              refine .inr ⟨reaches, _, _, _, children, rfl, cached.alloc _ _, alloc_grows _ _ cache, ?_⟩
              have nowhere : opened ops flags dir (pathName path i :: components (path.drop j)) = none := by
                rw [opened, resolve_cons, looked]
                exact ite_self _
              rw [nowhere]
              exact .inl rfl
          | some held =>
            dsimp only
            split
            next exclusive =>
              rw [last.mpr exclusive.1.1]
              exact Ends.exclusive (cached.alloc _ _) (alloc_grows _ _ cache) short looked ⟨exclusive.1.2, exclusive.2⟩
            next open_ =>
              have later : Ends ops (added cache (pathName path i) nameidata.dentry held) flags held (components (path.drop j))
                  (virtFsWalk ops path flags mode turns j (nameidata.enter cache.count
                    (added cache (pathName path i) nameidata.dentry held)) (added cache (pathName path i) nameidata.dentry held)) :=
                ih (cached.add known inode (pathName_ended ended) missing looked) (Nat.lt_succ_self _)
                  (congrArg VfsDentry.inode added_new) within left next_starts
              exact later.turn (add_grows _ _ _ cache) short looked fun both => open_ ⟨⟨last.mp both.1, both.2.1⟩, both.2.2⟩

theorem find_ends {fs : ProcessFs} {path : CString} (fixed : ∀ inode, (ops inode).create = none)
    (cached : Cached ops cache children) (known : startDentry fs path.bytes < cache.count)
    (inode : (cache.dentries (startDentry fs path.bytes)).inode = some dir) :
    Ends ops cache flags dir (components path.bytes) (virtFsPathFind ops fs path flags mode cache) := by
  rw [find_start, ← pathStart_components]
  exact walk_ends fixed cached known inode path.ended (pathStart_le _) (by omega) fun ch rest => pathStart_starts _

end YuzuOS.Proofs.PathWalks
