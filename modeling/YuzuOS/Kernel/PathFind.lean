import YuzuOS.Library.Tokens
import YuzuOS.Kernel.Dlist
import YuzuOS.Kernel.VirtualFs

/-! Looking paths up through the cache of directory entries. Strings are their
bytes up to the terminating zero. -/

namespace YuzuOS.Kernel
open YuzuOS.Library

def eExist : Int := 17
def oCreat : Nat := 0o100
def oExcl : Nat := 0o200
def nameMax : Nat := 256
def slash : BitVec 8 := 47

structure CString where
  bytes : List (BitVec 8)
  ended : 0 ∉ bytes

def strcmp : List (BitVec 8) → List (BitVec 8) → Int
  | [], str2 => 0 - (str2.headD 0).toNat
  | ch1 :: str1, str2 =>
    let ch2 := str2.headD 0
    if ch1 = 0 then ch1.toNat - ch2.toNat
    else if ch1 = ch2 then strcmp str1 str2.tail
    else ch1.toNat - ch2.toNat

theorem strcmp_eq_zero {str1 str2 : List (BitVec 8)} (ended1 : 0 ∉ str1) (ended2 : 0 ∉ str2) :
    strcmp str1 str2 = 0 ↔ str1 = str2 := by
  induction str1 generalizing str2 with
  | nil =>
    cases str2 with
    | nil => simp [strcmp]
    | cons ch2 str2 =>
      have some : ch2 ≠ 0 := fun zero => ended2 (by simp [zero])
      have positive : ch2.toNat ≠ 0 := fun zero => some (BitVec.eq_of_toNat_eq zero)
      simp [strcmp]
      omega
  | cons ch1 str1 ih =>
    have some : ch1 ≠ 0#8 := fun zero => ended1 (by simp [zero])
    have differ (ch2 : BitVec 8) (other : ch1 ≠ ch2) : (ch1.toNat : Int) - ch2.toNat ≠ 0 := by
      intro zero
      exact other (BitVec.eq_of_toNat_eq (by omega))
    cases str2 with
    | nil => simpa [strcmp, some] using differ 0 some
    | cons ch2 str2 =>
      by_cases same : ch1 = ch2
      · have rest : strcmp str1 str2 = 0 ↔ str1 = str2 :=
          ih (fun member => ended1 (List.mem_cons_of_mem _ member)) fun member => ended2 (List.mem_cons_of_mem _ member)
        subst same
        simpa [strcmp, some] using rest
      · simpa [strcmp, some, same] using differ ch2 same

/-- The addresses that the lists of entries link. -/
inductive DentryField
  | list (dentry : Nat)
  | subdirs (dentry : Nat)
  deriving DecidableEq

/-- A dentry without its super block. `inode` is `NULL` until it is set. -/
structure VfsDentry (ι : Type u) where
  name : List (BitVec 8)
  inode : Option ι
  parent : Option Nat

/-- The operations of an inode, each of which may be `NULL`. -/
structure VfsInodeOp (ι : Type u) where
  lookup : Option (List (BitVec 8) → Option ι)
  create : Option (List (BitVec 8) → Nat → Option ι)

structure VfsMount where
  root : Nat
  mount : Nat

structure ProcessFs where
  root : Nat
  mount : VfsMount

structure Nameidata where
  dentry : Nat
  mount : VfsMount

/-- The entries below `count` are allocated. -/
structure Dcache (ι : Type u) where
  dentries : Nat → VfsDentry ι
  count : Nat
  links : Links DentryField
  mounts : List VfsMount

variable {ι : Type u}

def virtFsMountGet (dentry : Nat) (cache : Dcache ι) : Option VfsMount :=
  cache.mounts.find? fun iter => iter.mount = dentry

def virtFsDentryAlloc (name : List (BitVec 8)) (parent : Option Nat) (cache : Dcache ι) : Nat × Dcache ι :=
  let dentry := cache.count
  (dentry, { cache with
    dentries := Function.update cache.dentries dentry ⟨name, none, parent⟩
    count := dentry + 1
    links := dlistHeadInit (.subdirs dentry) cache.links })

def Dcache.setInode (cache : Dcache ι) (dentry : Nat) (inode : Option ι) : Dcache ι :=
  { cache with dentries := Function.update cache.dentries dentry { cache.dentries dentry with inode } }

/-- The loop through `subdirs`, with the number of turns left; it stops when it
is back at the head. -/
def virtFsChildFind (cache : Dcache ι) (name : List (BitVec 8)) (head : DentryField) :
    Nat → DentryField → Option (Option Nat)
  | 0, _ => none
  | turns + 1, pos =>
    if pos = head then some none
    else match pos with
      | .subdirs _ => none
      | .list iter =>
        if strcmp name (cache.dentries iter).name = 0 then some (some iter)
        else virtFsChildFind cache name head turns (cache.links.next pos)

/-- The component from `i` on, and the place behind the slashes at `i`. -/
def pathName (path : List (BitVec 8)) (i : Nat) : List (BitVec 8) :=
  (path.drop i).takeWhile fun ch => !decide (ch = slash)

def pathSkip (path : List (BitVec 8)) (i : Nat) : Nat :=
  i + ((path.drop i).takeWhile fun ch => decide (ch = slash)).length

def Nameidata.enter (nameidata : Nameidata) (dentry : Nat) (cache : Dcache ι) : Nameidata :=
  { dentry, mount := (virtFsMountGet dentry cache).getD nameidata.mount }

/-- The end of a turn that adds a new entry. -/
def virtFsChildAdd (parent child : Nat) (inode : Option ι) (cache : Dcache ι) : Dcache ι :=
  let cache := cache.setInode child inode
  { cache with links := dlistAddTail (.list child) (.subdirs parent) cache.links }

/-- The loop of `virt_fs_path_find`. A component that does not fit `name`, and a
call through `NULL`, are undefined. -/
def virtFsWalk (ops : ι → VfsInodeOp ι) (path : List (BitVec 8)) (flags mode : Nat) :
    Nat → Nat → Nameidata → Dcache ι → Option (Int × Nameidata × Dcache ι)
  | 0, _, _, _ => none
  | turns + 1, i, nameidata, cache =>
    if i < path.length then
      let name := pathName path i
      if nameMax ≤ name.length then none
      else
        let i := pathSkip path (i + name.length)
        let creates := i = path.length ∧ flags &&& oCreat ≠ 0
        match virtFsChildFind cache name (.subdirs nameidata.dentry) (cache.count + 1)
            (cache.links.next (.subdirs nameidata.dentry)) with
        | none => none
        | some (some child) =>
          if creates ∧ flags &&& oExcl ≠ 0 then some (-eExist, { nameidata with dentry := child }, cache)
          else virtFsWalk ops path flags mode turns i (nameidata.enter child cache) cache
        | some none =>
          let (child, cache) := virtFsDentryAlloc name (some nameidata.dentry) cache
          match (cache.dentries nameidata.dentry).inode with
          | none => none
          | some dir => match (ops dir).lookup.bind (· name) with
            | none =>
              if creates then match (ops dir).create with
                | none => none
                | some create =>
                  let cache := virtFsChildAdd nameidata.dentry child (create name mode) cache
                  virtFsWalk ops path flags mode turns i (nameidata.enter child cache) cache
              else some (-eNoent, nameidata, cache)
            | some inode =>
              if creates ∧ flags &&& oExcl ≠ 0 then some (-eExist, nameidata, cache)
              else
                let cache := virtFsChildAdd nameidata.dentry child (some inode) cache
                virtFsWalk ops path flags mode turns i (nameidata.enter child cache) cache
    else some (0, nameidata, cache)

/-- A turn with a component that fits `name`: what it returns, or the entry and the cache that
the next turn begins with. -/
def virtFsTurn (ops : ι → VfsInodeOp ι) (flags mode : Nat) (last : Bool) (name : List (BitVec 8))
    (nameidata : Nameidata) (cache : Dcache ι) : Option ((Int × Nameidata × Dcache ι) ⊕ (Nameidata × Dcache ι)) :=
  let creates := last ∧ flags &&& oCreat ≠ 0
  match virtFsChildFind cache name (.subdirs nameidata.dentry) (cache.count + 1)
      (cache.links.next (.subdirs nameidata.dentry)) with
  | none => none
  | some (some child) =>
    if creates ∧ flags &&& oExcl ≠ 0 then some (.inl (-eExist, { nameidata with dentry := child }, cache))
    else some (.inr (nameidata.enter child cache, cache))
  | some none =>
    let (child, cache) := virtFsDentryAlloc name (some nameidata.dentry) cache
    match (cache.dentries nameidata.dentry).inode with
    | none => none
    | some dir => match (ops dir).lookup.bind (· name) with
      | none =>
        if creates then match (ops dir).create with
          | none => none
          | some create =>
            let cache := virtFsChildAdd nameidata.dentry child (create name mode) cache
            some (.inr (nameidata.enter child cache, cache))
        else some (.inl (-eNoent, nameidata, cache))
      | some inode =>
        if creates ∧ flags &&& oExcl ≠ 0 then some (.inl (-eExist, nameidata, cache))
        else
          let cache := virtFsChildAdd nameidata.dentry child (some inode) cache
          some (.inr (nameidata.enter child cache, cache))

/-- The loop that copies a component, with the stores into `name` from place `j` on. -/
def virtFsNameCopy : List (BitVec 8) → Nat → List (Nat × BitVec 8)
  | [], _ => []
  | ch :: path, j => if ch = slash then [] else (j, ch) :: virtFsNameCopy path (j + 1)

/-- A byte of `name` after `memset` and the stores. -/
def virtFsNameByte (stores : List (Nat × BitVec 8)) (place : Nat) : BitVec 8 :=
  ((stores.find? fun store => store.1 = place).map Prod.snd).getD 0

/-- The stores of each turn of the loop of `virt_fs_path_find`, up to a component that does not fit. -/
def virtFsWalkCopies (ops : ι → VfsInodeOp ι) (path : List (BitVec 8)) (flags mode : Nat) :
    Nat → Nat → Nameidata → Dcache ι → List (List (Nat × BitVec 8))
  | 0, _, _, _ => []
  | turns + 1, i, nameidata, cache =>
    if i < path.length then
      let copy := virtFsNameCopy (path.drop i) 0
      if nameMax ≤ copy.length then [copy]
      else
        let i := pathSkip path (i + copy.length)
        match virtFsTurn ops flags mode (i = path.length) (copy.map Prod.snd) nameidata cache with
        | some (.inr (nameidata, cache)) => copy :: virtFsWalkCopies ops path flags mode turns i nameidata cache
        | _ => [copy]
    else []

def virtFsPathFind (ops : ι → VfsInodeOp ι) (fs : ProcessFs) (path : CString) (flags mode : Nat) (cache : Dcache ι) :
    Option (Int × Nameidata × Dcache ι) :=
  if path.bytes.head? = some slash then
    virtFsWalk ops path.bytes flags mode (path.bytes.length + 1) (pathSkip path.bytes 0) ⟨fs.mount.mount, fs.mount⟩ cache
  else virtFsWalk ops path.bytes flags mode (path.bytes.length + 1) 0 ⟨fs.root, fs.mount⟩ cache

def virtFsPathCopies (ops : ι → VfsInodeOp ι) (fs : ProcessFs) (path : CString) (flags mode : Nat) (cache : Dcache ι) :
    List (List (Nat × BitVec 8)) :=
  if path.bytes.head? = some slash then
    virtFsWalkCopies ops path.bytes flags mode (path.bytes.length + 1) (pathSkip path.bytes 0) ⟨fs.mount.mount, fs.mount⟩ cache
  else virtFsWalkCopies ops path.bytes flags mode (path.bytes.length + 1) 0 ⟨fs.root, fs.mount⟩ cache

/-- The cache and the file system of the process after `virt_fs_mount_root`, with
the entry that `ext2_fs_mount` makes. -/
def virtFsMountRoot (inode : ι) (links : Links DentryField) (dentries : Nat → VfsDentry ι) : ProcessFs × Dcache ι :=
  let (dentry, cache) := virtFsDentryAlloc [slash] none { dentries, count := 0, links, mounts := [] }
  let mount := VfsMount.mk dentry dentry
  (⟨mount.root, mount⟩, { cache.setInode dentry (some inode) with mounts := [mount] })

end YuzuOS.Kernel
