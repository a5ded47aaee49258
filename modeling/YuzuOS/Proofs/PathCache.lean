import Mathlib.Data.List.Find
import Mathlib.Data.List.Perm.Subperm
import Mathlib.Logic.Relation
import YuzuOS.Library.Run
import YuzuOS.Kernel.PathFind

/-! The cache of directory entries agrees with what the file system would answer,
so a path is looked up as if there were no cache. -/

namespace YuzuOS.Proofs.PathCache
open YuzuOS.Library YuzuOS.Kernel

variable {ι : Type u} {ops : ι → VfsInodeOp ι} {cache next after : Dcache ι} {children : Nat → List Nat}
  {name path : List (BitVec 8)} {dir inode : ι} {dentry child flags mode i : Nat} {nameidata : Nameidata}

/-- The entries below each dentry have names of their own, and inodes as the file
system looks them up. -/
structure Cached (ops : ι → VfsInodeOp ι) (cache : Dcache ι) (children : Nat → List Nat) : Prop where
  rings : ∀ dentry < cache.count, Ring cache.links (.subdirs dentry) ((children dentry).map .list)
  outside : ∀ dentry ≥ cache.count, children dentry = []
  below : ∀ dentry, ∀ child ∈ children dentry, child < cache.count ∧ (cache.dentries child).parent = some dentry
  distinct : ∀ dentry, ((children dentry).map fun child => (cache.dentries child).name).Nodup
  ended : ∀ dentry, ∀ child ∈ children dentry, 0 ∉ (cache.dentries child).name
  found : ∀ dentry, ∀ child ∈ children dentry, ∃ dir inode, (cache.dentries dentry).inode = some dir ∧
    (cache.dentries child).inode = some inode ∧ (ops dir).lookup.bind (· (cache.dentries child).name) = some inode

/-- The entries below each dentry form its list, with names of their own. -/
structure Chained (cache : Dcache ι) (children : Nat → List Nat) : Prop where
  rings : ∀ dentry < cache.count, Ring cache.links (.subdirs dentry) ((children dentry).map .list)
  outside : ∀ dentry ≥ cache.count, children dentry = []
  below : ∀ dentry, ∀ child ∈ children dentry, child < cache.count ∧ (cache.dentries child).parent = some dentry
  distinct : ∀ dentry, ((children dentry).map fun child => (cache.dentries child).name).Nodup
  ended : ∀ dentry, ∀ child ∈ children dentry, 0 ∉ (cache.dentries child).name

theorem Cached.chained (cached : Cached ops cache children) : Chained cache children :=
  ⟨cached.rings, cached.outside, cached.below, cached.distinct, cached.ended⟩

/-- A call only allocates. -/
structure Grows (cache next : Dcache ι) : Prop where
  count : cache.count ≤ next.count
  kept : ∀ dentry < cache.count, next.dentries dentry = cache.dentries dentry

theorem Grows.refl (cache : Dcache ι) : Grows cache cache := ⟨Nat.le_refl _, fun _ _ => rfl⟩

theorem Grows.trans (first : Grows cache next) (second : Grows next after) : Grows cache after :=
  ⟨first.count.trans second.count, fun dentry bound =>
    (second.kept dentry (Nat.lt_of_lt_of_le bound first.count)).trans (first.kept dentry bound)⟩

/-- The search goes through a ring from any of its members. -/
theorem childFind_chain {head entry : DentryField} {nodes : List Nat} {turns : Nat} (enough : nodes.length < turns)
    (absent : head ∉ nodes.map DentryField.list)
    (chain : (entry :: (nodes.map DentryField.list ++ [head])).IsChain cache.links.Joined) :
    virtFsChildFind cache name head turns (cache.links.next entry) =
      some (nodes.find? fun child => strcmp name (cache.dentries child).name = 0) := by
  induction nodes generalizing entry turns with
  | nil =>
    obtain ⟨turns, rfl⟩ := Nat.exists_eq_succ_of_ne_zero (Nat.ne_of_gt enough)
    have back : cache.links.next entry = head := (List.isChain_cons_cons.mp chain).1.1
    simp [virtFsChildFind, back]
  | cons child rest ih =>
    obtain ⟨turns, rfl⟩ := Nat.exists_eq_succ_of_ne_zero (Nat.ne_of_gt (Nat.zero_lt_of_lt enough))
    obtain ⟨here, chain⟩ := List.isChain_cons_cons.mp chain
    have other : DentryField.list child ≠ head := fun same => absent (same ▸ List.mem_cons_self)
    have later := ih (Nat.lt_of_succ_lt_succ enough) (fun member => absent (List.mem_cons_of_mem _ member)) chain
    rw [here.1, virtFsChildFind, if_neg other]
    by_cases same : strcmp name (cache.dentries child).name = 0
    · simp [same]
    · simpa [same] using later

theorem Chained.known (chained : Chained cache children) (member : child ∈ children dentry) : dentry < cache.count := by
  apply Nat.lt_of_not_le
  intro beyond
  rw [chained.outside dentry beyond] at member
  cases member

theorem Chained.nodup (chained : Chained cache children) (dentry : Nat) : (children dentry).Nodup :=
  (chained.distinct dentry).of_map _

theorem Chained.short (chained : Chained cache children) (dentry : Nat) : (children dentry).length ≤ cache.count := by
  have inside : children dentry ⊆ List.range cache.count := by
    intro child member
    exact List.mem_range.mpr (chained.below dentry child member).1
  have length := (List.subperm_of_subset (chained.nodup dentry) inside).length_le
  rwa [List.length_range] at length

theorem Chained.find (chained : Chained cache children) (known : dentry < cache.count) (ended : 0 ∉ name) :
    virtFsChildFind cache name (.subdirs dentry) (cache.count + 1) (cache.links.next (.subdirs dentry)) =
      some ((children dentry).find? fun child => name = (cache.dentries child).name) := by
  have ring := chained.rings dentry known
  have absent := (List.nodup_cons.mp ring.nodup).1
  rw [childFind_chain (Nat.lt_succ_of_le (chained.short dentry)) absent ring.joined]
  congr 1
  apply List.find?_congr
  intro child member
  exact decide_eq_decide.mpr (strcmp_eq_zero ended (chained.ended dentry child member))

theorem alloc_grows (name : List (BitVec 8)) (parent : Option Nat) (cache : Dcache ι) :
    Grows cache (virtFsDentryAlloc name parent cache).2 :=
  ⟨Nat.le_succ _, fun _ bound => Function.update_of_ne bound.ne _ _⟩

theorem add_grows (name : List (BitVec 8)) (dentry : Nat) (inode : Option ι) (cache : Dcache ι) :
    Grows cache (virtFsChildAdd dentry cache.count inode (virtFsDentryAlloc name (some dentry) cache).2) := by
  refine ⟨Nat.le_succ _, fun other bound => ?_⟩
  have set : (virtFsChildAdd dentry cache.count inode (virtFsDentryAlloc name (some dentry) cache).2).dentries other =
      (virtFsDentryAlloc name (some dentry) cache).2.dentries other := Function.update_of_ne bound.ne _ _
  rw [set]
  exact (alloc_grows name (some dentry) cache).kept other bound

theorem alloc_rings (chained : Chained cache children) (known : dentry < cache.count) :
    Ring (dlistHeadInit (.subdirs cache.count) cache.links) (.subdirs dentry) ((children dentry).map .list) := by
  apply (chained.rings dentry known).congr
  intro item member
  have other : item ≠ .subdirs cache.count := by
    rintro rfl
    rcases List.mem_cons.mp member with head | inside
    · cases head
      exact Nat.lt_irrefl _ known
    · simp at inside
  simp [dlistHeadInit, other]

theorem Chained.alloc (chained : Chained cache children) (name : List (BitVec 8)) (parent : Option Nat) :
    Chained (virtFsDentryAlloc name parent cache).2 children := by
  have kept := (alloc_grows name parent cache).kept
  have same : ∀ dentry, ∀ child ∈ children dentry,
      (virtFsDentryAlloc name parent cache).2.dentries child = cache.dentries child :=
    fun dentry child member => kept child (chained.below dentry child member).1
  refine ⟨fun dentry bound => ?_, fun dentry bound => chained.outside dentry (Nat.le_of_succ_le bound),
    fun dentry child member => ?_, fun dentry => ?_, fun dentry child member => ?_⟩
  · rcases Nat.lt_succ_iff_lt_or_eq.mp bound with old | new
    · exact alloc_rings chained old
    · rw [new, chained.outside cache.count (Nat.le_refl _)]
      exact Ring.nil_iff.mpr dlistHeadInit_alone
  · rw [same dentry child member]
    have below := chained.below dentry child member
    exact ⟨Nat.lt_succ_of_lt below.1, below.2⟩
  · rw [List.map_congr_left fun child member => congrArg VfsDentry.name (same dentry child member)]
    exact chained.distinct dentry
  · rw [same dentry child member]
    exact chained.ended dentry child member

theorem Cached.alloc (cached : Cached ops cache children) (name : List (BitVec 8)) (parent : Option Nat) :
    Cached ops (virtFsDentryAlloc name parent cache).2 children := by
  have kept := (alloc_grows name parent cache).kept
  obtain ⟨rings, outside, below, distinct, ended⟩ := cached.chained.alloc name parent
  refine ⟨rings, outside, below, distinct, ended, fun dentry child member => ?_⟩
  rw [kept child (cached.below dentry child member).1, kept dentry (cached.chained.known member)]
  exact cached.found dentry child member

def extended (cache : Dcache ι) (name : List (BitVec 8)) (dentry : Nat) (inode : Option ι) : Dcache ι :=
  virtFsChildAdd dentry cache.count inode (virtFsDentryAlloc name (some dentry) cache).2

def added (cache : Dcache ι) (name : List (BitVec 8)) (dentry : Nat) (inode : ι) : Dcache ι :=
  virtFsChildAdd dentry cache.count (some inode) (virtFsDentryAlloc name (some dentry) cache).2

theorem extended_new (inode : Option ι) :
    (extended cache name dentry inode).dentries cache.count = ⟨name, inode, some dentry⟩ := by
  have set : (extended cache name dentry inode).dentries cache.count =
      { (virtFsDentryAlloc name (some dentry) cache).2.dentries cache.count with inode } := Function.update_self _ _ _
  have alloc : (virtFsDentryAlloc name (some dentry) cache).2.dentries cache.count = ⟨name, none, some dentry⟩ :=
    Function.update_self _ _ _
  rw [set, alloc]

theorem added_new : (added cache name dentry inode).dentries cache.count = ⟨name, some inode, some dentry⟩ :=
  extended_new (some inode)

/-- A list that is not that of the parent, and does not hold the new entry, keeps its links. -/
theorem extended_frame {item : DentryField} (chained : Chained cache children) (known : dentry < cache.count)
    (inode : Option ι) (isNew : item ≠ .list cache.count)
    (outside : item ∉ DentryField.subdirs dentry :: (children dentry).map .list) :
    (extended cache name dentry inode).links.next item = (dlistHeadInit (.subdirs cache.count) cache.links).next item ∧
      (extended cache name dentry inode).links.prev item =
        (dlistHeadInit (.subdirs cache.count) cache.links).prev item := by
  have cycle : Cycle (dlistHeadInit (.subdirs cache.count) cache.links)
      (DentryField.subdirs dentry :: (children dentry).map .list) := alloc_rings chained known
  exact dlistAddTail_frame cycle List.mem_cons_self isNew outside

theorem Chained.list_mem (chained : Chained cache children) {other : Nat}
    (member : DentryField.list child ∈ DentryField.subdirs other :: (children other).map .list) :
    child < cache.count ∧ (cache.dentries child).parent = some other := by
  have inside : child ∈ children other := by simpa using member
  exact chained.below other child inside

theorem extended_rings (chained : Chained cache children) (known : dentry < cache.count) (inode : Option ι)
    {other : Nat} (bound : other < cache.count + 1) : Ring (extended cache name dentry inode).links (.subdirs other)
      ((Function.update children dentry (children dentry ++ [cache.count]) other).map .list) := by
  by_cases here : other = dentry
  · rw [here, Function.update_self, List.map_append]
    apply (alloc_rings chained known).insert_tail
    intro member
    exact Nat.lt_irrefl _ (chained.list_mem member).1
  rw [Function.update_of_ne here]
  rcases Nat.lt_succ_iff_lt_or_eq.mp bound with old | last
  · apply (alloc_rings chained old).congr
    intro item member
    apply extended_frame chained known
    · rintro rfl
      exact Nat.lt_irrefl _ (chained.list_mem member).1
    · intro shared
      cases item with
      | list child =>
        have owner := (chained.list_mem member).2
        rw [(chained.list_mem shared).2] at owner
        exact here (Option.some.inj owner).symm
      | subdirs head =>
        have first : head = other := by simpa using member
        have second : head = dentry := by simpa using shared
        exact here (first.symm.trans second)
  · rw [last, chained.outside cache.count (Nat.le_refl _)]
    refine Ring.nil_iff.mpr (dlistHeadInit_alone.congr (extended_frame chained known inode (by simp) ?_))
    simpa using known.ne'

theorem update_members {other last : Nat} {P : Nat → Prop} (old : ∀ child ∈ children other, P child)
    (new : other = dentry → P last) :
    ∀ child ∈ Function.update children dentry (children dentry ++ [last]) other, P child := by
  intro child member
  by_cases here : other = dentry
  · rw [here, Function.update_self] at member
    rcases List.mem_append.mp member with before | equal
    · exact old child (here ▸ before)
    · rw [List.mem_singleton.mp equal]
      exact new here
  · rw [Function.update_of_ne here] at member
    exact old child member

theorem Chained.extend (chained : Chained cache children) (known : dentry < cache.count) (ended : 0 ∉ name)
    (missing : ∀ child ∈ children dentry, name ≠ (cache.dentries child).name) (inode : Option ι) :
    Chained (extended cache name dentry inode) (Function.update children dentry (children dentry ++ [cache.count])) := by
  have kept : ∀ other < cache.count, (extended cache name dentry inode).dentries other = cache.dentries other :=
    (add_grows name dentry inode cache).kept
  have new : (extended cache name dentry inode).dentries cache.count = ⟨name, inode, some dentry⟩ := extended_new inode
  have same : ∀ other, ∀ child ∈ children other, (extended cache name dentry inode).dentries child = cache.dentries child :=
    fun other child member => kept child (chained.below other child member).1
  refine ⟨fun other bound => extended_rings chained known inode bound, fun other beyond => ?_, fun other => ?_, fun other => ?_,
    fun other => ?_⟩
  · have apart : other ≠ dentry := by
      rintro rfl
      exact Nat.lt_irrefl _ (Nat.lt_of_lt_of_le known (Nat.le_of_succ_le beyond))
    rw [Function.update_of_ne apart]
    exact chained.outside other (Nat.le_of_succ_le beyond)
  · refine update_members (fun child member => ?_) fun here => ⟨Nat.lt_succ_self _, by rw [new, here]⟩
    have below := chained.below other child member
    rw [same other child member]
    exact ⟨Nat.lt_succ_of_lt below.1, below.2⟩
  · have old : (children other).map (fun child => ((extended cache name dentry inode).dentries child).name) =
        (children other).map fun child => (cache.dentries child).name :=
      List.map_congr_left fun child member => congrArg VfsDentry.name (same other child member)
    by_cases here : other = dentry
    · subst here
      rw [Function.update_self, List.map_append, old, List.map_singleton, new]
      refine List.nodup_append.mpr ⟨chained.distinct other, List.nodup_singleton _, ?_⟩
      intro first member second last equal
      obtain ⟨child, before, rfl⟩ := List.mem_map.mp member
      exact missing child before ((List.mem_singleton.mp last).symm.trans equal.symm)
    · rw [Function.update_of_ne here, old]
      exact chained.distinct other
  · refine update_members (fun child member => ?_) fun _ => by rwa [new]
    rw [same other child member]
    exact chained.ended other child member

theorem Cached.add (cached : Cached ops cache children) (known : dentry < cache.count)
    (parent : (cache.dentries dentry).inode = some dir) (ended : 0 ∉ name)
    (missing : ∀ child ∈ children dentry, name ≠ (cache.dentries child).name)
    (looked : (ops dir).lookup.bind (· name) = some inode) :
    Cached ops (added cache name dentry inode) (Function.update children dentry (children dentry ++ [cache.count])) := by
  have kept : ∀ other < cache.count, (added cache name dentry inode).dentries other = cache.dentries other :=
    (add_grows name dentry (some inode) cache).kept
  obtain ⟨rings, outside, below, distinct, ends⟩ := cached.chained.extend known ended missing (some inode)
  refine ⟨rings, outside, below, distinct, ends, fun other => update_members (fun child member => ?_) fun here => ?_⟩
  · rw [kept child (cached.below other child member).1, kept other (cached.chained.known member)]
    exact cached.found other child member
  · rw [here, kept dentry known, added_new]
    exact ⟨dir, inode, parent, rfl, looked⟩

def isSlash (ch : BitVec 8) : Bool := decide (ch = slash)

def components (path : List (BitVec 8)) : List (List (BitVec 8)) := tokens isSlash path

def resolve (ops : ι → VfsInodeOp ι) (dir : ι) (names : List (List (BitVec 8))) : Option ι :=
  names.foldlM (fun dir name => (ops dir).lookup.bind (· name)) dir

def Creates (ops : ι → VfsInodeOp ι) (flags : Nat) : ι → List (List (BitVec 8)) → Prop
  | _, [] => False
  | dir, name :: names => match (ops dir).lookup.bind (· name) with
    | some inode => Creates ops flags inode names
    | none => names = [] ∧ flags &&& oCreat ≠ 0

instance Creates.decidable (ops : ι → VfsInodeOp ι) (flags : Nat) : ∀ dir names, Decidable (Creates ops flags dir names)
  | _, [] => isFalse id
  | dir, name :: names => match looked : (ops dir).lookup.bind (· name) with
    | some inode =>
      have := Creates.decidable ops flags inode names
      decidable_of_iff (Creates ops flags inode names) (by rw [Creates, looked])
    | none => decidable_of_iff (names = [] ∧ flags &&& oCreat ≠ 0) (by rw [Creates, looked])

/-- What `virt_fs_path_find` should give. -/
def Yields (ops : ι → VfsInodeOp ι) (dir : ι) (names : List (List (BitVec 8))) (result : Int) (nameidata : Nameidata)
    (cache : Dcache ι) : Prop :=
  match resolve ops dir names with
  | some inode => result = 0 ∧ (cache.dentries nameidata.dentry).inode = some inode
  | none => result = -eNoent

theorem resolve_cons {names : List (List (BitVec 8))} :
    resolve ops dir (name :: names) = ((ops dir).lookup.bind (· name)).bind fun inode => resolve ops inode names := by
  rw [resolve, List.foldlM_cons]
  rfl

theorem pathSkip_drop (path : List (BitVec 8)) (i : Nat) :
    path.drop (pathSkip path i) = (path.drop i).dropWhile isSlash := by
  rw [pathSkip, ← List.drop_drop]
  exact drop_takeWhile_length isSlash (path.drop i)

theorem pathName_drop (path : List (BitVec 8)) (i : Nat) :
    path.drop (i + (pathName path i).length) = (path.drop i).dropWhile fun ch => !isSlash ch := by
  rw [← List.drop_drop]
  exact drop_takeWhile_length (fun ch => !isSlash ch) (path.drop i)

theorem pathSkip_starts {ch : BitVec 8} {rest : List (BitVec 8)} (front : path.drop (pathSkip path i) = ch :: rest) :
    isSlash ch = false := by
  rw [pathSkip_drop] at front
  have remains : (path.drop i).dropWhile isSlash ≠ [] := by simp [front]
  have head := List.head_dropWhile_not isSlash remains
  simpa [front] using head

theorem pathSkip_le (inside : i ≤ path.length) : pathSkip path i ≤ path.length := by
  have short := (List.takeWhile_sublist (p := isSlash) (l := path.drop i)).length_le
  rw [List.length_drop] at short
  exact Nat.add_le_of_le_sub' inside short

theorem pathName_le (inside : i ≤ path.length) : i + (pathName path i).length ≤ path.length := by
  have short := (List.takeWhile_sublist (p := fun ch => !isSlash ch) (l := path.drop i)).length_le
  rw [List.length_drop] at short
  exact Nat.add_le_of_le_sub' inside short

/-- One turn takes one component. -/
theorem components_turn {ch : BitVec 8} {rest : List (BitVec 8)} (front : path.drop i = ch :: rest)
    (starts : isSlash ch = false) : components (path.drop i) =
      pathName path i :: components (path.drop (pathSkip path (i + (pathName path i).length))) := by
  rw [pathSkip_drop, pathName_drop, components, components, tokens_skip, front, tokens_next starts, ← front]
  rfl

theorem pathName_pos {ch : BitVec 8} {rest : List (BitVec 8)} (front : path.drop i = ch :: rest)
    (starts : isSlash ch = false) : 0 < (pathName path i).length := by
  have word : ch ≠ slash := by simpa [isSlash] using starts
  simp [pathName, front, word]

theorem pathName_ended (ended : 0 ∉ path) : 0 ∉ pathName path i := by
  intro member
  have inside : (pathName path i).Sublist path := (List.takeWhile_sublist _).trans (List.drop_sublist _ _)
  exact ended (inside.subset member)

theorem walk_next (more : i < path.length) (starts : ∀ ch rest, path.drop i = ch :: rest → isSlash ch = false) :
    ∃ j, pathSkip path (i + (pathName path i).length) = j ∧
      components (path.drop i) = pathName path i :: components (path.drop j) ∧ i < j ∧ j ≤ path.length ∧
      ∀ ch rest, path.drop j = ch :: rest → isSlash ch = false := by
  obtain ⟨ch, rest, front⟩ := List.exists_cons_of_ne_nil (List.drop_eq_nil_iff.not.mpr (Nat.not_le.mpr more))
  have word := starts ch rest front
  have positive := pathName_pos front word
  have advanced : i + (pathName path i).length ≤ pathSkip path (i + (pathName path i).length) := Nat.le_add_right _ _
  exact ⟨_, rfl, components_turn front word, by omega, pathSkip_le (pathName_le more.le), fun ch rest => pathSkip_starts⟩

/-- The source tests whether it is at the end, which is whether a component is left. -/
theorem components_end (inside : i ≤ path.length) (starts : ∀ ch rest, path.drop i = ch :: rest → isSlash ch = false) :
    components (path.drop i) = [] ↔ i = path.length := by
  constructor
  · intro done
    by_contra further
    obtain ⟨j, -, turn, -⟩ := walk_next (Nat.lt_of_le_of_ne inside further) starts
    rw [turn] at done
    cases done
  · rintro rfl
    rw [List.drop_length]
    exact tokens_nil

theorem Cached.hit {child : Nat} (cached : Cached ops cache children) (inode : (cache.dentries dentry).inode = some dir)
    (search : (children dentry).find? (fun child => name = (cache.dentries child).name) = some child) :
    child < cache.count ∧ ∃ held, (cache.dentries child).inode = some held ∧
      (ops dir).lookup.bind (· name) = some held := by
  have member := List.mem_of_find?_eq_some search
  have same : name = (cache.dentries child).name := by simpa using List.find?_some search
  obtain ⟨above, held, parent, child_inode, looked⟩ := cached.found dentry child member
  rw [inode] at parent
  cases parent
  exact ⟨(cached.below _ child member).1, held, child_inode, same ▸ looked⟩

theorem search_miss (search : (children dentry).find? (fun child => name = (cache.dentries child).name) = none) :
    ∀ child ∈ children dentry, name ≠ (cache.dentries child).name := by
  intro child member
  simpa using List.find?_eq_none.mp search child member

/-- A walk that is defined returns, keeps the cache right, and without `O_CREAT`
it gives the fold. -/
def Walks (ops : ι → VfsInodeOp ι) (cache : Dcache ι) (flags : Nat) (dir : ι) (names : List (List (BitVec 8)))
    (outcome : Option (Int × Nameidata × Dcache ι)) : Prop :=
  ((∃ name ∈ names, nameMax ≤ name.length) ∧ outcome = none) ∨
    ∃ result nameidata next children, outcome = some (result, nameidata, next) ∧ Cached ops next children ∧
      Grows cache next ∧ (flags &&& oCreat = 0 → Yields ops dir names result nameidata next)

theorem Walks.turn {names : List (List (BitVec 8))} {outcome : Option (Int × Nameidata × Dcache ι)}
    (walks : Walks ops next flags inode names outcome) (grows : Grows cache next)
    (looked : (ops dir).lookup.bind (· name) = some inode) : Walks ops cache flags dir (name :: names) outcome := by
  rcases walks with ⟨⟨long, member, bound⟩, undefined⟩ | ⟨result, nameidata, final, children, ends, cached, grown, yields⟩
  · exact .inl ⟨⟨long, List.mem_cons_of_mem _ member, bound⟩, undefined⟩
  · refine .inr ⟨result, nameidata, final, children, ends, cached, grows.trans grown, fun plain => ?_⟩
    have step : resolve ops dir (name :: names) = resolve ops inode names := by rw [resolve_cons, looked, Option.bind_some]
    rw [Yields, step]
    exact yields plain

theorem Cached.stops {names : List (List (BitVec 8))} {result : Int} (cached : Cached ops next children)
    (grows : Grows cache next) (yields : flags &&& oCreat = 0 → Yields ops dir names result nameidata next) :
    Walks ops cache flags dir names (some (result, nameidata, next)) :=
  .inr ⟨result, nameidata, next, children, rfl, cached, grows, yields⟩

theorem walk_spec {turns : Nat} (cached : Cached ops cache children) (known : nameidata.dentry < cache.count)
    (inode : (cache.dentries nameidata.dentry).inode = some dir) (ended : 0 ∉ path) (inside : i ≤ path.length)
    (enough : path.length - i < turns) (starts : ∀ ch rest, path.drop i = ch :: rest → isSlash ch = false)
    (static : ¬ Creates ops flags dir (components (path.drop i))) :
    Walks ops cache flags dir (components (path.drop i)) (virtFsWalk ops path flags mode turns i nameidata cache) := by
  induction turns generalizing i nameidata cache children dir with
  | zero => exact absurd enough (Nat.not_lt_zero _)
  | succ turns ih =>
    rw [virtFsWalk]
    split
    case isFalse finished =>
      have empty : path.drop i = [] := List.drop_eq_nil_of_le (Nat.le_of_not_lt finished)
      rw [empty]
      exact cached.stops (Grows.refl cache) fun _ => ⟨rfl, inode⟩
    case isTrue more =>
      obtain ⟨j, behind, turn, advanced, within, next_starts⟩ := walk_next more starts
      rw [turn] at static ⊢
      have left : path.length - j < turns := by omega
      dsimp only
      split
      next long => exact .inl ⟨⟨_, List.mem_cons_self, long⟩, rfl⟩
      next short =>
        rw [behind, cached.chained.find known (pathName_ended ended)]
        cases search : (children nameidata.dentry).find? fun child => pathName path i = (cache.dentries child).name with
        | some child =>
          obtain ⟨child_known, held, child_inode, looked⟩ := cached.hit inode search
          have rest_static : ¬ Creates ops flags held (components (path.drop j)) := by
            rw [Creates, looked] at static
            exact static
          have later : Walks ops cache flags held (components (path.drop j))
              (virtFsWalk ops path flags mode turns j (nameidata.enter child cache) cache) :=
            ih cached child_known child_inode within left next_starts rest_static
          dsimp only
          split
          next exclusive => exact cached.stops (Grows.refl cache) fun plain => absurd plain exclusive.1.2
          next => exact later.turn (Grows.refl cache) looked
        | none =>
          have missing := search_miss search
          have kept : ((virtFsDentryAlloc (pathName path i) (some nameidata.dentry) cache).2.dentries
              nameidata.dentry).inode = some dir := by
            rw [(alloc_grows _ _ cache).kept _ known]
            exact inode
          dsimp only
          rw [kept]
          dsimp only
          cases looked : (ops dir).lookup.bind (· (pathName path i)) with
          | none =>
            dsimp only
            split
            next creates =>
              rw [Creates, looked] at static
              exact absurd ⟨(components_end within next_starts).mpr creates.1, creates.2⟩ static
            next =>
              refine (cached.alloc _ _).stops (alloc_grows _ _ cache) fun _ => ?_
              rw [Yields, resolve_cons, looked]
              rfl
          | some held =>
            have rest_static : ¬ Creates ops flags held (components (path.drop j)) := by
              rw [Creates, looked] at static
              exact static
            have later : Walks ops (added cache (pathName path i) nameidata.dentry held) flags held (components (path.drop j))
                (virtFsWalk ops path flags mode turns j (nameidata.enter cache.count
                  (added cache (pathName path i) nameidata.dentry held)) (added cache (pathName path i) nameidata.dentry held)) :=
              ih (cached.add known inode (pathName_ended ended) missing looked) (Nat.lt_succ_self _)
                (congrArg VfsDentry.inode added_new) within left next_starts rest_static
            dsimp only
            split
            next exclusive => exact (cached.alloc _ _).stops (alloc_grows _ _ cache) fun plain => absurd plain exclusive.1.2
            next => exact later.turn (add_grows _ _ _ cache) looked

def startDentry (fs : ProcessFs) (path : List (BitVec 8)) : Nat :=
  if path.head? = some slash then fs.mount.mount else fs.root

def pathStart (path : List (BitVec 8)) : Nat := if path.head? = some slash then pathSkip path 0 else 0

theorem find_start (fs : ProcessFs) (path : CString) : virtFsPathFind ops fs path flags mode cache =
    virtFsWalk ops path.bytes flags mode (path.bytes.length + 1) (pathStart path.bytes) ⟨startDentry fs path.bytes, fs.mount⟩ cache := by
  unfold virtFsPathFind pathStart startDentry
  split
  · rfl
  · rfl

theorem pathStart_le (path : List (BitVec 8)) : pathStart path ≤ path.length := by
  unfold pathStart
  split
  · exact pathSkip_le (Nat.zero_le _)
  · exact Nat.zero_le _

theorem pathStart_starts (path : List (BitVec 8)) {ch : BitVec 8} {rest : List (BitVec 8)}
    (front : path.drop (pathStart path) = ch :: rest) : isSlash ch = false := by
  unfold pathStart at front
  split at front
  next => exact pathSkip_starts front
  next relative =>
    rw [List.drop_zero] at front
    have other : ch ≠ slash := fun same => relative (by rw [front, same]; rfl)
    simpa [isSlash] using other

theorem pathStart_components (path : List (BitVec 8)) : components (path.drop (pathStart path)) = components path := by
  unfold pathStart
  split
  · rw [pathSkip_drop, List.drop_zero]
    exact tokens_skip isSlash path
  · rfl

theorem find_spec {fs : ProcessFs} {path : CString} (cached : Cached ops cache children)
    (known : startDentry fs path.bytes < cache.count)
    (inode : (cache.dentries (startDentry fs path.bytes)).inode = some dir)
    (static : ¬ Creates ops flags dir (components path.bytes)) :
    Walks ops cache flags dir (components path.bytes) (virtFsPathFind ops fs path flags mode cache) := by
  rw [find_start, ← pathStart_components]
  rw [← pathStart_components] at static
  exact walk_spec cached known inode path.ended (pathStart_le _) (by omega) (fun ch rest => pathStart_starts _) static

/-- The root directory of the process, and that of its mount, are entries with an inode. -/
structure Known (cache : Dcache ι) (fs : ProcessFs) : Prop where
  root : fs.root < cache.count ∧ (cache.dentries fs.root).inode.isSome
  mount : fs.mount.mount < cache.count ∧ (cache.dentries fs.mount.mount).inode.isSome

theorem Known.start {fs : ProcessFs} (known : Known cache fs) (path : List (BitVec 8)) :
    startDentry fs path < cache.count ∧ ∃ dir, (cache.dentries (startDentry fs path)).inode = some dir := by
  unfold startDentry
  split
  · exact ⟨known.mount.1, Option.isSome_iff_exists.mp known.mount.2⟩
  · exact ⟨known.root.1, Option.isSome_iff_exists.mp known.root.2⟩

structure PathCall where
  fs : ProcessFs
  path : CString
  flags : Nat
  mode : Nat

def pathStep (ops : ι → VfsInodeOp ι) (cache : Dcache ι) (call : PathCall) : Option (Dcache ι) :=
  (virtFsPathFind ops call.fs call.path call.flags call.mode cache).map fun (_, _, next) => next

/-- The file system stays as `lookup` gives it: the call creates no file. -/
structure Permitted (ops : ι → VfsInodeOp ι) (cache : Dcache ι) (call : PathCall) : Prop where
  known : Known cache call.fs
  static : ∀ dir ∈ (cache.dentries (startDentry call.fs call.path.bytes)).inode,
    ¬ Creates ops call.flags dir (components call.path.bytes)

instance (ops : ι → VfsInodeOp ι) (cache : Dcache ι) (call : PathCall) : Decidable (Permitted ops cache call) :=
  decidable_of_iff (((call.fs.root < cache.count ∧ (cache.dentries call.fs.root).inode.isSome) ∧
    (call.fs.mount.mount < cache.count ∧ (cache.dentries call.fs.mount.mount).inode.isSome)) ∧
    ∀ dir ∈ (cache.dentries (startDentry call.fs call.path.bytes)).inode,
      ¬ Creates ops call.flags dir (components call.path.bytes))
    ⟨fun ⟨⟨root, mount⟩, static⟩ => ⟨⟨root, mount⟩, static⟩,
      fun ⟨⟨root, mount⟩, static⟩ => ⟨⟨root, mount⟩, static⟩⟩

theorem pathStep_cached {call : PathCall} (cached : ∃ children, Cached ops cache children)
    (permitted : Permitted ops cache call) (stepped : pathStep ops cache call = some next) :
    ∃ children, Cached ops next children := by
  obtain ⟨children, cached⟩ := cached
  obtain ⟨known, dir, inode⟩ := permitted.known.start call.path.bytes
  have walks : Walks ops cache call.flags dir (components call.path.bytes)
      (virtFsPathFind ops call.fs call.path call.flags call.mode cache) :=
    find_spec cached known inode (permitted.static dir inode)
  rw [pathStep] at stepped
  rcases walks with ⟨_, undefined⟩ | ⟨_, _, _, children, ends, kept, _⟩
  · rw [undefined] at stepped
    cases stepped
  · rw [ends] at stepped
    cases stepped
    exact ⟨children, kept⟩

theorem mountRoot_cached (inode : ι) (links : Links DentryField) (dentries : Nat → VfsDentry ι) :
    Cached ops (virtFsMountRoot inode links dentries).2 fun _ => [] := by
  refine ⟨fun dentry bound => ?_, fun _ _ => rfl, by simp, by simp, by simp, by simp⟩
  have first : dentry = 0 := Nat.lt_one_iff.mp bound
  subst first
  exact Ring.nil_iff.mpr dlistHeadInit_alone

def answer : Option ι → Int × Option ι
  | some inode => (0, some inode)
  | none => (-eNoent, none)

def outcome (found : Option (Int × Nameidata × Dcache ι)) : Option (Int × Option ι) :=
  found.map fun (result, nameidata, next) =>
  (result, if result = 0 then (next.dentries nameidata.dentry).inode else none)

theorem find_outcome {fs : ProcessFs} {path : CString} (cached : Cached ops cache children) (known : Known cache fs)
    (plain : flags &&& oCreat = 0) (short : ∀ name ∈ components path.bytes, name.length < nameMax)
    (inode : (cache.dentries (startDentry fs path.bytes)).inode = some dir) :
    outcome (virtFsPathFind ops fs path flags mode cache) =
      some (answer (resolve ops dir (components path.bytes))) := by
  have static (names : List (List (BitVec 8))) : ∀ dir, ¬ Creates ops flags dir names := by
    induction names with
    | nil => exact fun _ creates => creates
    | cons name names ih =>
      intro dir creates
      rw [Creates] at creates
      split at creates
      next inode _ => exact ih inode creates
      next => exact creates.2 plain
  have walks : Walks ops cache flags dir (components path.bytes) (virtFsPathFind ops fs path flags mode cache) :=
    find_spec cached (known.start path.bytes).1 inode (static _ dir)
  rcases walks with ⟨⟨name, member, long⟩, _⟩ | ⟨result, nameidata, next, _, ends, _, _, yields⟩
  · exact absurd (short name member) (Nat.not_lt.mpr long)
  · have yields := yields plain
    rw [ends]
    unfold Yields at yields
    cases resolved : resolve ops dir (components path.bytes) with
    | none =>
      rw [resolved] at yields
      simp [outcome, answer, yields, eNoent]
    | some inode =>
      rw [resolved] at yields
      simp [outcome, answer, yields.1, yields.2]

/-- A slash is repeated, or one is added at the end. -/
inductive Respelled : List (BitVec 8) → List (BitVec 8) → Prop
  | doubled (front rest : List (BitVec 8)) : Respelled (front ++ slash :: rest) (front ++ slash :: slash :: rest)
  | trailing (path : List (BitVec 8)) : Respelled path (path ++ [slash])

theorem Respelled.components {path other : List (BitVec 8)} (respelled : Relation.ReflTransGen Respelled path other) :
    components other = components path ∧ (path ≠ [] → other ≠ [] ∧ other.head? = path.head?) := by
  induction respelled with
  | refl => exact ⟨rfl, fun some => ⟨some, rfl⟩⟩
  | tail _ last ih =>
    obtain ⟨same, starts⟩ := ih
    cases last with
    | doubled front rest =>
      refine ⟨(tokens_repeat rfl).trans same, fun some => ⟨by simp, (starts some).2 ▸ ?_⟩⟩
      cases front with
      | nil => rfl
      | cons ch front => rfl
    | trailing =>
      refine ⟨(tokens_trailing rfl).trans same, fun some => ⟨by simp, ?_⟩⟩
      rw [← (starts some).2, List.head?_append_of_ne_nil _ (starts some).1]

def emptied (cache : Dcache ι) : Dcache ι := { cache with links := ⟨id, id⟩ }

theorem emptied_cached (ops : ι → VfsInodeOp ι) (cache : Dcache ι) : Cached ops (emptied cache) fun _ => [] :=
  ⟨fun _ _ => Ring.nil_iff.mpr ⟨rfl, rfl⟩, fun _ _ => rfl, by simp, by simp, by simp, by simp⟩

/-- Whatever was looked up before, a path is looked up as the fold of `lookup`,
as with an empty cache and however its slashes are repeated. -/
theorem path_find_resolves {root : ι} {links : Links DentryField} {dentries : Nat → VfsDentry ι} {calls : List PathCall}
    {fs : ProcessFs} {path : CString}
    (ran : run (pathStep ops) (virtFsMountRoot root links dentries).2 calls = some cache)
    (permitted : Meets (pathStep ops) (Permitted ops) (virtFsMountRoot root links dentries).2 calls)
    (known : Known cache fs) (plain : flags &&& oCreat = 0)
    (short : ∀ name ∈ components path.bytes, name.length < nameMax) :
    (∃ dir, (cache.dentries (startDentry fs path.bytes)).inode = some dir ∧
      outcome (virtFsPathFind ops fs path flags mode cache) = some (answer (resolve ops dir (components path.bytes)))) ∧
    outcome (virtFsPathFind ops fs path flags mode (emptied cache)) =
      outcome (virtFsPathFind ops fs path flags mode cache) ∧
    (∀ other : CString, Relation.ReflTransGen Respelled path.bytes other.bytes →
      (path.bytes = [] → fs.root = fs.mount.mount) →
      outcome (virtFsPathFind ops fs other flags mode cache) = outcome (virtFsPathFind ops fs path flags mode cache)) ∧
    ∃ children, Cached ops cache children := by
  obtain ⟨children, cached⟩ := run_invariant (fun cache => ∃ children, Cached ops cache children)
    (fun _ _ _ cached permitted stepped => pathStep_cached cached permitted stepped)
    ⟨_, mountRoot_cached root links dentries⟩ permitted ran
  obtain ⟨dir, inode⟩ := (known.start path.bytes).2
  have result : outcome (virtFsPathFind ops fs path flags mode cache) =
      some (answer (resolve ops dir (components path.bytes))) := find_outcome cached known plain short inode
  refine ⟨⟨dir, inode, result⟩, ?_, fun other respelled same => ?_, children, cached⟩
  · rw [result]
    exact find_outcome (emptied_cached ops cache) ⟨known.root, known.mount⟩ plain short inode
  · obtain ⟨names, starts⟩ := Respelled.components respelled
    have start : startDentry fs other.bytes = startDentry fs path.bytes := by
      by_cases empty : path.bytes = []
      · simp [startDentry, same empty]
      · rw [startDentry, startDentry, (starts empty).2]
    rw [result, ← names]
    exact find_outcome cached known plain (names ▸ short) (start ▸ inode)

/-- The root is inode 2, with `bin` (11) and in it `sh` (12). -/
def exampleOps (dir : Nat) : VfsInodeOp Nat where
  lookup := if dir = 12 then none else some fun name =>
    if dir = 2 ∧ name = [98, 105, 110] then some 11
    else if dir = 11 ∧ name = [115, 104] then some 12 else none
  create := none

def exampleFs : ProcessFs := ⟨0, 0, 0⟩

def exampleCalls : List PathCall :=
  [⟨exampleFs, ⟨[47, 98, 105, 110, 47, 115, 104], by decide⟩, 2, 0⟩,
    ⟨exampleFs, ⟨[98, 105, 110, 47, 120], by decide⟩, 2, 0⟩]

def examplePath : CString := ⟨[47, 98, 105, 110, 47, 47, 115, 104, 47], by decide⟩

/-- `/bin/sh` and the missing `bin/x` are looked up, then `/bin//sh/`. -/
theorem path_find_resolves_example : ∃ cache,
    run (pathStep exampleOps) (virtFsMountRoot 2 ⟨id, id⟩ fun _ => ⟨[], none, none⟩).2 exampleCalls = some cache ∧
    outcome (virtFsPathFind exampleOps exampleFs examplePath 2 0 (emptied cache)) =
      outcome (virtFsPathFind exampleOps exampleFs examplePath 2 0 cache) ∧
    ∃ children, Cached exampleOps cache children := by
  have ends : (run (pathStep exampleOps) (virtFsMountRoot 2 ⟨id, id⟩ fun _ => ⟨[], none, none⟩).2 exampleCalls).map
      (fun cache => (decide (0 < cache.count), (cache.dentries 0).inode)) = some (true, some 2) := by decide +kernel
  obtain ⟨cache, ran, same⟩ := Option.map_eq_some_iff.mp ends
  simp only [Prod.mk.injEq, decide_eq_true_eq] at same
  have root : 0 < cache.count ∧ (cache.dentries 0).inode.isSome := ⟨same.1, by rw [same.2]; rfl⟩
  have known : Known cache exampleFs := ⟨root, root⟩
  have short : ∀ name ∈ components examplePath.bytes, name.length < nameMax := by decide +kernel
  obtain ⟨_, empty, _, cached⟩ : _ ∧ outcome (virtFsPathFind exampleOps exampleFs examplePath 2 0 (emptied cache)) = _ ∧ _ ∧ _ :=
    path_find_resolves ran (by decide +kernel) known (by decide) short
  exact ⟨cache, ran, empty, cached⟩

end YuzuOS.Proofs.PathCache
