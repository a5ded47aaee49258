import YuzuOS.Proofs.PathCache

/-! The buffer that `virt_fs_path_find` copies a component into. A component is copied
without a test of its length, so the walk stays inside the buffer as long as it comes
to shorter ones only. -/

namespace YuzuOS.Proofs.PathBuffer
open YuzuOS.Library YuzuOS.Kernel PathCache

variable {ι : Type u} {ops : ι → VfsInodeOp ι} {cache next : Dcache ι} {children : Nat → List Nat}
  {flags mode i : Nat} {inode : Option ι} {name path : List (BitVec 8)} {nameidata : Nameidata}
  {names : List (List (BitVec 8))} {entries : List Nat}

/-! ### A component in the buffer -/

theorem nameCopy_length (path : List (BitVec 8)) (j : Nat) :
    (virtFsNameCopy path j).length = (path.takeWhile fun ch => !decide (ch = slash)).length := by
  induction path generalizing j with
  | nil => rfl
  | cons ch path ih =>
    rw [virtFsNameCopy]
    by_cases separator : ch = slash
    · simp [separator]
    · simp [separator, ih]

theorem nameCopy_bytes (path : List (BitVec 8)) (j : Nat) :
    (virtFsNameCopy path j).map Prod.snd = path.takeWhile fun ch => !decide (ch = slash) := by
  induction path generalizing j with
  | nil => rfl
  | cons ch path ih =>
    rw [virtFsNameCopy]
    by_cases separator : ch = slash
    · simp [separator]
    · simp [separator, ih]

theorem nameCopy_places (path : List (BitVec 8)) (j : Nat) :
    (virtFsNameCopy path j).map Prod.fst = List.range' j (virtFsNameCopy path j).length := by
  induction path generalizing j with
  | nil => rfl
  | cons ch path ih =>
    rw [virtFsNameCopy]
    by_cases separator : ch = slash
    · simp [separator]
    · simp [separator, ih, List.range'_succ]

theorem nameByte_later {j place : Nat} (later : j ≤ place) (path : List (BitVec 8)) :
    virtFsNameByte (virtFsNameCopy path j) place = (((virtFsNameCopy path j).map Prod.snd)[place - j]?).getD 0 := by
  induction path generalizing j with
  | nil => rfl
  | cons ch path ih =>
    rw [virtFsNameCopy]
    by_cases separator : ch = slash
    · simp [separator, virtFsNameByte]
    rw [if_neg separator]
    rcases Nat.eq_or_lt_of_le later with rfl | behind
    · simp [virtFsNameByte]
    · have next := ih behind
      rw [virtFsNameByte] at next ⊢
      rw [List.find?_cons_of_neg (by simpa using behind.ne), next, List.map_cons, ← Nat.succ_pred_eq_of_pos (Nat.sub_pos_of_lt behind),
        List.getElem?_cons_succ]
      rfl

theorem nameByte_eq (path : List (BitVec 8)) (place : Nat) :
    virtFsNameByte (virtFsNameCopy path 0) place =
      ((path.takeWhile fun ch => !decide (ch = slash))[place]?).getD 0 := by
  rw [nameByte_later (Nat.zero_le _), nameCopy_bytes, Nat.sub_zero]

theorem copy_inside {bound : Nat} (short : (virtFsNameCopy path 0).length ≤ bound) :
    ∀ store ∈ virtFsNameCopy path 0, store.1 < bound := by
  intro store member
  have place : store.1 ∈ List.range' 0 (virtFsNameCopy path 0).length := nameCopy_places path 0 ▸ List.mem_map_of_mem member
  rw [List.mem_range'_1] at place
  omega

/-- The buffer holds a terminated string exactly when the component is shorter than it. -/
theorem copy_ended (ended : 0 ∉ path) :
    (∃ place < nameMax, virtFsNameByte (virtFsNameCopy path 0) place = 0) ↔
      (virtFsNameCopy path 0).length < nameMax := by
  rw [nameCopy_length]
  constructor
  · intro ⟨place, below, zero⟩
    by_contra long
    have within : place < (path.takeWhile fun ch => !decide (ch = slash)).length := below.trans_le (Nat.le_of_not_lt long)
    rw [nameByte_eq, List.getElem?_eq_getElem within, Option.getD_some] at zero
    exact ended ((List.takeWhile_sublist _).subset (zero ▸ List.getElem_mem within))
  · intro short
    refine ⟨_, short, ?_⟩
    rw [nameByte_eq, List.getElem?_eq_none le_rfl]
    rfl

/-! ### The walk -/

/-- A call returns, stores inside `name` only, compares terminated strings, and refuses a
component that `name` cannot hold. -/
structure Contained (copies : List (List (Nat × BitVec 8))) (outcome : Option (Int × Nameidata × Dcache ι)) : Prop where
  returns : ∃ result, outcome = some result
  inside : ∀ copy ∈ copies, ∀ store ∈ copy, store.1 < nameMax
  ended : ∀ copy ∈ copies, ∃ place < nameMax, virtFsNameByte copy place = 0
  refused : ∀ copy ∈ copies, nameMax ≤ copy.length → ∃ result, outcome = some result ∧ result.1 < 0

/-- From the entries and the inode of a directory on, every component that the walk comes to is
shorter than `name`, and no call goes through `NULL`. -/
def Fits (ops : ι → VfsInodeOp ι) (flags : Nat) (dentries : Nat → VfsDentry ι) (children : Nat → List Nat) :
    List Nat → Option ι → List (List (BitVec 8)) → Prop
  | _, _, [] => True
  | entries, inode, name :: names => name.length < nameMax ∧
    match entries.find? fun child => name = (dentries child).name with
    | some child => Fits ops flags dentries children (children child) (dentries child).inode names
    | none => match inode with
      | none => False
      | some dir => match (ops dir).lookup.bind (· name) with
        | some held => Fits ops flags dentries children [] (some held) names
        | none => names = [] → flags &&& oCreat ≠ 0 → (ops dir).create.isSome

theorem fits_cons {dentries : Nat → VfsDentry ι} : Fits ops flags dentries children entries inode (name :: names) =
    (name.length < nameMax ∧ match entries.find? fun child => name = (dentries child).name with
    | some child => Fits ops flags dentries children (children child) (dentries child).inode names
    | none => match inode with
      | none => False
      | some dir => match (ops dir).lookup.bind (· name) with
        | some held => Fits ops flags dentries children [] (some held) names
        | none => names = [] → flags &&& oCreat ≠ 0 → (ops dir).create.isSome) := rfl

theorem fits_fresh {dentries others : Nat → VfsDentry ι} {chosen : Nat → List Nat} :
    Fits ops flags dentries children [] inode names ↔ Fits ops flags others chosen [] inode names := by
  induction names generalizing inode with
  | nil => exact Iff.rfl
  | cons name names ih =>
    rw [fits_cons, fits_cons]
    refine and_congr_right fun _ => ?_
    simp only [List.find?_nil]
    cases inode with
    | none => exact Iff.rfl
    | some dir =>
      simp only
      cases (ops dir).lookup.bind (· name) with
      | none => exact Iff.rfl
      | some held => exact ih

def FitsFrom (ops : ι → VfsInodeOp ι) (flags : Nat) (cache : Dcache ι) (children : Nat → List Nat) (dentry : Nat)
    (names : List (List (BitVec 8))) : Prop :=
  Fits ops flags cache.dentries children (children dentry) (cache.dentries dentry).inode names

def Turns (ops : ι → VfsInodeOp ι) (flags : Nat) (fits : Prop) (names : List (List (BitVec 8)))
    (turn : Option ((Int × Nameidata × Dcache ι) ⊕ (Nameidata × Dcache ι))) : Prop :=
  match turn with
  | none => ¬fits
  | some (.inl (_, _, next)) => fits ∧ ∃ children, Chained next children
  | some (.inr (nameidata, next)) => ∃ children, Chained next children ∧ nameidata.dentry < next.count ∧
    (fits ↔ FitsFrom ops flags next children nameidata.dentry names)

theorem turn_fits (chained : Chained cache children) (known : nameidata.dentry < cache.count) (ended : 0 ∉ name)
    (short : name.length < nameMax) {last : Bool} (ends : last = true ↔ names = []) :
    Turns ops flags (FitsFrom ops flags cache children nameidata.dentry (name :: names)) names
      (virtFsTurn ops flags mode last name nameidata cache) := by
  unfold virtFsTurn FitsFrom
  rw [chained.find known ended, fits_cons, and_iff_right short]
  cases search : (children nameidata.dentry).find? fun child => name = (cache.dentries child).name with
  | some child =>
    have member := List.mem_of_find?_eq_some search
    dsimp only
    split
    next exclusive =>
      rw [ends.mp exclusive.1.1]
      exact ⟨trivial, children, chained⟩
    next => exact ⟨children, chained, (chained.below _ child member).1, Iff.rfl⟩
  | none =>
    have missing := search_miss search
    -- the turns behind a new entry
    have later (inode : Option ι) :
        ∃ next, Chained (extended cache name nameidata.dentry inode) next ∧
          cache.count < (extended cache name nameidata.dentry inode).count ∧
          (Fits ops flags cache.dentries children [] inode names ↔
            FitsFrom ops flags (extended cache name nameidata.dentry inode) next cache.count names) := by
      refine ⟨_, chained.extend known ended missing inode, Nat.lt_succ_self _, ?_⟩
      rw [FitsFrom, Function.update_of_ne known.ne', chained.outside _ le_rfl, extended_new]
      exact fits_fresh
    have kept : ((virtFsDentryAlloc name (some nameidata.dentry) cache).2.dentries nameidata.dentry).inode =
        (cache.dentries nameidata.dentry).inode := by rw [(alloc_grows _ _ cache).kept _ known]
    dsimp only
    rw [kept]
    cases (cache.dentries nameidata.dentry).inode with
    | none => exact not_false
    | some dir =>
      dsimp only
      cases looked : (ops dir).lookup.bind (· name) with
      | none =>
        dsimp only
        split
        next creates =>
          have empty := ends.mp creates.1
          subst empty
          cases created : (ops dir).create with
          | none => exact fun fits => Bool.noConfusion (fits rfl creates.2)
          | some create =>
            obtain ⟨next, grown, inside, -⟩ := later (create name mode)
            exact ⟨next, grown, inside, iff_of_true (fun _ _ => rfl) trivial⟩
        next stays => exact ⟨fun empty creates => absurd ⟨ends.mpr empty, creates⟩ stays, children, chained.alloc _ _⟩
      | some held =>
        dsimp only
        split
        next exclusive =>
          rw [ends.mp exclusive.1.1]
          exact ⟨trivial, children, chained.alloc _ _⟩
        next => exact later (some held)

theorem walk_turn {turns : Nat} (more : i < path.length) (short : (pathName path i).length < nameMax) :
    virtFsWalk ops path flags mode (turns + 1) i nameidata cache =
      (virtFsTurn ops flags mode (pathSkip path (i + (pathName path i).length) = path.length) (pathName path i) nameidata cache).bind
        fun turn => match turn with
          | .inl result => some result
          | .inr (nameidata, cache) =>
            virtFsWalk ops path flags mode turns (pathSkip path (i + (pathName path i).length)) nameidata cache := by
  rw [virtFsWalk, if_pos more]
  dsimp only
  rw [if_neg (Nat.not_le.mpr short), virtFsTurn]
  simp only [decide_eq_true_eq]
  split
  next => rfl
  next child _ =>
    split_ifs
    · rfl
    · rfl
  next =>
    split
    next => rfl
    next dir _ =>
      split
      next =>
        split_ifs
        · split
          next => rfl
          next => rfl
        · rfl
      next =>
        split_ifs
        · rfl
        · rfl

theorem copies_turn {turns : Nat} (more : i < path.length) (short : (pathName path i).length < nameMax) :
    virtFsWalkCopies ops path flags mode (turns + 1) i nameidata cache = virtFsNameCopy (path.drop i) 0 ::
      match virtFsTurn ops flags mode (pathSkip path (i + (pathName path i).length) = path.length) (pathName path i) nameidata cache with
      | some (.inr (nameidata, cache)) =>
        virtFsWalkCopies ops path flags mode turns (pathSkip path (i + (pathName path i).length)) nameidata cache
      | _ => [] := by
  have length : (virtFsNameCopy (path.drop i) 0).length = (pathName path i).length := nameCopy_length _ 0
  have bytes : (virtFsNameCopy (path.drop i) 0).map Prod.snd = pathName path i := nameCopy_bytes _ 0
  rw [virtFsWalkCopies, if_pos more]
  dsimp only
  rw [bytes, length, if_neg (Nat.not_le.mpr short)]
  generalize virtFsTurn ops flags mode _ (pathName path i) nameidata cache = turn
  match turn with
  | none => rfl
  | some (.inl result) => rfl
  | some (.inr (nameidata, cache)) => rfl

theorem not_contained_none {copies : List (List (Nat × BitVec 8))} :
    ¬Contained copies (none : Option (Int × Nameidata × Dcache ι)) := by
  intro ⟨⟨result, returned⟩, _, _, _⟩
  cases returned

theorem contained_nil (result : Int × Nameidata × Dcache ι) : Contained [] (some result) :=
  ⟨⟨result, rfl⟩, nofun, nofun, nofun⟩

theorem contained_cons {copies : List (List (Nat × BitVec 8))} {outcome : Option (Int × Nameidata × Dcache ι)}
    (ended : 0 ∉ path) (short : (virtFsNameCopy path 0).length < nameMax) :
    Contained (virtFsNameCopy path 0 :: copies) outcome ↔ Contained copies outcome := by
  constructor
  · intro ⟨returns, inside, ends, refused⟩
    exact ⟨returns, fun copy member => inside copy (List.mem_cons_of_mem _ member),
      fun copy member => ends copy (List.mem_cons_of_mem _ member), fun copy member => refused copy (List.mem_cons_of_mem _ member)⟩
  · intro ⟨returns, inside, ends, refused⟩
    exact ⟨returns, List.forall_mem_cons.mpr ⟨copy_inside short.le, inside⟩,
      List.forall_mem_cons.mpr ⟨(copy_ended ended).mpr short, ends⟩,
      List.forall_mem_cons.mpr ⟨fun long => absurd short (Nat.not_lt.mpr long), refused⟩⟩

theorem walk_contained {turns : Nat} (chained : Chained cache children) (known : nameidata.dentry < cache.count)
    (ended : 0 ∉ path) (inside : i ≤ path.length) (enough : path.length - i < turns)
    (starts : ∀ ch rest, path.drop i = ch :: rest → isSlash ch = false) :
    (Contained (virtFsWalkCopies ops path flags mode turns i nameidata cache)
        (virtFsWalk ops path flags mode turns i nameidata cache) ↔
      FitsFrom ops flags cache children nameidata.dentry (components (path.drop i))) ∧
    ∀ result, virtFsWalk ops path flags mode turns i nameidata cache = some result →
      ∃ children, Chained result.2.2 children := by
  induction turns generalizing i nameidata cache children with
  | zero => exact absurd enough (Nat.not_lt_zero _)
  | succ turns ih =>
    by_cases more : i < path.length
    case neg =>
      have empty : components (path.drop i) = [] := by
        rw [List.drop_eq_nil_of_le (Nat.le_of_not_lt more)]
        exact tokens_nil
      rw [virtFsWalk, virtFsWalkCopies, if_neg more, if_neg more, empty]
      refine ⟨iff_of_true (contained_nil _) trivial, fun result returned => ?_⟩
      obtain rfl := Option.some.inj returned
      exact ⟨children, chained⟩
    case pos =>
      obtain ⟨j, behind, turn, advanced, within, next_starts⟩ := walk_next more starts
      have ended' : 0 ∉ path.drop i := fun member => ended ((List.drop_sublist _ _).subset member)
      have length : (virtFsNameCopy (path.drop i) 0).length = (pathName path i).length := nameCopy_length _ 0
      rw [turn]
      by_cases short : (pathName path i).length < nameMax
      case neg =>
        rw [virtFsWalk, if_pos more]
        dsimp only
        rw [if_pos (Nat.le_of_not_lt short)]
        exact ⟨iff_of_false not_contained_none fun fits => short fits.1,
          fun result returned => absurd returned.symm (Option.some_ne_none result)⟩
      case pos =>
        rw [walk_turn more short, copies_turn more short, contained_cons ended' (length ▸ short), behind]
        have last : decide (j = path.length) = true ↔ components (path.drop j) = [] := by
          rw [decide_eq_true_eq, components_end within next_starts]
        have turn : Turns ops flags (FitsFrom ops flags cache children nameidata.dentry (pathName path i :: components (path.drop j)))
            (components (path.drop j)) (virtFsTurn ops flags mode (decide (j = path.length)) (pathName path i) nameidata cache) :=
          turn_fits chained known (pathName_ended ended) short last
        revert turn
        generalize virtFsTurn ops flags mode (decide (j = path.length)) (pathName path i) nameidata cache = outcome
        intro turn
        cases outcome with
        | none =>
          exact ⟨iff_of_false not_contained_none turn,
            fun result returned => absurd returned.symm (Option.some_ne_none result)⟩
        | some outcome =>
          cases outcome with
          | inl result =>
            obtain ⟨reaches, next⟩ := turn
            refine ⟨iff_of_true (contained_nil _) reaches, fun other returned => ?_⟩
            obtain rfl := Option.some.inj returned
            exact next
          | inr onward =>
            obtain ⟨nameidata, cache⟩ := onward
            obtain ⟨next, chained, known, same⟩ := turn
            rw [same]
            exact ih chained known within (by omega) next_starts

theorem find_contained {fs : ProcessFs} {path : CString} (chained : Chained cache children)
    (known : startDentry fs path.bytes < cache.count) :
    (Contained (virtFsPathCopies ops fs path flags mode cache) (virtFsPathFind ops fs path flags mode cache) ↔
      FitsFrom ops flags cache children (startDentry fs path.bytes) (components path.bytes)) ∧
    ∀ result, virtFsPathFind ops fs path flags mode cache = some result → ∃ children, Chained result.2.2 children := by
  have copies : virtFsPathCopies ops fs path flags mode cache = virtFsWalkCopies ops path.bytes flags mode (path.bytes.length + 1)
      (pathStart path.bytes) ⟨startDentry fs path.bytes, fs.mount⟩ cache := by
    unfold virtFsPathCopies pathStart startDentry
    split
    · rfl
    · rfl
  rw [find_start, copies, ← pathStart_components]
  exact walk_contained chained known path.ended (pathStart_le _) (by omega) fun ch rest => pathStart_starts _

def Started (cache : Dcache ι) (call : PathCall) : Prop := startDentry call.fs call.path.bytes < cache.count

instance (cache : Dcache ι) (call : PathCall) : Decidable (Started cache call) := inferInstanceAs (Decidable (_ < _))

theorem pathStep_chained {call : PathCall} (chained : ∃ children, Chained cache children) (started : Started cache call)
    (stepped : pathStep ops cache call = some next) : ∃ children, Chained next children := by
  obtain ⟨children, chained⟩ := chained
  obtain ⟨result, returned, rfl⟩ := Option.map_eq_some_iff.mp stepped
  exact (find_contained chained started).2 result returned

/-- In every cache that calls leave, the calls that stay inside the buffer are those that come
to components shorter than it. -/
theorem path_find_contained_iff {root : ι} {links : Links DentryField} {dentries : Nat → VfsDentry ι}
    {calls : List PathCall} (ran : run (pathStep ops) (virtFsMountRoot root links dentries).2 calls = some cache)
    (started : Meets (pathStep ops) Started (virtFsMountRoot root links dentries).2 calls) :
    ∃ children, Chained cache children ∧ ∀ (fs : ProcessFs) (path : CString) (flags mode : Nat),
      startDentry fs path.bytes < cache.count →
      (Contained (virtFsPathCopies ops fs path flags mode cache) (virtFsPathFind ops fs path flags mode cache) ↔
        FitsFrom ops flags cache children (startDentry fs path.bytes) (components path.bytes)) := by
  have mounted : Cached ops (virtFsMountRoot root links dentries).2 fun _ => [] := mountRoot_cached root links dentries
  obtain ⟨children, chained⟩ := run_invariant (fun cache => ∃ children, Chained cache children)
    (fun _ _ _ chained started stepped => pathStep_chained chained started stepped) ⟨_, mounted.chained⟩ started ran
  exact ⟨children, chained, fun fs path flags mode known => (find_contained chained known).1⟩

def exampleCopies : List (List (Nat × BitVec 8)) := [[(0, 98), (1, 105), (2, 110)], [(0, 115), (1, 104)]]

theorem exampleCopies_contained {outcome : Option (Int × Nameidata × Dcache Nat)} (returns : outcome.isSome) :
    Contained exampleCopies outcome where
  returns := Option.isSome_iff_exists.mp returns
  inside := by decide
  ended := List.forall_mem_cons.mpr ⟨⟨3, by decide, by decide⟩, List.forall_mem_singleton.mpr ⟨2, by decide, by decide⟩⟩
  refused := by
    have short : ∀ copy ∈ exampleCopies, ¬nameMax ≤ copy.length := by decide
    exact fun copy member long => absurd long (short copy member)

/-- `/bin/sh` and the missing `bin/x` are looked up before `/bin//sh/`. -/
theorem path_find_contained_example : ∃ cache children,
    run (pathStep exampleOps) (virtFsMountRoot 2 ⟨id, id⟩ fun _ => ⟨[], none, none⟩).2 exampleCalls = some cache ∧
    Contained (virtFsPathCopies exampleOps exampleFs examplePath 2 0 cache)
      (virtFsPathFind exampleOps exampleFs examplePath 2 0 cache) ∧
      FitsFrom exampleOps 2 cache children 0 (components examplePath.bytes) := by
  have ends : (run (pathStep exampleOps) (virtFsMountRoot 2 ⟨id, id⟩ fun _ => ⟨[], none, none⟩).2 exampleCalls).map
      (fun cache => (decide (0 < cache.count), (virtFsPathFind exampleOps exampleFs examplePath 2 0 cache).isSome,
        virtFsPathCopies exampleOps exampleFs examplePath 2 0 cache)) = some (true, true, exampleCopies) := by
    decide +kernel
  obtain ⟨cache, ran, found⟩ := Option.map_eq_some_iff.mp ends
  simp only [Prod.mk.injEq] at found
  obtain ⟨known, returns, copies⟩ := found
  obtain ⟨children, -, same⟩ : ∃ children, Chained cache children ∧ _ := path_find_contained_iff ran (by decide +kernel)
  have contained := exampleCopies_contained returns
  rw [← copies] at contained
  exact ⟨cache, children, ran, contained,
    (same exampleFs examplePath 2 0 (decide_eq_true_eq.mp known)).mp contained⟩

def longPath : CString := ⟨List.replicate 257 97, by decide +kernel⟩

/-- The last byte of a component of 257 bytes is stored behind the buffer, in the first call. -/
theorem path_find_overflows :
    (∃ copy ∈ virtFsPathCopies exampleOps exampleFs longPath 0 0 (virtFsMountRoot 2 ⟨id, id⟩ fun _ => ⟨[], none, none⟩).2,
      ((256 : Nat), (97 : BitVec 8)) ∈ copy) ∧
    ¬Contained (virtFsPathCopies exampleOps exampleFs longPath 0 0 (virtFsMountRoot 2 ⟨id, id⟩ fun _ => ⟨[], none, none⟩).2)
      (virtFsPathFind exampleOps exampleFs longPath 0 0 (virtFsMountRoot 2 ⟨id, id⟩ fun _ => ⟨[], none, none⟩).2) := by
  have stored : ∃ copy ∈ virtFsPathCopies exampleOps exampleFs longPath 0 0 (virtFsMountRoot 2 ⟨id, id⟩ fun _ => ⟨[], none, none⟩).2,
      ((256 : Nat), (97 : BitVec 8)) ∈ copy := by decide +kernel
  refine ⟨stored, fun contained => ?_⟩
  obtain ⟨copy, member, store⟩ := stored
  exact Nat.lt_irrefl _ (contained.inside copy member _ store)

end YuzuOS.Proofs.PathBuffer
