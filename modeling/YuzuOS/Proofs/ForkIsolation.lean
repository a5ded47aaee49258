import YuzuOS.Proofs.ForkDirectory

/-! The parent and the child do not see what the other stores, in any order of their stores. -/

namespace YuzuOS.Proofs.ForkIsolation
open YuzuOS.Library YuzuOS.Kernel YuzuOS.Proofs.PageTables YuzuOS.Proofs.ScratchPages YuzuOS.Proofs.ForkPages
open YuzuOS.Proofs.ForkDirectory

/-- A process stores a word in the user half. Its directory is installed. -/
def userStore (space : Directories) (action : Nat × Nat × BitVec 32) : Option Directories :=
  if action.2.1 < kernelVirtAddr then { space with active := action.1 }.store action.2.1 action.2.2 else none

def userLoad (dir virtual : Nat) (space : Directories) : Option (BitVec 32) := { space with active := dir }.load virtual

/-- No user page of one directory has the frame of a user page or a table of the other, or of a table of its own. -/
structure Apart (first second : Nat) (space : Directories) : Prop where
  pages : ∀ one < kernelVirtAddr, ∀ other < kernelVirtAddr, ∀ frame, space.translate first one = some frame →
    space.translate second other ≠ some frame
  tables : ∀ dir, dir = first ∨ dir = second → ∀ whose, whose = first ∨ whose = second → ∀ iDir : Fin 768,
    pageIsEnabled (space.dirs whose iDir) = true → ∀ virtual < kernelVirtAddr,
      space.translate dir virtual ≠ some (frameNumber (space.dirs whose iDir))

structure Still (first second : Nat) (start space : Directories) : Prop where
  dirs : space.dirs = start.dirs
  tables : ∀ whose, whose = first ∨ whose = second → ∀ iDir : Fin 768, pageIsEnabled (start.dirs whose iDir) = true →
    space.words (frameNumber (start.dirs whose iDir)) = start.words (frameNumber (start.dirs whose iDir))

/-- Two runs agree on the pages of a process. -/
structure Agree (own first second : Nat) (start one other : Directories) : Prop where
  left : Still first second start one
  right : Still first second start other
  pages : ∀ virtual < kernelVirtAddr, ∀ frame, start.translate own virtual = some frame → other.words frame =
    one.words frame

variable {first second own dir virtual : Nat} {start space one other after : Directories} {word : BitVec 32}

theorem Still.translate (still : Still first second start space) (member : dir = first ∨ dir = second)
    (user : virtual < kernelVirtAddr) : space.translate dir virtual = start.translate dir virtual := by
  have low : pageDirIndex virtual < 1023 := (user_index user).trans (by decide)
  rw [translate_below low, translate_below low, still.dirs]
  by_cases enabled : pageIsEnabled (start.dirs dir (pageDirIndex virtual)) = true
  · rw [if_pos enabled, if_pos enabled, still.tables dir member ⟨pageDirIndex virtual, user_index user⟩ enabled]
  · rw [if_neg enabled, if_neg enabled]

theorem store_cases (still : Still first second start space) (member : dir = first ∨ dir = second)
    (stored : userStore space (dir, virtual, word) = some after) :
    virtual < kernelVirtAddr ∧ ∃ frame, start.translate dir virtual = some frame ∧
      after = { space with active := dir }.setWord frame (virtual / 4 % 1024) word := by
  rw [userStore] at stored
  split at stored
  next user =>
    obtain ⟨frame, found, same⟩ := Option.map_eq_some_iff.mp stored
    exact ⟨user, frame, (still.translate member user).symm.trans found, same.symm⟩
  next => cases stored

theorem Still.store (apart : Apart first second start) (still : Still first second start space)
    (member : dir = first ∨ dir = second) (stored : userStore space (dir, virtual, word) = some after) :
    Still first second start after := by
  obtain ⟨user, frame, found, same⟩ := store_cases still member stored
  refine ⟨by rw [same]; exact still.dirs, fun whose part iDir enabled => ?_⟩
  have different : frameNumber (start.dirs whose iDir) ≠ frame := fun here =>
    apart.tables dir member whose part iDir enabled virtual user (found.trans (congrArg some here.symm))
  rw [same]
  exact (Function.update_of_ne different _ _).trans (still.tables whose part iDir enabled)

theorem Agree.ownStore (apart : Apart first second start) (member : own = first ∨ own = second)
    (agree : Agree own first second start one other) (stored : userStore one (own, virtual, word) = some after) :
    ∃ last, userStore other (own, virtual, word) = some last ∧ Agree own first second start after last := by
  obtain ⟨user, frame, found, same⟩ := store_cases agree.left member stored
  have again : userStore other (own, virtual, word) =
    some ({ other with active := own }.setWord frame (virtual / 4 % 1024) word) := by
    refine (if_pos user).trans (Option.map_eq_some_iff.mpr ⟨frame, ?_, rfl⟩)
    exact (agree.right.translate member user).trans found
  refine ⟨_, again, agree.left.store apart member stored, agree.right.store apart member again,
    fun address low page here => ?_⟩
  rw [same]
  simp only [Directories.setWord, agree.pages virtual user frame found]
  by_cases written : page = frame
  · rw [written, Function.update_self, Function.update_self]
  · rw [Function.update_of_ne written, Function.update_of_ne written]
    exact agree.pages address low page here

theorem Agree.otherStore (apart : Apart first second start) (member : own = first ∨ own = second)
    (part : dir = first ∨ dir = second)
    (different : dir ≠ own) (agree : Agree own first second start one other)
    (stored : userStore one (dir, virtual, word) = some after) : Agree own first second start after other := by
  obtain ⟨user, frame, found, same⟩ := store_cases agree.left part stored
  refine ⟨agree.left.store apart part stored, agree.right, fun address low page here => ?_⟩
  have elsewhere : page ≠ frame := by
    intro shared
    rw [shared] at here
    cases member with
    | inl isFirst =>
      have isSecond : dir = second := part.resolve_left fun dirFirst => different (dirFirst.trans isFirst.symm)
      exact apart.pages address low virtual user frame (isFirst ▸ here) (isSecond ▸ found)
    | inr isSecond =>
      have isFirst : dir = first := part.resolve_right fun dirSecond => different (dirSecond.trans isSecond.symm)
      exact apart.pages virtual user address low frame (isFirst ▸ found) (isSecond ▸ here)
  rw [same]
  exact (agree.pages address low page here).trans (Function.update_of_ne elsewhere _ _).symm

theorem Agree.load (member : own = first ∨ own = second) (agree : Agree own first second start one other)
    (user : virtual < kernelVirtAddr) : userLoad own virtual other = userLoad own virtual one := by
  have left : Directories.translate own virtual { one with active := own } = start.translate own virtual :=
    agree.left.translate member user
  have right : Directories.translate own virtual { other with active := own } = start.translate own virtual :=
    agree.right.translate member user
  rw [userLoad, userLoad, Directories.load, Directories.load, left, right]
  cases found : start.translate own virtual with
  | none => rfl
  | some frame => simp only [Option.map_some, agree.pages virtual user frame found]

theorem forked_apart {held : Nat → Prop} {created : Directories} (forks : Forks held space created)
    (forked : Forked held space created after)
    (plain : ∀ virtual < kernelVirtAddr, ∀ iDir : Fin 768, pageIsEnabled (space.entry iDir) = true →
      space.translate space.active virtual ≠ some (frameNumber (space.entry iDir))) :
    Apart space.active space.count after := by
  have old {virtual frame : Nat} (user : virtual < kernelVirtAddr)
    (found : after.translate space.active virtual = some frame) :
      held frame := user_held forks user ((forked.mappings virtual user).symm.trans found)
  have new {virtual frame : Nat} (user : virtual < kernelVirtAddr)
    (found : after.translate space.count virtual = some frame) :
      ¬held frame := by
    have there := forked.present virtual user
    rw [found] at there
    obtain ⟨source, mapped⟩ := Option.isSome_iff_exists.mp there.symm
    exact (forked.copies virtual user source frame mapped found).1
  refine ⟨fun one low two lower frame here there => new lower there (old low here), ?_⟩
  intro dir part whose owned iDir enabled virtual user here
  cases owned with
  | inl parent =>
    rw [parent, forked.entries iDir iDir.isLt] at enabled here
    have holds := forks.tables iDir enabled
    cases part with
    | inl isParent =>
      rw [isParent, forked.mappings virtual user] at here
      exact plain virtual user iDir enabled here
    | inr isChild => exact new user (isChild ▸ here) holds
  | inr child =>
    rw [child] at enabled here
    obtain ⟨unheld, elsewhere⟩ := forked.tables iDir enabled
    cases part with
    | inl isParent => exact unheld (old user (isParent ▸ here))
    | inr isChild => exact elsewhere virtual user (isChild ▸ here)

/-- Whatever the parent and the child store after a fork, in any order, each reads what it would read
if the other had stored nothing. -/
theorem fork_isolates {held : Nat → Prop} {created : Directories} {heap : HeapAnswers}
    (forks : Forks held space created)
    (ran : run dirStep space heap.virtMmAddrCreate = some created)
    (plain : ∀ virtual < kernelVirtAddr, ∀ iDir : Fin 768, pageIsEnabled (space.entry iDir) = true →
      space.translate space.active virtual ≠ some (frameNumber (space.entry iDir))) :
    ∃ after, run dirStep space heap.virtMmForkDir = some after ∧
      ∀ stores : List (Nat × Nat × BitVec 32), (∀ action ∈ stores, action.1 = space.active ∨ action.1 = space.count) →
        ∀ final, run userStore after stores = some final → ∀ own, own = space.active ∨ own = space.count →
          ∃ alone, run userStore after (stores.filter fun action => action.1 = own) = some alone ∧
            ∀ virtual < kernelVirtAddr, userLoad own virtual alone = userLoad own virtual final := by
  obtain ⟨after, done, forked⟩ := forkDir_forked forks ran
  have apart := forked_apart forks forked plain
  refine ⟨after, done, fun stores every final stored own member => ?_⟩
  have still : Still space.active space.count after after := ⟨rfl, fun _ _ _ _ => rfl⟩
  have mine : ∀ one other action next, (action.1 = space.active ∨ action.1 = space.count) →
      decide (action.1 = own) = true →
      Agree own space.active space.count after one other → userStore one action = some next →
      ∃ last, userStore other action = some last ∧ Agree own space.active space.count after next last := by
    intro one other action next _ whose agree stepped
    obtain ⟨dir, virtual, word⟩ := action
    obtain rfl : dir = own := of_decide_eq_true whose
    exact agree.ownStore apart member stepped
  have foreign : ∀ one other action next, (action.1 = space.active ∨ action.1 = space.count) →
      decide (action.1 = own) = false →
      Agree own space.active space.count after one other → userStore one action = some next →
      Agree own space.active space.count after next other := by
    intro one other action next part whose agree stepped
    exact agree.otherStore apart member part (of_decide_eq_false whose) stepped
  obtain ⟨alone, filtered, agree⟩ := run_filter (Agree own space.active space.count after) mine foreign
    ⟨still, still, fun _ _ _ _ => rfl⟩ every stored
  exact ⟨alone, filtered, fun virtual user => agree.load member user⟩

/-- Each of the two stores to the page that was copied. -/
theorem fork_isolates_example : ∃ after, run dirStep parentSpace freeHeap.virtMmForkDir = some after ∧
    ∀ final, run userStore after [(1, 0x5004, 7), (2, 0x5004, 9)] = some final →
      ∃ alone, run userStore after [(2, 0x5004, 9)] = some alone ∧
        ∀ virtual < kernelVirtAddr, userLoad 2 virtual alone = userLoad 2 virtual final := by
  obtain ⟨made, creates⟩ := parent_creates
  have user : ∀ iDir : Fin 768, pageIsEnabled (parentSpace.entry iDir) = true → iDir = 0 := by decide +kernel
  have pages : ∀ iTbl < 1024, lookup (parentSpace.words 3 iTbl) ≠ some 3 := by decide +kernel
  obtain ⟨after, done, isolated⟩ := fork_isolates (parent_forks made) creates fun virtual low iDir enabled shared => by
    rw [user iDir enabled, translate_below ((user_index low).trans (by decide))] at shared
    split at shared
    next here =>
      have first := user ⟨pageDirIndex virtual, user_index low⟩ here
      have index : pageDirIndex virtual = 0 := Fin.val_eq_of_eq first
      rw [index] at shared
      exact pages _ (Nat.mod_lt _ (by decide)) shared
    next => cases shared
  exact ⟨after, done, fun final stored => isolated _ (by decide) final stored 2 (by decide)⟩

end YuzuOS.Proofs.ForkIsolation
