import YuzuOS.Libc.Environ
import YuzuOS.Proofs.IniKinds

/-! Which variables `getenv` finds. Every character of an entry is compared with one and the
same character of the name, the one at the index of the entry in the environment. -/

namespace YuzuOS.Proofs.Getenv
open YuzuOS.Library YuzuOS.Libc YuzuOS.Core YuzuOS.Proofs.IniLines YuzuOS.Proofs.IniReading YuzuOS.Proofs.IniKinds

inductive EnvEntry
  | hole
  | setting (pointer : Nat) (name value : List (BitVec 8))
  deriving DecidableEq

def EnvEntry.pointer : EnvEntry → Nat
  | .hole => envHole
  | .setting pointer _ _ => pointer

def EnvEntry.Stands (memory : Memory) : EnvEntry → Prop
  | .hole => True
  | .setting pointer name value =>
    pointer ≠ 0 ∧ pointer ≠ envHole ∧ Terminated memory pointer (name ++ 0x3D :: value) ∧ 0x3D ∉ name

/-- An array of entries that is terminated within the address space. -/
structure Environ (memory : Memory) (environ : Nat) (entries : List EnvEntry) : Prop where
  array : environ ≠ 0
  words : memory.Words environ (entries.map EnvEntry.pointer ++ [0])
  stands : ∀ entry ∈ entries, entry.Stands memory
  fits : environ + 4 * (entries.length + 1) ≤ 2 ^ 32

/-- The value of the first entry with a name, a null pointer without one. -/
def lookup (name : List (BitVec 8)) : List EnvEntry → Nat
  | [] => 0
  | .hole :: rest => lookup name rest
  | .setting pointer text _ :: rest => if text = name then pointer + text.length + 1 else lookup name rest

/-- Within the array, the name and the entries, the terminators included. -/
def Inside (environ name : Nat) (text : List (BitVec 8)) (entries : List EnvEntry) : EnvPlace → Prop
  | .environ place => ∃ i ≤ entries.length, place = environ + 4 * i
  | .name place => name ≤ place ∧ place ≤ name + text.length
  | .entry env place =>
    ∃ text value, .setting env text value ∈ entries ∧ env ≤ place ∧ place ≤ env + (text ++ 0x3D :: value).length

/-- The name of an entry is made of the character of `name` that the index of the entry picks. -/
def Stops (name : List (BitVec 8)) (i : Nat) (text : List (BitVec 8)) : Prop := ∀ c ∈ text, name[i]? = some c

instance (name : List (BitVec 8)) (i : Nat) (text : List (BitVec 8)) : Decidable (Stops name i text) :=
  inferInstanceAs (Decidable (∀ c ∈ text, name[i]? = some c))

def Unset (name : List (BitVec 8)) (entries : List EnvEntry) : Prop :=
  ∀ pointer text value, EnvEntry.setting pointer text value ∈ entries → text ≠ name

/-- The first entry that stops the search is the one looked for, or shorter than the name and there is none;
the entries before it have other names and indices that are within the name. -/
def Served (name : List (BitVec 8)) : Nat → List EnvEntry → Prop
  | _, [] => True
  | i, .hole :: rest => Served name (i + 1) rest
  | i, .setting _ text _ :: rest =>
    if Stops name i text then text = name ∨ text.length < name.length ∧ Unset name rest
    else i ≤ name.length ∧ text ≠ name ∧ Served name (i + 1) rest

variable {memory : Memory} {environ name env i j turns : Nat} {text rest value : List (BitVec 8)}
  {entries all : List EnvEntry}

theorem lookup_zero : lookup text entries = 0 ↔ Unset text entries := by
  induction entries with
  | nil => simp [lookup, Unset]
  | cons entry rest ih =>
    cases entry with
    | hole => simpa [lookup, Unset] using ih
    | setting pointer named value =>
      by_cases same : named = text
      · rw [lookup, if_pos same]
        refine iff_of_false (Nat.succ_ne_zero _) fun unset => ?_
        exact unset pointer named value List.mem_cons_self same
      · rw [lookup, if_neg same, ih]
        constructor
        · intro unset pointer other value member
          cases List.mem_cons.mp member with
          | inl here =>
            rw [(EnvEntry.setting.inj here).2.1]
            exact same
          | inr later => exact unset pointer other value later
        · intro unset pointer other value member
          exact unset pointer other value (List.mem_cons_of_mem _ member)

theorem lookup_found (found : lookup text entries ≠ 0) :
    ∃ pointer value, EnvEntry.setting pointer text value ∈ entries ∧
      lookup text entries = pointer + text.length + 1 := by
  induction entries with
  | nil => exact absurd rfl found
  | cons entry rest ih =>
    cases entry with
    | hole =>
      obtain ⟨pointer, value, member, same⟩ := ih found
      exact ⟨pointer, value, List.mem_cons_of_mem _ member, same⟩
    | setting pointer named value =>
      by_cases same : named = text
      · refine ⟨pointer, value, ?_, ?_⟩
        · rw [same]
          exact List.mem_cons_self
        · rw [lookup, if_pos same, same]
      · rw [lookup, if_neg same] at found ⊢
        obtain ⟨pointer, value, member, found⟩ := ih found
        exact ⟨pointer, value, List.mem_cons_of_mem _ member, found⟩

theorem entry_compared (name i : Nat) (holds : memory.Holds (env + j) (rest ++ 0x3D :: value)) (nonzero : 0 ∉ rest)
    (named : 0x3D ∉ rest) (enough : rest.length < turns) :
    getenvEntry memory name env i turns j =
      if ∀ c ∈ rest, memory (name + i) = c then
        some (some (if memory (name + (j + rest.length)) = 0 then env + (j + rest.length) + 1 else 0))
      else some none := by
  obtain ⟨turns, rfl⟩ := Nat.exists_eq_succ_of_ne_zero (Nat.ne_of_gt (Nat.zero_lt_of_lt enough))
  induction rest generalizing j turns with
  | nil =>
    have here : memory (env + j) = 0x3D := holds.1
    simp [getenvEntry, here]
  | cons c rest ih =>
    simp only [List.mem_cons, not_or] at nonzero named
    have here : memory (env + j) = c := holds.1
    simp only [getenvEntry, here, if_neg (Ne.symm nonzero.1), if_neg (Ne.symm named.1), List.forall_mem_cons, List.length_cons]
    by_cases same : memory (name + i) = c
    · obtain ⟨turns, rfl⟩ := Nat.exists_eq_succ_of_ne_zero (Nat.ne_of_gt (Nat.zero_lt_of_lt (Nat.lt_of_succ_lt_succ enough)))
      have later := ih (j := j + 1) holds.2 nonzero.2 named.2 turns (Nat.lt_of_succ_lt_succ enough)
      have place : j + (rest.length + 1) = j + 1 + rest.length := by omega
      simp only [same, ne_eq, not_true_eq_false, if_false, true_and, place]
      rw [later, same]
    · have other : c ≠ memory (name + i) := Ne.symm same
      rw [if_pos other, if_neg fun all => same all.1]

theorem entry_places {P : EnvPlace → Prop} (name i : Nat) (holds : memory.Holds (env + j) (rest ++ 0x3D :: value))
    (nonzero : 0 ∉ rest) (named : 0x3D ∉ rest) (enough : rest.length < turns)
    (own : ∀ k ≤ rest.length, P (.entry env (env + j + k))) :
    (∀ place ∈ getenvEntryPlaces memory name env i turns j, P place) ↔
      (rest ≠ [] → P (.name (name + i))) ∧
        ((∀ c ∈ rest, memory (name + i) = c) → P (.name (name + (j + rest.length)))) := by
  obtain ⟨turns, rfl⟩ := Nat.exists_eq_succ_of_ne_zero (Nat.ne_of_gt (Nat.zero_lt_of_lt enough))
  have first : P (.entry env (env + j)) := own 0 (Nat.zero_le _)
  induction rest generalizing j turns with
  | nil =>
    have here : memory (env + j) = 0x3D := holds.1
    simp [getenvEntryPlaces, here, first]
  | cons c rest ih =>
    simp only [List.mem_cons, not_or] at nonzero named
    have here : memory (env + j) = c := holds.1
    simp only [getenvEntryPlaces, here, if_neg (Ne.symm nonzero.1), if_neg (Ne.symm named.1), List.forall_mem_cons,
      List.length_cons, first, true_and, ne_eq, reduceCtorEq, not_false_eq_true, true_implies]
    by_cases same : memory (name + i) = c
    · obtain ⟨turns, rfl⟩ := Nat.exists_eq_succ_of_ne_zero (Nat.ne_of_gt (Nat.zero_lt_of_lt (Nat.lt_of_succ_lt_succ enough)))
      have shifted (k : Nat) (bound : k ≤ rest.length) : P (.entry env (env + (j + 1) + k)) := by
        have place : env + (j + 1) + k = env + j + (k + 1) := by omega
        rw [place]
        exact own (k + 1) (Nat.succ_le_succ bound)
      have later := ih (j := j + 1) holds.2 nonzero.2 named.2 shifted turns (Nat.lt_of_succ_lt_succ enough) (shifted 0 (Nat.zero_le _))
      have place : j + (rest.length + 1) = j + 1 + rest.length := by omega
      rw [if_neg (not_not.mpr same.symm), place]
      constructor
      · intro read
        exact ⟨read.1, fun all => (later.mp read.2).2 all.2⟩
      · intro read
        exact ⟨read.1, later.mpr ⟨fun _ => read.1, fun all => read.2 ⟨same, all⟩⟩⟩
    · have other : c ≠ memory (name + i) := Ne.symm same
      rw [if_pos other]
      constructor
      · intro read
        exact ⟨read.1, fun all => absurd all.1 same⟩
      · intro read
        exact ⟨read.1, nofun⟩

variable {pointer : Nat} {named : List (BitVec 8)} {result : Nat}

theorem stops_iff (terminated : Terminated memory name text) (nonzero : 0 ∉ named)
    (inside : named ≠ [] → i ≤ text.length) :
    (∀ c ∈ named, memory (name + i) = c) ↔ Stops text i named := by
  refine forall_congr' fun c => forall_congr' fun member => ?_
  rw [← List.head?_drop]
  exact terminated_head terminated (inside (List.ne_nil_of_mem member)) (ne_of_mem_of_not_mem member nonzero)

theorem stands_name (stands : (EnvEntry.setting pointer named value).Stands memory) :
    memory.Holds pointer (named ++ 0x3D :: (value ++ [0])) ∧ 0 ∉ named ∧ 0x3D ∉ named ∧ named.length < 2 ^ 32 := by
  obtain ⟨-, -, string, plain⟩ := stands
  have holds := string.holds
  have short := string.fits
  rw [List.append_assoc] at holds
  rw [List.length_append] at short
  exact ⟨holds, fun member => string.nonzero (List.mem_append_left _ member), plain, by omega⟩

theorem setting_compared (terminated : Terminated memory name text)
    (stands : (EnvEntry.setting pointer named value).Stands memory) (inside : named ≠ [] → i ≤ text.length) :
    getenvEntry memory name pointer i (2 ^ 32) 0 =
      if Stops text i named then some (some (if memory (name + named.length) = 0 then pointer + named.length + 1 else 0))
      else some none := by
  obtain ⟨holds, nonzero, plain, enough⟩ := stands_name stands
  have compared := entry_compared name i (j := 0) holds nonzero plain enough
  simp only [Nat.zero_add, stops_iff terminated nonzero inside] at compared
  exact compared

theorem setting_places (environ i : Nat) (terminated : Terminated memory name text)
    (stands : (EnvEntry.setting pointer named value).Stands memory) (member : .setting pointer named value ∈ all) :
    (∀ place ∈ getenvEntryPlaces memory name pointer i (2 ^ 32) 0, Inside environ name text all place) ↔
      (named ≠ [] → i ≤ text.length) ∧ (Stops text i named → named.length ≤ text.length) := by
  obtain ⟨holds, nonzero, plain, enough⟩ := stands_name stands
  have own (k : Nat) (bound : k ≤ named.length) : Inside environ name text all (.entry pointer (pointer + 0 + k)) := by
    refine ⟨named, value, member, by omega, ?_⟩
    rw [List.length_append]
    omega
  have character (k : Nat) : Inside environ name text all (.name (name + k)) ↔ k ≤ text.length :=
    ⟨fun inside => Nat.le_of_add_le_add_left inside.2, fun bound => ⟨Nat.le_add_right _ _, Nat.add_le_add_left bound _⟩⟩
  have read := entry_places name i (j := 0) holds nonzero plain enough own
  simp only [Nat.zero_add, character] at read
  rw [read]
  refine and_congr_right fun inside => ?_
  rw [stops_iff terminated nonzero inside]

theorem name_of_pointer {other more : List (BitVec 8)} (first : (EnvEntry.setting pointer named value).Stands memory)
    (second : (EnvEntry.setting pointer other more).Stands memory) : named = other := by
  have texts := Option.some.inj (first.2.2.1.stringAt.symm.trans second.2.2.1.stringAt)
  have front {name : List (BitVec 8)} (value : List (BitVec 8)) (plain : 0x3D ∉ name) :
      (name ++ 0x3D :: value).takeWhile (· ≠ 0x3D) = name := by
    rw [List.takeWhile_append_of_pos fun c member => decide_eq_true (ne_of_mem_of_not_mem member plain)]
    simp
  rw [← front value first.2.2.2, texts, front more second.2.2.2]

/-- The character behind the name of an entry ends the name looked for if and only if the lengths are the same. -/
theorem name_ended (terminated : Terminated memory name text) (short : named.length ≤ text.length) :
    memory (name + named.length) = 0 ↔ named.length = text.length := by
  rcases Nat.lt_or_eq_of_le short with shorter | same
  · rw [terminated.get shorter]
    refine iff_of_false (fun zero => ?_) (Nat.ne_of_lt shorter)
    exact terminated.nonzero (zero ▸ List.getElem_mem shorter)
  · rw [same]
    exact iff_of_true terminated.stop rfl

theorem not_hole (stands : (EnvEntry.setting pointer named value).Stands memory) : pointer ≠ envHole := stands.2.1

theorem hole_turn (word : memory.load32 (environ + 4 * i) = envHole) (left : Nat) :
    getenvLoop memory name environ (left + 1) i = getenvLoop memory name environ left (i + 1) ∧
      getenvLoopPlaces memory name environ (left + 1) i =
        .environ (environ + 4 * i) :: getenvLoopPlaces memory name environ left (i + 1) := by
  simp only [getenvLoop, getenvLoopPlaces, word, if_true, and_self]

theorem setting_turn (terminated : Terminated memory name text)
    (stands : (EnvEntry.setting pointer named value).Stands memory) (word : memory.load32 (environ + 4 * i) = pointer)
    (inside : named ≠ [] → i ≤ text.length) (left : Nat) :
    getenvLoop memory name environ (left + 1) i =
        (if Stops text i named then some (if memory (name + named.length) = 0 then pointer + named.length + 1 else 0)
        else getenvLoop memory name environ left (i + 1)) ∧
      getenvLoopPlaces memory name environ (left + 1) i =
        .environ (environ + 4 * i) :: (getenvEntryPlaces memory name pointer i (2 ^ 32) 0 ++
          if Stops text i named then [] else getenvLoopPlaces memory name environ left (i + 1)) := by
  have compared := setting_compared terminated stands inside
  simp only [getenvLoop, getenvLoopPlaces, word, if_neg (not_hole stands), compared]
  by_cases stops : Stops text i named
  · simp [stops]
  · simp [stops]

theorem setting_inside (terminated : Terminated memory name text)
    (stands : (EnvEntry.setting pointer named value).Stands memory) (word : memory.load32 (environ + 4 * i) = pointer)
    (member : .setting pointer named value ∈ all) (within : i ≤ all.length) (left : Nat) :
    (∀ place ∈ getenvLoopPlaces memory name environ (left + 1) i, Inside environ name text all place) ↔
      ((named ≠ [] → i ≤ text.length) ∧ (Stops text i named → named.length ≤ text.length)) ∧
        (¬Stops text i named → ∀ place ∈ getenvLoopPlaces memory name environ left (i + 1), Inside environ name text all place) := by
  have entry : Inside environ name text all (.environ (environ + 4 * i)) := ⟨i, within, rfl⟩
  have own := setting_places environ i terminated stands member
  by_cases inside : named ≠ [] → i ≤ text.length
  · rw [(setting_turn terminated stands word inside left).2, List.forall_mem_cons, List.forall_mem_append, own]
    by_cases stops : Stops text i named
    · simp [stops, entry]
    · simp [stops, entry]
  · refine iff_of_false (fun read => ?_) fun read => inside read.1.1
    simp only [getenvLoopPlaces, word, if_neg (not_hole stands), List.forall_mem_cons, List.forall_mem_append] at read
    exact inside (own.mp read.2.1).1

theorem hole_inside (word : memory.load32 (environ + 4 * i) = envHole) (within : i ≤ all.length) (left : Nat) :
    (∀ place ∈ getenvLoopPlaces memory name environ (left + 1) i, Inside environ name text all place) ↔
      ∀ place ∈ getenvLoopPlaces memory name environ left (i + 1), Inside environ name text all place := by
  have entry : Inside environ name text all (.environ (environ + 4 * i)) := ⟨i, within, rfl⟩
  rw [(hole_turn word left).2, List.forall_mem_cons]
  exact and_iff_right entry

/-- The name looked for stops the search at the earlier indices too. -/
theorem stops_earlier {index : Nat} (stops : Stops text index text) (earlier : i ≤ index) : Stops text i text := by
  intro c member
  obtain ⟨bound, -⟩ := List.getElem?_eq_some_iff.mp (stops c member)
  have here : i < text.length := Nat.lt_of_le_of_lt earlier bound
  have same := (stops text[i] (List.getElem_mem here)).symm.trans (stops c member)
  rw [List.getElem?_eq_getElem here]
  exact same

/-- A search that reads inside finds nothing but the value of an entry that stops it. -/
theorem search_found (terminated : Terminated memory name text) (stands : ∀ entry ∈ entries, entry.Stands memory)
    (words : memory.Words (environ + 4 * i) (entries.map EnvEntry.pointer ++ [0]))
    (members : ∀ entry ∈ entries, entry ∈ all) (within : i + entries.length ≤ all.length)
    (inside : ∀ place ∈ getenvLoopPlaces memory name environ entries.length i, Inside environ name text all place)
    (ran : getenvLoop memory name environ entries.length i = some result) (positive : result ≠ 0) :
    ∃ index pointer named value, i ≤ index ∧ EnvEntry.setting pointer named value ∈ entries ∧ Stops text index named ∧
      result = pointer + text.length + 1 := by
  induction entries generalizing i with
  | nil => exact absurd (Option.some.inj ran).symm positive
  | cons entry rest ih =>
    rw [List.length_cons] at within inside ran
    have here := stands entry List.mem_cons_self
    have word := words.1
    have later := ih (i := i + 1) (fun entry member => stands entry (List.mem_cons_of_mem _ member)) words.2
      (fun entry member => members entry (List.mem_cons_of_mem _ member)) (by omega)
    cases entry with
    | hole =>
      rw [hole_inside word (by omega)] at inside
      rw [(hole_turn word rest.length).1] at ran
      obtain ⟨index, pointer, named, value, behind, member, found⟩ := later inside ran
      exact ⟨index, pointer, named, value, Nat.le_of_succ_le behind, List.mem_cons_of_mem _ member, found⟩
    | setting pointer named value =>
      rw [setting_inside terminated here word (members _ List.mem_cons_self) (by omega)] at inside
      rw [(setting_turn terminated here word inside.1.1 rest.length).1] at ran
      by_cases stops : Stops text i named
      · rw [if_pos stops] at ran
        have ended := name_ended terminated (inside.1.2 stops)
        by_cases same : named.length = text.length
        · rw [if_pos (ended.mpr same)] at ran
          refine ⟨i, pointer, named, value, le_rfl, List.mem_cons_self, stops, ?_⟩
          rw [← Option.some.inj ran, same]
        · rw [if_neg fun zero => same (ended.mp zero)] at ran
          exact absurd (Option.some.inj ran).symm positive
      · rw [if_neg stops] at ran
        obtain ⟨index, pointer, named, value, behind, member, found⟩ := later (inside.2 stops) ran
        exact ⟨index, pointer, named, value, Nat.le_of_succ_le behind, List.mem_cons_of_mem _ member, found⟩

theorem stopped_iff (here : (EnvEntry.setting pointer named value).Stands memory)
    (behind : ∀ entry ∈ entries, entry.Stands memory) (short : named.length ≤ text.length) :
    (if named.length = text.length then pointer + named.length + 1 else 0) = lookup text (.setting pointer named value :: entries) ↔
      named = text ∨ named.length < text.length ∧ Unset text entries := by
  rw [lookup]
  by_cases same : named = text
  · rw [if_pos same, if_pos (congrArg List.length same)]
    exact iff_of_true rfl (.inl same)
  · rw [if_neg same]
    rcases Nat.lt_or_eq_of_le short with shorter | lengths
    · rw [if_neg (Nat.ne_of_lt shorter), eq_comm, lookup_zero]
      simp [same, shorter]
    · rw [if_pos lengths]
      refine iff_of_false (fun found => ?_) ?_
      · have positive : lookup text entries ≠ 0 := found ▸ Nat.succ_ne_zero _
        obtain ⟨other, more, member, place⟩ := lookup_found positive
        have pointers : other = pointer := by omega
        subst pointers
        exact same (name_of_pointer here (behind _ member))
      · intro right
        cases right with
        | inl equal => exact same equal
        | inr unset => exact Nat.ne_of_lt unset.1 lengths

theorem passed_name (terminated : Terminated memory name text)
    (here : (EnvEntry.setting pointer named value).Stands memory) (behind : ∀ entry ∈ entries, entry.Stands memory)
    (words : memory.Words (environ + 4 * (i + 1)) (entries.map EnvEntry.pointer ++ [0]))
    (members : ∀ entry ∈ entries, entry ∈ all) (within : i + 1 + entries.length ≤ all.length)
    (inside : ∀ place ∈ getenvLoopPlaces memory name environ entries.length (i + 1), Inside environ name text all place)
    (passes : ¬Stops text i named)
    (ran : getenvLoop memory name environ entries.length (i + 1) = some (lookup text (.setting pointer named value :: entries))) :
    named ≠ text := by
  intro same
  rw [lookup, if_pos same] at ran
  obtain ⟨index, other, known, more, after, member, ends, found⟩ :=
    search_found terminated behind words members within inside ran (Nat.succ_ne_zero _)
  have pointers : other = pointer := by
    rw [same] at found
    omega
  subst pointers
  have names := name_of_pointer here (behind _ member)
  rw [← names, same] at ends
  have earlier := stops_earlier ends (Nat.le_of_succ_le after)
  exact passes (by rw [same]; exact earlier)

theorem search_iff (terminated : Terminated memory name text) (stands : ∀ entry ∈ entries, entry.Stands memory)
    (words : memory.Words (environ + 4 * i) (entries.map EnvEntry.pointer ++ [0]))
    (members : ∀ entry ∈ entries, entry ∈ all) (within : i + entries.length ≤ all.length) :
    (getenvLoop memory name environ entries.length i = some (lookup text entries) ∧
      ∀ place ∈ getenvLoopPlaces memory name environ entries.length i, Inside environ name text all place) ↔
      Served text i entries := by
  induction entries generalizing i with
  | nil => exact iff_of_true ⟨rfl, nofun⟩ trivial
  | cons entry rest ih =>
    rw [List.length_cons] at within ⊢
    have here := stands entry List.mem_cons_self
    have word := words.1
    have behind : ∀ entry ∈ rest, entry.Stands memory := fun entry member => stands entry (List.mem_cons_of_mem _ member)
    have members' : ∀ entry ∈ rest, entry ∈ all := fun entry member => members entry (List.mem_cons_of_mem _ member)
    have later := ih (i := i + 1) behind words.2 members' (by omega)
    cases entry with
    | hole =>
      rw [hole_inside word (by omega), (hole_turn word rest.length).1]
      exact later
    | setting pointer named value =>
      rw [setting_inside terminated here word (members _ List.mem_cons_self) (by omega)]
      by_cases stops : Stops text i named
      · have first (nonempty : named ≠ []) : i ≤ text.length := by
          obtain ⟨c, member⟩ := List.exists_mem_of_ne_nil named nonempty
          exact (List.getElem?_eq_some_iff.mp (stops c member)).1.le
        have turn := (setting_turn terminated here word first rest.length).1
        rw [Served, if_pos stops, turn, if_pos stops]
        constructor
        · intro served
          have short := served.2.1.2 stops
          have returned := Option.some.inj served.1
          simp only [name_ended terminated short] at returned
          exact (stopped_iff here behind short).mp returned
        · intro right
          have short : named.length ≤ text.length := by
            cases right with
            | inl same => rw [same]
            | inr shorter => exact shorter.1.le
          refine ⟨?_, ⟨first, fun _ => short⟩, fun goesOn => absurd stops goesOn⟩
          simp only [name_ended terminated short]
          exact congrArg some ((stopped_iff here behind short).mpr right)
      · rw [Served, if_neg stops, ← later]
        have nonempty : named ≠ [] := fun empty => stops (empty ▸ nofun)
        constructor
        · intro served
          have first := served.2.1.1 nonempty
          have rests := served.2.2 stops
          have ran := served.1
          rw [(setting_turn terminated here word served.2.1.1 rest.length).1, if_neg stops] at ran
          have other := passed_name terminated here behind words.2 members' (by omega) rests stops ran
          rw [lookup, if_neg other] at ran
          exact ⟨first, other, ran, rests⟩
        · intro right
          obtain ⟨first, other, ran, rests⟩ := right
          rw [(setting_turn terminated here word (fun _ => first) rest.length).1, if_neg stops, lookup, if_neg other]
          exact ⟨ran, ⟨fun _ => first, fun ends => absurd ends stops⟩, fun _ => rests⟩

theorem arrayEnd_eq {words : List Nat} {a : Nat} (holds : memory.Words a (words ++ [0])) (nonzero : 0 ∉ words)
    (enough : words.length < turns) :
    pointersArrayEnd memory turns a = some (a + 4 * words.length) ∧
      ∀ place ∈ pointersArrayPlaces memory turns a, ∃ k ≤ words.length, place = .environ (a + 4 * k) := by
  obtain ⟨turns, rfl⟩ := Nat.exists_eq_succ_of_ne_zero (Nat.ne_of_gt (Nat.zero_lt_of_lt enough))
  induction words generalizing a turns with
  | nil =>
    have stop : memory.load32 a = 0 := holds.1
    simp [pointersArrayEnd, pointersArrayPlaces, stop]
  | cons word words ih =>
    simp only [List.mem_cons, not_or] at nonzero
    have here : memory.load32 a ≠ 0 := fun zero => nonzero.1 (zero.symm.trans holds.1)
    obtain ⟨turns, rfl⟩ := Nat.exists_eq_succ_of_ne_zero (Nat.ne_of_gt (Nat.zero_lt_of_lt (Nat.lt_of_succ_lt_succ enough)))
    obtain ⟨ran, places⟩ := ih holds.2 nonzero.2 turns (Nat.lt_of_succ_lt_succ enough)
    rw [pointersArrayEnd, pointersArrayPlaces, if_pos here, if_pos here, ran]
    refine ⟨congrArg some (by rw [List.length_cons]; omega), List.forall_mem_cons.mpr ⟨⟨0, Nat.zero_le _, rfl⟩, ?_⟩⟩
    intro place member
    obtain ⟨k, bound, found⟩ := places place member
    refine ⟨k + 1, Nat.succ_le_succ bound, ?_⟩
    rw [found]
    exact congrArg EnvPlace.environ (by omega)

theorem Environ.counted (whole : Environ memory environ all) (name : Nat) (text : List (BitVec 8)) :
    pointersArrayCount memory environ = some all.length ∧
      ∀ place ∈ pointersArrayPlaces memory (2 ^ 32) environ, Inside environ name text all place := by
  have nonzero : 0 ∉ all.map EnvEntry.pointer := by
    intro member
    obtain ⟨entry, member, zero⟩ := List.mem_map.mp member
    cases entry with
    | hole => exact absurd zero (by decide)
    | setting pointer named value => exact (whole.stands _ member).1 zero
  have fits := whole.fits
  have small : (all.map EnvEntry.pointer).length < 2 ^ 32 := by
    rw [List.length_map]
    omega
  obtain ⟨ran, places⟩ := arrayEnd_eq whole.words nonzero small
  rw [List.length_map] at ran places
  refine ⟨?_, ?_⟩
  · rw [pointersArrayCount, if_neg whole.array, ran, Option.map_some, Nat.add_sub_cancel_left, Nat.mul_div_cancel_left _ (by decide)]
  · intro place member
    obtain ⟨k, bound, found⟩ := places place member
    rw [found]
    exact ⟨k, bound, rfl⟩

theorem name_checked (environ : Nat) (all : List EnvEntry) (terminated : Terminated memory name text)
    (array : name ≠ 0) (plain : 0x3D ∉ text) :
    envnameIsValid memory name = some true ∧
      ∀ place ∈ envnameIsValidPlaces memory name, Inside environ name text all place := by
  refine ⟨?_, ?_⟩
  · rw [envnameIsValid, if_neg array, terminated.strlen, Option.map_some, Option.some.injEq, List.all_eq_true]
    intro i member
    rw [terminated.get (List.mem_range.mp member), decide_eq_true_eq]
    exact ne_of_mem_of_not_mem (List.getElem_mem _) plain
  · rw [envnameIsValidPlaces, terminated.strlen, Option.elim_some, List.forall_mem_append, List.forall_mem_map, List.forall_mem_map]
    refine ⟨fun place member => strlenPlaces_terminated terminated member, fun i member => ?_⟩
    have bound := List.mem_range.mp member
    exact ⟨Nat.le_add_right _ _, by omega⟩

/-- `getenv` returns the value of the first entry with the name and reads only inside if and only if the first
entry that stops its search is that entry, or too short and there is none. -/
theorem getenv_serves_iff (whole : Environ memory environ all) (array : name ≠ 0)
    (terminated : Terminated memory name text) (plain : 0x3D ∉ text) :
    (getenv memory environ name = some (lookup text all) ∧
      ∀ place ∈ getenvPlaces memory environ name, Inside environ name text all place) ↔ Served text 0 all := by
  obtain ⟨valid, checked⟩ := name_checked environ all terminated array plain
  obtain ⟨count, counted⟩ := whole.counted name text
  have words : memory.Words (environ + 4 * 0) (all.map EnvEntry.pointer ++ [0]) := whole.words
  have searched := search_iff terminated whole.stands words (fun entry member => member) (Nat.le_of_eq (Nat.zero_add _))
  rw [← searched, getenv, getenvPlaces, valid, count, if_pos rfl, if_neg whole.array, Option.elim_some,
    List.forall_mem_append, List.forall_mem_append]
  simp only [Option.bind_some, if_true]
  constructor
  · intro served
    exact ⟨served.1, served.2.2.2⟩
  · intro served
    exact ⟨served.1, checked, counted, served.2⟩

/-- A name at 16, an array with one entry at 64 and the entry at 128. -/
def exampleEnviron (name entry : List (BitVec 8)) : Memory := fun place =>
  if place < 64 then name.getD (place - 16) 0
  else if place < 128 then if place = 64 then 128 else 0
  else entry.getD (place - 128) 0

theorem exampleEnviron_name {string : List (BitVec 8)} (nonzero : 0 ∉ text) (short : text.length < 48) :
    Terminated (exampleEnviron text string) 16 text := by
  have front (i : Nat) (bound : i < 48) : exampleEnviron text string (16 + i) = text.getD i 0 := by
    have inside : 16 + i < 64 := by omega
    rw [exampleEnviron, if_pos inside, Nat.add_sub_cancel_left]
  refine ⟨Memory.holds_append.mpr ⟨Memory.holds_of_get fun i bound => ?_, ?_, trivial⟩, nonzero, by omega⟩
  · rw [front i (by omega)]
    exact (List.getElem_eq_getD 0).symm
  · rw [front _ short]
    simp

theorem exampleEnviron_environ (text named value : List (BitVec 8)) (plain : 0x3D ∉ named)
    (nonzero : 0 ∉ named ++ 0x3D :: value) (short : (named ++ 0x3D :: value).length < 2 ^ 32) :
    Environ (exampleEnviron text (named ++ 0x3D :: value)) 64 [.setting 128 named value] := by
  have back (i : Nat) : exampleEnviron text (named ++ 0x3D :: value) (128 + i) = (named ++ 0x3D :: value).getD i 0 := by
    have first : ¬128 + i < 64 := by omega
    have second : ¬128 + i < 128 := by omega
    rw [exampleEnviron, if_neg first, if_neg second, Nat.add_sub_cancel_left]
  have string : Terminated (exampleEnviron text (named ++ 0x3D :: value)) 128 (named ++ 0x3D :: value) := by
    refine ⟨Memory.holds_append.mpr ⟨Memory.holds_of_get fun i bound => ?_, ?_, trivial⟩, nonzero, short⟩
    · rw [back i]
      exact (List.getElem_eq_getD 0).symm
    · rw [back]
      simp
  refine ⟨by decide, ⟨?_, ?_, trivial⟩, fun entry member => ?_, ?_⟩
  · rfl
  · rfl
  · rw [List.mem_singleton.mp member]
    exact ⟨by decide, by decide, string, plain⟩
  · rw [List.length_singleton]
    decide

/-- A name of one letter. -/
theorem getenv_serves_iff_example : getenv (exampleEnviron [0x41] [0x41, 0x3D, 0x78]) 64 16 = some 130 ∧
    ∀ place ∈ getenvPlaces (exampleEnviron [0x41] [0x41, 0x3D, 0x78]) 64 16,
      Inside 64 16 [0x41] [.setting 128 [0x41] [0x78]] place :=
  (getenv_serves_iff (exampleEnviron_environ _ [0x41] [0x78] (by decide) (by decide) (by decide)) (by decide)
    (exampleEnviron_name (by decide) (by decide)) (by decide)).mpr (by rw [Served, if_pos (by decide)]; exact .inl rfl)

/-- `PATH=/bin` is not found: its second letter is compared with the first one of the name. -/
theorem getenv_misses_path :
    ¬∀ (memory : Memory) (environ name : Nat) (text : List (BitVec 8)) (entries : List EnvEntry),
    Environ memory environ entries → name ≠ 0 → Terminated memory name text → text ≠ [] → 0x3D ∉ text →
    getenv memory environ name = some (lookup text entries) := by
  intro right
  have terminated : Terminated (exampleEnviron [0x50, 0x41, 0x54, 0x48] ([0x50, 0x41, 0x54, 0x48] ++ 0x3D :: [0x2F, 0x62, 0x69, 0x6E])) 16
      [0x50, 0x41, 0x54, 0x48] := exampleEnviron_name (by decide) (by decide)
  have whole : Environ (exampleEnviron [0x50, 0x41, 0x54, 0x48] ([0x50, 0x41, 0x54, 0x48] ++ 0x3D :: [0x2F, 0x62, 0x69, 0x6E])) 64
      [.setting 128 [0x50, 0x41, 0x54, 0x48] [0x2F, 0x62, 0x69, 0x6E]] :=
    exampleEnviron_environ _ _ _ (by decide) (by decide) (by decide)
  have found := right _ 64 16 _ _ whole (by decide) terminated (by decide) (by decide)
  have valid := (name_checked 64 [] terminated (by decide) (by decide)).1
  have count := (whole.counted 16 []).1
  have word : (exampleEnviron [0x50, 0x41, 0x54, 0x48] ([0x50, 0x41, 0x54, 0x48] ++ 0x3D :: [0x2F, 0x62, 0x69, 0x6E])).load32
      (64 + 4 * 0) = 128 := whole.words.1
  have turn := (setting_turn terminated (whole.stands _ List.mem_cons_self) word (fun _ => Nat.zero_le _) 0).1
  rw [getenv, valid, Option.bind_some, if_pos rfl, count, Option.bind_some] at found
  have missed := turn.symm.trans found
  rw [if_neg (by decide)] at missed
  exact absurd missed (by decide)

end YuzuOS.Proofs.Getenv
