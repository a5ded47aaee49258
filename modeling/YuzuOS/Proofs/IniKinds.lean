import YuzuOS.Proofs.IniReading

/-! What `ini_parse` takes a line for, as a function of its text, and what one turn on the
line buffer does. -/

namespace YuzuOS.Proofs.IniKinds
open YuzuOS.Library YuzuOS.Libc YuzuOS.Core YuzuOS.Proofs.IniLines YuzuOS.Proofs.IniStrip YuzuOS.Proofs.IniReading

inductive LineKind
  | skipped
  | continuation
  | heading
  | malformed
  | item (name : List (BitVec 8))
  deriving DecidableEq

/-- The kind of a text whose white space at the start has been passed. -/
def lineKind (named indented : Bool) : List (BitVec 8) → LineKind
  | [] => .skipped
  | first :: rest =>
    if first ∈ iniStartComment then .skipped
    else if named ∧ indented then .continuation
    else if first = 0x5B then
      if (rest.drop (passed (iniSeeks (some [0x5D])) false rest).length).head? = some 0x5D then .heading else .malformed
    else
      let name := passed (iniSeeks (some [0x3D, 0x3A])) false (first :: rest)
      let stop := ((first :: rest).drop name.length).head?
      if stop = some 0x3D ∨ stop = some 0x3A then .item name else .malformed

/-- The mark at the start of the first line. -/
def lineMark : List (BitVec 8) := [0xEF, 0xBB, 0xBF]

def lineLead (first : Bool) (text : List (BitVec 8)) : List (BitVec 8) :=
  if first ∧ lineMark <+: text then lineMark else []

def lineBody (first : Bool) (text : List (BitVec 8)) : List (BitVec 8) := text.drop (lineLead first text).length

def lineIndent (first : Bool) (text : List (BitVec 8)) : List (BitVec 8) :=
  lineLead first text ++ (stripText (lineBody first text)).takeWhile isspace

def lineContent (first : Bool) (text : List (BitVec 8)) : List (BitVec 8) :=
  (stripText (lineBody first text)).dropWhile isspace

def codeKind (first named : Bool) (text : List (BitVec 8)) : LineKind :=
  lineKind named (lineIndent first text ≠ []) (lineContent first text)

/-- Whether a name is known behind the line. -/
def LineKind.named (known : Bool) : LineKind → Bool
  | .heading => false
  | .item name => stripText name ≠ []
  | _ => known

/-- A line is handed to the handler. -/
def LineKind.calls : LineKind → Bool
  | .continuation => true
  | .item _ => true
  | _ => false

/-- What a line is meant to be: nothing but white space is stripped. -/
def meantKind (first named : Bool) (text : List (BitVec 8)) : LineKind :=
  let body := lineBody first text
  lineKind named (lineLead first text ++ body.takeWhile isspace ≠ []) (body.dropWhile isspace)

/-- Whether a key is meant to be known behind the line. -/
def LineKind.keyed (known : Bool) : LineKind → Bool
  | .heading => false
  | .item name => name ≠ []
  | _ => known

def lineInside (first named : Bool) (text : List (BitVec 8)) : Bool :=
  staysInside (lineLead first text).reverse (lineBody first text).reverse &&
    match codeKind first named text with
    | .item name => staysInside (lineIndent first text).reverse name.reverse
    | _ => true

variable {memory : Memory} {line : Nat} {text : List (BitVec 8)} {first named : Bool}

theorem lead_body (first : Bool) (text : List (BitVec 8)) : lineLead first text ++ lineBody first text = text := by
  unfold lineBody lineLead
  split
  next marked =>
    obtain ⟨rest, rfl⟩ := marked.2
    rw [List.drop_left]
  next => rfl

theorem indent_content (first : Bool) (text : List (BitVec 8)) :
    lineIndent first text ++ lineContent first text = lineLead first text ++ stripText (lineBody first text) := by
  rw [lineIndent, lineContent, List.append_assoc, List.takeWhile_append_dropWhile]

theorem lineLead_eq (terminated : Terminated memory line text) (count : Nat) :
    (if count = 1 ∧ memory line = 0xEF ∧ memory (line + 1) = 0xBB ∧ memory (line + 2) = 0xBF then line + 3 else line) =
      line + (lineLead (count = 1) text).length := by
  have marked : memory line = 0xEF ∧ memory (line + 1) = 0xBB ∧ memory (line + 2) = 0xBF ↔ lineMark <+: text := by
    rcases text with - | ⟨a, - | ⟨b, - | ⟨c, rest⟩⟩⟩
    · have zero : memory line = 0 := terminated.holds.1
      simp [zero, lineMark]
    · have here : memory (line + 1) = 0 := terminated.holds.2.1
      simp [here, lineMark]
    · have here : memory (line + 2) = 0 := terminated.holds.2.2.1
      simp [here, lineMark]
    · obtain ⟨rfl, rfl, rfl, -⟩ := terminated.holds
      simp [lineMark, List.cons_prefix_cons, eq_comm]
  unfold lineLead
  by_cases mark : decide (count = 1) = true ∧ lineMark <+: text
  · rw [if_pos mark, if_pos ⟨of_decide_eq_true mark.1, marked.mpr mark.2⟩]
    rfl
  · rw [if_neg mark, if_neg fun found => mark ⟨decide_eq_true found.1, marked.mp found.2⟩]
    rfl

structure LineRead (memory : Memory) (line : Nat) (first : Bool) (text : List (BitVec 8)) (after : Memory) : Prop where
  strips : iniStrip (line + (lineLead first text).length) memory = some after
  skips : iniSkip after (line + (lineLead first text).length) = some (line + (lineIndent first text).length)
  holds : after.Holds line (lineIndent first text ++ lineContent first text ++ [0])
  nonzero : 0 ∉ lineContent first text
  shorter : (lineIndent first text).length + (lineContent first text).length ≤ text.length
  stripBelow : ∀ place ∈ iniStripAllPlaces (line + (lineLead first text).length) memory, place ≤ line + text.length
  stripInside : (∀ place ∈ iniStripAllPlaces (line + (lineLead first text).length) memory, line ≤ place) ↔
    staysInside (lineLead first text).reverse (lineBody first text).reverse = true
  skipInside : ∀ place ∈ iniSkipPlaces after (line + (lineLead first text).length), line ≤ place ∧ place ≤ line + text.length

theorem lead_kept {after : Memory} (terminated : Terminated memory line text)
    (clears : ∀ place, after place = memory place ∨ after place = 0 ∧ Clearable (memory place)) :
    after.Holds line (lineLead first text) := by
  unfold lineLead
  split
  next marked =>
    obtain ⟨rest, rfl⟩ := marked.2
    have holds : memory.Holds line lineMark := (Memory.holds_append.mp (Memory.holds_append.mp terminated.holds).1).1
    refine Memory.holds_of_get fun i bound => ?_
    have here := holds.get bound
    have visible : ∀ byte ∈ lineMark, ¬Clearable byte := by
      unfold Clearable
      decide
    rcases clears (line + i) with same | cleared
    · exact same.trans here
    · exact absurd (here ▸ cleared.2) (visible _ (List.getElem_mem bound))
  next => trivial

theorem line_read (positive : 0 < line) (terminated : Terminated memory line text) (first : Bool) :
    ∃ after, LineRead memory line first text after := by
  have whole := lead_body first text
  have size := congrArg List.length whole
  rw [List.length_append] at size
  have fits := terminated.fits
  have holds : memory.Holds line (lineLead first text ++ lineBody first text ++ [0]) := whole.symm ▸ terminated.holds
  have nonzero : 0 ∉ lineBody first text := fun zero => terminated.nonzero (List.mem_of_mem_drop zero)
  obtain ⟨after, strips, left, _, clears, below, inside⟩ := iniStrip_reads positive holds nonzero (by omega)
  obtain ⟨skips, skipPlaces⟩ := iniSkip_terminated left
  have shorter := (stripText_front (lineBody first text)).length_le
  have lengths := congrArg List.length (indent_content first text)
  rw [List.length_append, List.length_append] at lengths
  have front : after.Holds line (lineLead first text) := lead_kept terminated clears
  have place : line + (lineLead first text).length + (lineBody first text).length = line + text.length := by omega
  refine ⟨after, strips, ?_, ?_, fun zero => left.nonzero ((List.dropWhile_suffix isspace).subset zero), by omega, ?_, inside,
    fun place member => ?_⟩
  · rw [skips, lineIndent, List.length_append, Nat.add_assoc]
  · rw [indent_content, List.append_assoc]
    exact Memory.holds_append.mpr ⟨front, left.holds⟩
  · rwa [place] at below
  · have bounds := skipPlaces place member
    omega

theorem LineRead.here {after : Memory} (read : LineRead memory line first text after) (fits : text.length < 2 ^ 32) :
    Terminated after (line + (lineIndent first text).length) (lineContent first text) := by
  have holds := read.holds
  have shorter := read.shorter
  rw [List.append_assoc] at holds
  exact ⟨(Memory.holds_append.mp holds).2, read.nonzero, by omega⟩

/-- The test of `ini_parse` for a continuation. -/
theorem continued_iff (state : IniState) (line : Nat) (indent : List (BitVec 8)) {byte : BitVec 8}
    (visible : byte ≠ 0) :
    (state.prevName 0 ≠ 0 ∧ byte ≠ 0 ∧ line < line + indent.length) ↔
      (decide (state.prevName 0 ≠ 0) = true ∧ decide (indent ≠ []) = true) := by
  simp only [visible, ne_eq, not_false_eq_true, true_and, decide_eq_true_eq, Nat.lt_add_right_iff_pos, List.length_pos_iff]

theorem terminated_head {i : Nat} {byte : BitVec 8} (terminated : Terminated memory line text)
    (inside : i ≤ text.length) (nonzero : byte ≠ 0) :
    memory (line + i) = byte ↔ (text.drop i).head? = some byte := by
  rw [List.head?_drop]
  rcases Nat.lt_or_eq_of_le inside with bound | rfl
  · rw [terminated.get bound, List.getElem?_eq_getElem bound, Option.some.injEq]
  · rw [terminated.stop, List.getElem?_eq_none le_rfl]
    exact iff_of_false nonzero.symm (Option.some_ne_none byte).symm

/-- A key is what `ini_find` passes in front of the character that it looks for. -/
theorem drop_head {name rest : List (BitVec 8)} {byte : BitVec 8} (whole : name ++ rest = text)
    (head : rest.head? = some byte) :
    ∃ value, text = name ++ byte :: value := by
  cases rest with
  | nil => cases head
  | cons first value =>
    cases head
    exact ⟨value, whole.symm⟩

variable {state after : IniState} {answer : List IniCall → Int}

/-- The last bytes of the arrays are never written. -/
structure Kept (state : IniState) : Prop where
  sectionName : state.sectionName (iniSectionMax - 1) = 0
  prevName : state.prevName (iniNameMax - 1) = 0

/-- How a line of a kind shows in the calls and in the result. -/
def Reports (answer : List IniCall → Int) (state after : IniState) : LineKind → Prop
  | .skipped => after.calls = state.calls ∧ after.result = state.result
  | .heading => after.calls = state.calls ∧ after.result = state.result
  | .malformed => after.calls = state.calls ∧ after.result = if state.result = 0 then state.iLine + 1 else state.result
  | _ => ∃ call, after.calls = call :: state.calls ∧
      after.result = if answer after.calls = 0 ∧ state.result = 0 then state.iLine + 1 else state.result

structure Turn (answer : List IniCall → Int) (state after : IniState) (kind : LineKind) : Prop where
  kept : Kept after
  iLine : after.iLine = state.iLine + 1
  named : after.prevName 0 ≠ 0 ↔ kind.named (state.prevName 0 ≠ 0) = true
  reports : Reports answer state after kind

theorem iniHandle_reports (answer : List IniCall → Int) (state : IniState) {names : Memory} {name value : Nat}
    {key : List (BitVec 8)} (kept : Kept state) (named : Terminated names name key)
    (valued : ∃ text, Terminated state.memory value text) :
    ∃ after, iniHandle answer names name value state = some after ∧
      Kept after ∧ after.prevName = state.prevName ∧ after.iLine = state.iLine ∧
      ∃ call, after.calls = call :: state.calls ∧
        after.result = if answer after.calls = 0 ∧ state.result = 0 then state.iLine else state.result := by
  obtain ⟨current, sections, _⟩ := terminated_exists kept.sectionName (Nat.zero_le _) (by decide)
  obtain ⟨content, terminated⟩ := valued
  rw [iniHandle, sections.stringAt, named.stringAt, terminated.stringAt]
  simp only [Option.bind_some, Option.map_some]
  refine ⟨_, rfl, ?_⟩
  unfold IniState.failed
  split
  next failed =>
    split
    next first => exact ⟨⟨kept.sectionName, kept.prevName⟩, rfl, rfl, _, rfl, (if_pos ⟨failed, first⟩).symm⟩
    next later => exact ⟨⟨kept.sectionName, kept.prevName⟩, rfl, rfl, _, rfl, (if_neg fun both => later both.2).symm⟩
  next served => exact ⟨⟨kept.sectionName, kept.prevName⟩, rfl, rfl, _, rfl, (if_neg fun both => served both.1).symm⟩

theorem failed_turn (kept : Kept state) (memory : Memory) :
    Turn answer state ({ state with iLine := state.iLine + 1, memory } : IniState).failed .malformed := by
  unfold IniState.failed
  split
  next first => exact ⟨⟨kept.sectionName, kept.prevName⟩, rfl, by simp [LineKind.named], rfl, (if_pos first).symm⟩
  next later => exact ⟨⟨kept.sectionName, kept.prevName⟩, rfl, by simp [LineKind.named], rfl, (if_neg later).symm⟩

theorem terminated_empty (terminated : Terminated memory line text) : memory line = 0 ↔ text = [] := by
  cases text with
  | nil => exact iff_of_true terminated.stop rfl
  | cons byte rest =>
    rw [terminated.holds.1]
    exact iff_of_false (fun zero => terminated.nonzero (zero ▸ List.mem_cons_self)) (List.cons_ne_nil _ _)

theorem strchr_nonzero {chars : List (BitVec 8)} {byte : BitVec 8} (nonzero : byte ≠ 0) :
    strchr chars byte = true ↔ byte ∈ chars := by
  have other : ¬byte = 0#8 := nonzero
  simp [strchr, other]

theorem heading_turn (answer : List IniCall → Int) {start : Nat} {rest : List (BitVec 8)} (kept : Kept state)
    (tail : Terminated memory (start + 1) rest) :
    ∃ after, ((iniFind memory (start + 1) (some [0x5D])).map fun stop =>
      if memory stop = 0x5D then
        ({ state with
          iLine := state.iLine + 1, memory := memory.store8 stop 0
          sectionName := strncpy state.sectionName 0 (memory.store8 stop 0) (start + 1) (iniSectionMax - 1)
          prevName := state.prevName.store8 0 0 } : IniState)
      else ({ state with iLine := state.iLine + 1, memory } : IniState).failed) = some after ∧
      Turn answer state after
        (if (rest.drop (passed (iniSeeks (some [0x5D])) false rest).length).head? = some 0x5D then .heading else .malformed) := by
  obtain ⟨finds, _⟩ := iniFind_terminated (some [0x5D]) tail
  have closed := terminated_head tail (passed_length (iniSeeks (some [0x5D])) false rest) (show (0x5D : BitVec 8) ≠ 0 by decide)
  rw [finds, Option.map_some]
  by_cases found : (rest.drop (passed (iniSeeks (some [0x5D])) false rest).length).head? = some 0x5D
  · rw [if_pos (closed.mpr found), if_pos found]
    refine ⟨_, rfl, ⟨⟨strncpy_last.trans kept.sectionName, ?_⟩, rfl, ?_, rfl, rfl⟩⟩
    · have unwritten : state.prevName.store8 0 0 (iniNameMax - 1) = state.prevName (iniNameMax - 1) :=
        Memory.write_outside (.inr (by decide))
      exact unwritten.trans kept.prevName
    · simp [LineKind.named, Memory.store8, Memory.write]
  · rw [if_neg (mt closed.mp found), if_neg found]
    exact ⟨_, rfl, failed_turn kept memory⟩

theorem item_turn (answer : List IniCall → Int) {indent content : List (BitVec 8)} (positive : 0 < line)
    (kept : Kept state) (holds : memory.Holds line (indent ++ content ++ [0]))
    (here : Terminated memory (line + indent.length) content) :
    ∃ after, ((iniFind memory (line + indent.length) (some [0x3D, 0x3A])).bind fun stop =>
      if memory stop = 0x3D ∨ memory stop = 0x3A then
        (iniStrip (line + indent.length) (memory.store8 stop 0)).bind fun memory =>
          (iniFind memory (stop + 1) none).bind fun tail =>
            (iniSkip (if memory tail ≠ 0 then memory.store8 tail 0 else memory) (stop + 1)).bind fun value =>
              (iniStrip value (if memory tail ≠ 0 then memory.store8 tail 0 else memory)).bind fun memory =>
                iniHandle answer memory (line + indent.length) value
                  { state with
                    iLine := state.iLine + 1, memory
                    prevName := strncpy state.prevName 0 memory (line + indent.length) (iniNameMax - 1) }
      else some ({ state with iLine := state.iLine + 1, memory } : IniState).failed) = some after ∧
      Turn answer state after 
        (let name := passed (iniSeeks (some [0x3D, 0x3A])) false content
        let stop := (content.drop name.length).head?
        if stop = some 0x3D ∨ stop = some 0x3A then .item name else .malformed) := by
  obtain ⟨finds, _⟩ := iniFind_terminated (some [0x3D, 0x3A]) here
  have whole := passed_append (iniSeeks (some [0x3D, 0x3A])) false content
  have short := passed_length (iniSeeks (some [0x3D, 0x3A])) false content
  have equals := terminated_head here short (show (0x3D : BitVec 8) ≠ 0 by decide)
  have colon := terminated_head here short (show (0x3A : BitVec 8) ≠ 0 by decide)
  rw [finds, Option.bind_some]
  generalize passed (iniSeeks (some [0x3D, 0x3A])) false content = name at whole equals colon short ⊢
  simp only
  by_cases found : (content.drop name.length).head? = some 0x3D ∨ (content.drop name.length).head? = some 0x3A
  · rw [if_pos ((or_congr equals colon).mpr found), if_pos found]
    obtain ⟨byte, value, split⟩ : ∃ byte value, content = name ++ byte :: value :=
      found.elim (fun head => ⟨_, drop_head whole head⟩) (fun head => ⟨_, drop_head whole head⟩)
    subst split
    obtain ⟨item⟩ := item_read positive holds here.nonzero here.fits
    rw [item.strips, Option.bind_some, item.finds, Option.bind_some, ← item.cuts, item.skips, Option.bind_some, item.ends,
      Option.bind_some]
    obtain ⟨after, ran, keptAfter, same, count, call⟩ := iniHandle_reports answer
      { state with
        iLine := state.iLine + 1, memory := item.finish
        prevName := strncpy state.prevName 0 item.finish (line + indent.length) (iniNameMax - 1) }
      ⟨kept.sectionName, strncpy_last.trans kept.prevName⟩ item.named item.valued
    refine ⟨after, ran, ⟨keptAfter, count, ?_, call⟩⟩
    have copied : after.prevName 0 = item.finish (line + indent.length) := (congrFun same 0).trans (strncpy_first 48)
    rw [copied, ne_eq, terminated_empty item.named, LineKind.named, decide_eq_true_eq]
  · rw [if_neg (mt (or_congr equals colon).mp found), if_neg found]
    exact ⟨_, rfl, failed_turn kept memory⟩

theorem parseLine_turn (answer : List IniCall → Int) (positive : 0 < line) (kept : Kept state)
    (terminated : Terminated state.memory line text) (filled : text ≠ []) :
    ∃ after, iniParseLine answer line state = some after ∧
      Turn answer state after (codeKind (state.iLine + 1 = 1) (state.prevName 0 ≠ 0) text) := by
  have stored : state.memory line ≠ 0 := mt (terminated_empty terminated).mp filled
  obtain ⟨memory, read⟩ := line_read positive terminated (state.iLine + 1 = 1)
  rw [iniParseLine, if_neg stored]
  simp only
  rw [lineLead_eq terminated (state.iLine + 1), read.strips, Option.bind_some, read.skips, Option.bind_some]
  have holds := read.holds
  have here := read.here terminated.fits
  unfold codeKind
  generalize lineIndent (state.iLine + 1 = 1) text = indent at holds here ⊢
  generalize lineContent (state.iLine + 1 = 1) text = content at holds here ⊢
  cases content with
  | nil =>
    have zero : memory (line + indent.length) = 0 := here.stop
    have comment : strchr iniStartComment (memory (line + indent.length)) = true := by rw [zero]; decide
    rw [if_pos comment]
    exact ⟨_, rfl, ⟨⟨kept.sectionName, kept.prevName⟩, rfl, by simp [lineKind, LineKind.named], rfl, rfl⟩⟩
  | cons first rest =>
    have start : memory (line + indent.length) = first := here.holds.1
    have visible : first ≠ 0 := fun zero => here.nonzero (zero ▸ List.mem_cons_self)
    have continued := continued_iff state line indent visible
    simp only [start, strchr_nonzero visible]
    rw [lineKind]
    by_cases comment : first ∈ iniStartComment
    · rw [if_pos comment, if_pos comment]
      exact ⟨_, rfl, ⟨⟨kept.sectionName, kept.prevName⟩, rfl, by simp [LineKind.named], rfl, rfl⟩⟩
    rw [if_neg comment, if_neg comment]
    by_cases known : decide (state.prevName 0 ≠ 0) = true ∧ decide (indent ≠ []) = true
    · rw [if_pos (continued.mpr known), if_pos known]
      obtain ⟨name, prevName, _⟩ := terminated_exists kept.prevName (Nat.zero_le _) (by decide)
      obtain ⟨after, ran, keptAfter, same, count, call⟩ := iniHandle_reports answer
        { state with iLine := state.iLine + 1, memory := memory } ⟨kept.sectionName, kept.prevName⟩ prevName ⟨_, here⟩
      exact ⟨after, ran, ⟨keptAfter, count, by rw [same]; simp [LineKind.named], call⟩⟩
    rw [if_neg (mt continued.mp known), if_neg known]
    by_cases bracket : first = 0x5B
    · rw [if_pos bracket, if_pos bracket]
      have tail : Terminated memory (line + indent.length + 1) rest :=
        terminated_drop (show Terminated memory (line + indent.length) ([first] ++ rest) from here)
      exact heading_turn answer kept tail
    · rw [if_neg bracket, if_neg bracket, if_pos visible]
      exact item_turn answer positive kept holds here

end YuzuOS.Proofs.IniKinds
