import YuzuOS.Proofs.IniDocument

/-! Which documents `ini_parse` reads to their end without leaving the text, the line buffer
and its two arrays. -/

namespace YuzuOS.Proofs.IniSafety
open YuzuOS.Library YuzuOS.Libc YuzuOS.Core YuzuOS.Proofs.IniLines YuzuOS.Proofs.IniStrip YuzuOS.Proofs.IniReading
  YuzuOS.Proofs.IniKinds YuzuOS.Proofs.IniDocument

variable {memory : Memory} {low high line : Nat} {text : List (BitVec 8)} {state : IniState}

theorem inside_line {places : List Nat} {last : Nat} (bounds : ∀ place ∈ places, line ≤ place ∧ place ≤ last)
    (short : last < line + iniLineMax) : ∀ place ∈ places.map IniPlace.line, Inside low high line place := by
  refine List.forall_mem_map.mpr fun place member => ?_
  have bound := bounds place member
  exact ⟨bound.1, by omega⟩

theorem inside_strip {places : List Nat} {last : Nat} (below : ∀ place ∈ places, place ≤ last)
    (short : last < line + iniLineMax) :
    (∀ place ∈ places.map IniPlace.line, Inside low high line place) ↔ ∀ place ∈ places, line ≤ place := by
  rw [List.forall_mem_map]
  constructor
  · intro inside place member
    exact (inside place member).1
  · intro inside
    exact List.forall_mem_map.mp (inside_line (fun place member => ⟨inside place member, below place member⟩) short)

theorem inside_mark : ∀ place ∈ iniMarkPlaces memory line, Inside low high line place := by
  have inside (i : Nat) (bound : i < iniLineMax) : Inside low high line (.line (line + i)) :=
    ⟨Nat.le_add_right _ _, Nat.add_lt_add_left bound _⟩
  unfold iniMarkPlaces
  refine List.forall_mem_cons.mpr ⟨inside 0 (by decide), ?_⟩
  split
  · refine List.forall_mem_cons.mpr ⟨inside 1 (by decide), ?_⟩
    split
    · exact List.forall_mem_cons.mpr ⟨inside 2 (by decide), nofun⟩
    · nofun
  · nofun

theorem inside_name : Inside low high line (.prevName 0) := Nat.zero_lt_succ _

theorem range_below {n : Nat} : ∀ place ∈ List.range (n - 1), place < n := fun _ member =>
  Nat.lt_of_lt_of_le (List.mem_range.mp member) (Nat.sub_le n 1)

theorem heading_places {start : Nat} {rest : List (BitVec 8)} (lower : line ≤ start)
    (tail : Terminated memory (start + 1) rest) (short : start + 1 + rest.length < line + iniLineMax) :
    ∀ place ∈ (iniFindPlaces memory (start + 1) (some [0x5D])).map IniPlace.line ++
      (iniFind memory (start + 1) (some [0x5D])).elim [] fun stop =>
        .line stop ::
          if memory stop = 0x5D then
            (strncpyPlaces (memory.store8 stop 0) (start + 1) (iniSectionMax - 1)).map .line ++
              (List.range (iniSectionMax - 1)).map .sectionName ++ [.prevName 0]
          else [], Inside low high line place := by
  obtain ⟨finds, findPlaces⟩ := iniFind_terminated (some [0x5D]) tail
  have whole := passed_append (iniSeeks (some [0x5D])) false rest
  have bound := passed_length (iniSeeks (some [0x5D])) false rest
  rw [finds, Option.elim_some]
  generalize passed (iniSeeks (some [0x5D])) false rest = name at whole bound ⊢
  have cut : Terminated (memory.store8 (start + 1 + name.length) 0) (start + 1) name := terminated_cut (whole.symm ▸ tail)
  refine List.forall_mem_append.mpr ⟨inside_line (fun place member => ?_) short,
    List.forall_mem_cons.mpr ⟨⟨by omega, by omega⟩, ?_⟩⟩
  · have bounds := findPlaces place member
    omega
  · split
    · refine List.forall_mem_append.mpr ⟨List.forall_mem_append.mpr ⟨inside_line (fun place member => ?_) short, ?_⟩,
        List.forall_mem_singleton.mpr inside_name⟩
      · have bounds := strncpyPlaces_terminated cut member
        omega
      · exact List.forall_mem_map.mpr range_below
    · nofun

theorem item_places {indent content : List (BitVec 8)} (positive : 0 < line)
    (holds : memory.Holds line (indent ++ content ++ [0])) (here : Terminated memory (line + indent.length) content)
    (short : line + indent.length + content.length < line + iniLineMax) :
    (∀ place ∈ (iniFindPlaces memory (line + indent.length) (some [0x3D, 0x3A])).map IniPlace.line ++
      (iniFind memory (line + indent.length) (some [0x3D, 0x3A])).elim [] fun stop =>
        .line stop ::
          if memory stop = 0x3D ∨ memory stop = 0x3A then
            (iniStripAllPlaces (line + indent.length) (memory.store8 stop 0)).map .line ++
            (iniStrip (line + indent.length) (memory.store8 stop 0)).elim [] fun memory =>
              (iniFindPlaces memory (stop + 1) none).map .line ++
              (iniFind memory (stop + 1) none).elim [] fun tail =>
                .line tail :: (iniSkipPlaces (if memory tail ≠ 0 then memory.store8 tail 0 else memory) (stop + 1)).map .line ++
                (iniSkip (if memory tail ≠ 0 then memory.store8 tail 0 else memory) (stop + 1)).elim [] fun value =>
                  (iniStripAllPlaces value (if memory tail ≠ 0 then memory.store8 tail 0 else memory)).map .line ++
                  (iniStrip value (if memory tail ≠ 0 then memory.store8 tail 0 else memory)).elim [] fun memory =>
                    (strncpyPlaces memory (line + indent.length) (iniNameMax - 1)).map .line ++
                      (List.range (iniNameMax - 1)).map .prevName
          else [], Inside low high line place) ↔
      let name := passed (iniSeeks (some [0x3D, 0x3A])) false content
      let stop := (content.drop name.length).head?
      (match if stop = some 0x3D ∨ stop = some 0x3A then LineKind.item name else .malformed with
        | .item name => staysInside indent.reverse name.reverse
        | _ => true) = true := by
  obtain ⟨finds, findPlaces⟩ := iniFind_terminated (some [0x3D, 0x3A]) here
  have whole := passed_append (iniSeeks (some [0x3D, 0x3A])) false content
  have bound := passed_length (iniSeeks (some [0x3D, 0x3A])) false content
  have equals := terminated_head here bound (show (0x3D : BitVec 8) ≠ 0 by decide)
  have colon := terminated_head here bound (show (0x3A : BitVec 8) ≠ 0 by decide)
  have found : ∀ place ∈ iniFindPlaces memory (line + indent.length) (some [0x3D, 0x3A]), line ≤ place ∧
      place ≤ line + indent.length + content.length := fun place member => by
    have bounds := findPlaces place member
    omega
  rw [finds, Option.elim_some]
  generalize passed (iniSeeks (some [0x3D, 0x3A])) false content = name at whole equals colon bound ⊢
  rw [List.forall_mem_append, and_iff_right (inside_line found short), List.forall_mem_cons, and_iff_right ⟨by omega, by omega⟩]
  simp only
  by_cases key : (content.drop name.length).head? = some 0x3D ∨ (content.drop name.length).head? = some 0x3A
  · rw [if_pos ((or_congr equals colon).mpr key), if_pos key]
    obtain ⟨byte, value, split⟩ : ∃ byte value, content = name ++ byte :: value :=
      key.elim (fun head => ⟨_, drop_head whole head⟩) (fun head => ⟨_, drop_head whole head⟩)
    subst split
    obtain ⟨item⟩ := item_read positive holds here.nonzero here.fits
    have below : ∀ place ∈ iniStripAllPlaces (line + indent.length) (memory.store8 (line + indent.length + name.length) 0),
        place ≤ line + indent.length + (name ++ byte :: value).length := fun place member => by
      have upper := item.nameBelow place member
      omega
    obtain ⟨findsValue, skipsValue, stripsValue, copies⟩ := item.valueInside
    have reached := item.reached
    rw [item.strips, Option.elim_some, List.forall_mem_append, inside_strip below short, item.nameInside]
    refine and_iff_left ?_
    rw [item.finds, Option.elim_some, ← item.cuts, item.skips, Option.elim_some, item.ends, Option.elim_some]
    refine List.forall_mem_append.mpr ⟨inside_line findsValue short, List.forall_mem_cons.mpr ⟨⟨by omega, by omega⟩, ?_⟩⟩
    refine List.forall_mem_append.mpr ⟨inside_line skipsValue short, ?_⟩
    refine List.forall_mem_append.mpr ⟨inside_line stripsValue short, List.forall_mem_append.mpr ⟨inside_line copies short, ?_⟩⟩
    exact List.forall_mem_map.mpr range_below
  · rw [if_neg (mt (or_congr equals colon).mp key), if_neg key]
    exact iff_of_true nofun rfl

theorem parseLine_places (positive : 0 < line) (terminated : Terminated state.memory line text) (filled : text ≠ [])
    (short : text.length < iniLineMax) : (∀ place ∈ iniParseLinePlaces line state, Inside low high line place) ↔
      lineInside (state.iLine + 1 = 1) (state.prevName 0 ≠ 0) text = true := by
  have stored : state.memory line ≠ 0 := mt (terminated_empty terminated).mp filled
  obtain ⟨memory, read⟩ := line_read positive terminated (state.iLine + 1 = 1)
  have inside (place : Nat) (lower : line ≤ place) (upper : place ≤ line + text.length) : Inside low high line (.line place) :=
    ⟨lower, by omega⟩
  have marks : ∀ place ∈ (if state.iLine + 1 = 1 then iniMarkPlaces state.memory line else []), Inside low high line place := by
    split
    · exact inside_mark
    · nofun
  have strips : (∀ place ∈ (iniStripAllPlaces (line + (lineLead (state.iLine + 1 = 1) text).length) state.memory).map IniPlace.line,
      Inside low high line place) ↔ _ := inside_strip read.stripBelow (by omega)
  have shorter := read.shorter
  rw [iniParseLinePlaces, if_neg stored]
  simp only
  rw [lineLead_eq terminated (state.iLine + 1), read.strips, Option.elim_some, read.skips, Option.elim_some, lineInside, Bool.and_eq_true,
    ← read.stripInside, ← strips, List.forall_mem_cons,
    and_iff_right (inside line le_rfl (Nat.le_add_right _ _)), List.forall_mem_append, List.forall_mem_append, and_iff_right marks,
    List.forall_mem_append, and_iff_right (inside_line read.skipInside (by omega)), List.forall_mem_cons,
    and_iff_right (inside _ (Nat.le_add_right _ _) (by omega))]
  refine and_congr_right' ?_
  have holds := read.holds
  have here := read.here terminated.fits
  unfold codeKind
  generalize lineIndent (state.iLine + 1 = 1) text = indent at holds shorter here ⊢
  generalize lineContent (state.iLine + 1 = 1) text = content at holds shorter here ⊢
  cases content with
  | nil =>
    have zero : memory (line + indent.length) = 0 := here.stop
    have comment : strchr iniStartComment (memory (line + indent.length)) = true := by rw [zero]; decide
    rw [if_pos comment]
    exact iff_of_true nofun rfl
  | cons first rest =>
    have start : memory (line + indent.length) = first := here.holds.1
    have visible : first ≠ 0 := fun zero => here.nonzero (zero ▸ List.mem_cons_self)
    have continued := continued_iff state line indent visible
    simp only [start, strchr_nonzero visible]
    rw [lineKind]
    by_cases comment : first ∈ iniStartComment
    · rw [if_pos comment, if_pos comment]
      exact iff_of_true nofun rfl
    rw [if_neg comment, if_neg comment, List.forall_mem_cons, and_iff_right inside_name]
    by_cases known : decide (state.prevName 0 ≠ 0) = true ∧ decide (indent ≠ []) = true
    · rw [if_pos (continued.mpr known), if_pos known]
      exact iff_of_true nofun rfl
    rw [if_neg (mt continued.mp known), if_neg known]
    by_cases bracket : first = 0x5B
    · rw [if_pos bracket, if_pos bracket]
      have tail : Terminated memory (line + indent.length + 1) rest :=
        terminated_drop (show Terminated memory (line + indent.length) ([first] ++ rest) from here)
      rw [List.length_cons] at shorter
      refine iff_of_true (heading_places (Nat.le_add_right _ _) tail (by omega)) ?_
      by_cases closed : (rest.drop (passed (iniSeeks (some [0x5D])) false rest).length).head? = some 0x5D
      · rw [if_pos closed]
      · rw [if_neg closed]
    · rw [if_neg bracket, if_neg bracket, if_pos visible]
      exact item_places positive holds here (by omega)

/-- Without a terminator `strlen` reads on behind the buffer. -/
theorem full_outside (full : ∀ i < iniLineMax, state.memory (line + i) ≠ 0) :
    .line (line + iniLineMax) ∈ iniParseLinePlaces line state := by
  have reaches (i : Nat) (inside : i < iniLineMax) : line + iniLineMax ∈ iniStripAllPlaces (line + i) state.memory := by
    have stored : ∀ j < iniLineMax - i, state.memory (line + i + j) ≠ 0 := fun j bound => by
      rw [Nat.add_assoc]
      exact full (i + j) (by omega)
    have enough : iniLineMax - i < 2 ^ 32 := (Nat.sub_le _ _).trans_lt (by decide)
    have reached := scanPlaces_reaches stored false enough
    rw [show line + i + (iniLineMax - i) = line + iniLineMax by omega] at reached
    exact List.mem_append_left _ reached
  have filled : state.memory line ≠ 0 := full 0 (by decide)
  rw [iniParseLinePlaces, if_neg filled]
  refine List.mem_cons_of_mem _ (List.mem_append_left _ (List.mem_append_right _ (List.mem_map_of_mem ?_)))
  split
  next => exact reaches 3 (by decide)
  next => exact reaches 0 (by decide)

/-! ### Documents -/

/-- A text that `ini_parse` reads without leaving its buffers, from a line on that may be the
first one, behind a key or not. -/
inductive Safe : Bool → Bool → List (BitVec 8) → Prop
  | stop {first named rest} : Safe first named (0 :: rest)
  | blank {first named content stored rest} (more : content.head? ≠ some 0)
      (taken : takeLine iniLineMax content = some (stored, rest)) (empty : lineText stored = [])
      (later : Safe first named rest) : Safe first named content
  | line {first named content stored rest} (more : content.head? ≠ some 0)
      (taken : takeLine iniLineMax content = some (stored, rest)) (filled : lineText stored ≠ [])
      (short : (lineText stored).length < iniLineMax) (inside : lineInside first named (lineText stored) = true)
      (later : Safe false ((codeKind first named (lineText stored)).named named) rest) : Safe first named content

/-- A call of `ini_parse` that returns and stays in the text and in its buffers. -/
def Contained (answer : List IniCall → Int) (text : Memory) (low high line buffer : Nat) (state : IniState) : Prop :=
  (∃ turns, (iniParseLoop answer text line turns buffer state).isSome) ∧
    ∀ turns, ∀ place ∈ iniParsePlaces answer text line turns buffer state, Inside low high line place

variable {answer : List IniCall → Int} {document after : Memory} {buffer next turns : Nat}
  {content stored rest : List (BitVec 8)} {served : IniState}

theorem contained_stop (zero : document buffer = 0) (here : low ≤ buffer ∧ buffer < high) :
    Contained answer document low high line buffer state := by
  refine ⟨⟨1, by rw [iniParseLoop, if_pos zero]; rfl⟩, fun turns => ?_⟩
  cases turns with
  | zero => exact List.forall_mem_nil _
  | succ turns =>
    rw [iniParsePlaces, if_pos zero]
    exact List.forall_mem_singleton.mpr here

theorem contained_turn
    (fetched : Fetched document (state.memory.fill line iniLineMax 0) after iniLineMax buffer next line content stored rest)
    (more : document buffer ≠ 0) (filled : content ≠ []) (below : low ≤ buffer)
    (size : buffer + content.length = high)
    (ran : iniParseLine answer line { state with memory := after } = some served) :
    Contained answer document low high line buffer state ↔
      (∀ place ∈ iniParseLinePlaces line { state with memory := after }, Inside low high line place) ∧
        Contained answer document low high line next served := by
  have loop := parseLoop_fetched answer fetched more
  have places := parsePlaces_fetched answer fetched more
  rw [ran] at loop places
  constructor
  · rintro ⟨⟨turns, returns⟩, inside⟩
    refine ⟨fun place member => ?_, ?_, fun turns place member => ?_⟩
    · refine inside 1 place ?_
      rw [places]
      exact List.mem_cons_of_mem _ (List.mem_append_left _ (List.mem_append_right _ member))
    · cases turns with
      | zero => cases returns
      | succ turns =>
        rw [loop] at returns
        exact ⟨turns, returns⟩
    · refine inside (turns + 1) place ?_
      rw [places]
      exact List.mem_cons_of_mem _ (List.mem_append_right _ member)
  · rintro ⟨inside, ⟨turns, returns⟩, later⟩
    refine ⟨⟨turns + 1, by rw [loop]; exact returns⟩, fun turns => ?_⟩
    cases turns with
    | zero => nofun
    | succ turns =>
      rw [places]
      refine List.forall_mem_cons.mpr ⟨⟨below, ?_⟩, List.forall_mem_append.mpr ⟨List.forall_mem_append.mpr
        ⟨List.forall_mem_append.mpr ⟨List.forall_mem_map.mpr fun i bound => ?_, ?_⟩, inside⟩, later turns⟩⟩
      · have positive := List.length_pos_iff.mpr filled
        omega
      · exact ⟨Nat.le_add_right _ _, Nat.add_lt_add_left (List.mem_range.mp bound) _⟩
      · exact size ▸ fetched.places low line below le_rfl le_rfl

theorem places_blank (blank : state.memory line = 0) :
    ∀ place ∈ iniParseLinePlaces line state, Inside low high line place := by
  rw [iniParseLinePlaces, if_pos blank]
  exact List.forall_mem_singleton.mpr ⟨le_rfl, Nat.lt_add_of_pos_right (by decide)⟩

theorem taken_first (holds : document.Holds buffer content) (taken : takeLine (turns + 1) content = some (stored, rest))
    (more : content.head? ≠ some 0) : document buffer ≠ 0 ∧ content ≠ [] := by
  cases content with
  | nil => cases taken
  | cons byte content =>
    refine ⟨fun zero => more ?_, List.cons_ne_nil _ _⟩
    rw [List.head?_cons, ← holds.1, zero]

theorem safe_contained {first named : Bool} (safe : Safe first named content) (positive : 0 < line) (kept : Kept state)
    (opened : first = decide (state.iLine + 1 = 1)) (known : named = decide (state.prevName 0 ≠ 0))
    (holds : document.Holds buffer content) (below : low ≤ buffer) (size : buffer + content.length = high) :
    Contained answer document low high line buffer state := by
  induction safe generalizing buffer state with
  | stop =>
    rw [List.length_cons] at size
    exact contained_stop holds.1 ⟨below, by omega⟩
  | blank more taken empty later ih =>
    obtain ⟨next, after, fetched⟩ := lineGet_fetched holds taken line (state.memory.fill line iniLineMax 0)
    obtain ⟨nonzero, filled⟩ := taken_first holds taken more
    have terminated := fetched_terminated fetched (by rw [empty]; decide)
    have blank : after line = 0 := (terminated_empty terminated).mpr empty
    have ran : iniParseLine answer line { state with memory := after } = some { state with memory := after } := parseLine_blank answer blank
    refine (contained_turn fetched nonzero filled below size ran).mpr ⟨places_blank blank, ?_⟩
    have ends := fetched.ends
    have shorter := takeLine_shorter taken
    exact ih ⟨kept.sectionName, kept.prevName⟩ opened known fetched.behind (by omega) (by omega)
  | line more taken filledLine short inside later ih =>
    obtain ⟨next, after, fetched⟩ := lineGet_fetched holds taken line (state.memory.fill line iniLineMax 0)
    obtain ⟨nonzero, filled⟩ := taken_first holds taken more
    have terminated := fetched_terminated fetched short
    have keptAfter : Kept { state with memory := after } := ⟨kept.sectionName, kept.prevName⟩
    obtain ⟨served, ran, turn⟩ := parseLine_turn answer positive keptAfter terminated filledLine
    subst opened known
    refine (contained_turn fetched nonzero filled below size ran).mpr
      ⟨(parseLine_places positive terminated filledLine short).mpr inside, ?_⟩
    have ends := fetched.ends
    have shorter := takeLine_shorter taken
    refine ih turn.kept ?_ ?_ fetched.behind (by omega) (by omega)
    · rw [turn.iLine]
      exact (decide_eq_false (by simp)).symm
    · exact Bool.eq_iff_iff.mpr (turn.named.symm.trans decide_eq_true_iff.symm)

theorem contained_safe (contained : Contained answer document low high line buffer state) (positive : 0 < line)
    (kept : Kept state) (holds : document.Holds buffer content) (below : low ≤ buffer)
    (size : buffer + content.length = high) :
    Safe (state.iLine + 1 = 1) (state.prevName 0 ≠ 0) content := by
  induction length : content.length using Nat.strong_induction_on generalizing content buffer state with
  | _ _ ih =>
    have inside := contained.2
    rcases content with - | ⟨byte, tail⟩
    · have outside := (inside 1 (.text buffer) List.mem_cons_self).2
      rw [List.length_nil] at size
      omega
    by_cases zero : byte = 0
    · subst zero
      exact .stop
    have more : (byte :: tail).head? ≠ some 0 := fun same => zero (Option.some.inj same)
    have nonzero : document buffer ≠ 0 := fun same => zero (holds.1.symm.trans same)
    cases taken : takeLine iniLineMax (byte :: tail) with
    | none =>
      have outside := lineGet_outside holds taken line
      have member : .text (buffer + (byte :: tail).length) ∈ iniParsePlaces answer document line 1 buffer state := by
        rw [iniParsePlaces, if_neg nonzero]
        exact List.mem_cons_of_mem _ (List.mem_append_left _ (List.mem_append_left _ (List.mem_append_right _ outside)))
      have bound := (inside 1 _ member).2
      omega
    | some fetchedLine =>
      obtain ⟨stored, rest⟩ := fetchedLine
      obtain ⟨next, after, fetched⟩ := lineGet_fetched holds taken line (state.memory.fill line iniLineMax 0)
      have keptAfter : Kept { state with memory := after } := ⟨kept.sectionName, kept.prevName⟩
      have filled : byte :: tail ≠ [] := List.cons_ne_nil _ _
      have ends := fetched.ends
      have shorter := takeLine_shorter taken
      have lineInside : ∀ place ∈ iniParseLinePlaces line { state with memory := after }, Inside low high line place := by
        intro place member
        refine inside 1 place ?_
        rw [parsePlaces_fetched answer fetched nonzero]
        exact List.mem_cons_of_mem _ (List.mem_append_left _ (List.mem_append_right _ member))
      by_cases short : (lineText stored).length < iniLineMax
      · have terminated := fetched_terminated fetched short
        by_cases empty : lineText stored = []
        · have blank : after line = 0 := (terminated_empty terminated).mpr empty
          have ran : iniParseLine answer line { state with memory := after } = some { state with memory := after } := parseLine_blank answer blank
          have later := ((contained_turn fetched nonzero filled below size ran).mp contained).2
          have safe := ih _ (length ▸ shorter) later keptAfter fetched.behind (by omega) (by omega) rfl
          exact .blank more taken empty safe
        · obtain ⟨served, ran, turn⟩ := parseLine_turn answer positive keptAfter terminated empty
          have later := ((contained_turn fetched nonzero filled below size ran).mp contained).2
          have safe := ih _ (length ▸ shorter) later turn.kept fetched.behind (by omega) (by omega) rfl
          have opened : decide (served.iLine + 1 = 1) = false := by
            rw [turn.iLine]
            exact decide_eq_false (by simp)
          rw [opened, Bool.eq_iff_iff.mpr (decide_eq_true_iff.trans turn.named)] at safe
          have places : (∀ place ∈ iniParseLinePlaces line { state with memory := after }, Inside low high line place) ↔ _ :=
            parseLine_places positive terminated empty short
          exact .line more taken empty short (places.mp lineInside) safe
      · have full : ∀ i < iniLineMax, after (line + i) ≠ 0 := fun i bound => fetched_full fetched short bound
        exact absurd (lineInside _ (full_outside full)).2 (Nat.lt_irrefl _)

def opened (memory : Memory) : IniState := ⟨memory, fun _ => 0, fun _ => 0, 0, 0, []⟩

theorem ini_parse_contained_iff (answer : List IniCall → Int) (memory : Memory) (positive : 0 < line)
    (holds : document.Holds buffer content) :
    ((∃ turns, (iniParse answer document buffer line memory turns).isSome) ∧
      ∀ turns, ∀ place ∈ iniParsePlaces answer document line turns buffer (opened memory),
        Inside buffer (buffer + content.length) line place) ↔ Safe true false content := by
  have kept : Kept (opened memory) := ⟨rfl, rfl⟩
  constructor
  · intro contained
    have inside : Contained answer document buffer (buffer + content.length) line buffer (opened memory) := contained
    exact contained_safe inside positive kept holds le_rfl rfl
  · intro safe
    have contained : Contained answer document buffer (buffer + content.length) line buffer (opened memory) :=
      safe_contained safe positive kept rfl rfl holds le_rfl rfl
    exact contained

theorem key_safe : Safe true false [0x61, 0x62, 0x63, 0x3D, 0x64, 0x0A, 0] := by
  have taken : takeLine iniLineMax [0x61, 0x62, 0x63, 0x3D, 0x64, 0x0A, 0] = some ([0x61, 0x62, 0x63, 0x3D, 0x64], [0]) := by
    decide
  refine .line (by decide) taken (by decide) (by decide) ?_ .stop
  decide +kernel

theorem ini_parse_contained_iff_example :
    (∃ turns, (iniParse (fun _ => 0) (exampleMemory [0x61, 0x62, 0x63, 0x3D, 0x64, 0x0A]) 16 4096 (fun _ => 0) turns).isSome) ∧
      ∀ turns, ∀ place ∈ iniParsePlaces (fun _ => 0) (exampleMemory [0x61, 0x62, 0x63, 0x3D, 0x64, 0x0A]) 4096 turns 16
        (opened fun _ => 0), Inside 16 23 4096 place :=
  (ini_parse_contained_iff (fun _ => 0) (fun _ => 0) (by decide) (exampleMemory_terminated (by decide) (by decide)).holds).mpr
    key_safe

/-- A text that ends behind its last line is not safe. -/
theorem safe_ends {first named : Bool} : ¬Safe first named [] := by
  intro safe
  cases safe with
  | blank more taken => cases taken
  | line more taken => cases taken

/-- `"ab=cd\n"` as the whole file -/
theorem ini_parse_reads_on :
    ¬((∃ turns, (iniParse (fun _ => 0) (exampleMemory [0x61, 0x62, 0x3D, 0x63, 0x64, 0x0A]) 16 4096 (fun _ => 0) turns).isSome) ∧
      ∀ turns, ∀ place ∈ iniParsePlaces (fun _ => 0) (exampleMemory [0x61, 0x62, 0x3D, 0x63, 0x64, 0x0A]) 4096 turns 16 (opened fun _ => 0),
        Inside 16 22 4096 place) := by
  intro contained
  have inside : Contained _ _ 16 22 4096 16 (opened fun _ => 0) := contained
  have line : takeLine iniLineMax [0x61, 0x62, 0x3D, 0x63, 0x64, 0x0A] = some ([0x61, 0x62, 0x3D, 0x63, 0x64], []) := by decide
  have holds : (exampleMemory [0x61, 0x62, 0x3D, 0x63, 0x64, 0x0A]).Holds 16 [0x61, 0x62, 0x3D, 0x63, 0x64, 0x0A] :=
    ⟨rfl, rfl, rfl, rfl, rfl, rfl, trivial⟩
  have safe : Safe true false [0x61, 0x62, 0x3D, 0x63, 0x64, 0x0A] :=
    contained_safe inside (by decide) ⟨rfl, rfl⟩ holds le_rfl rfl
  cases safe with
  | blank more taken empty later =>
    rw [line] at taken
    obtain ⟨-, rfl⟩ := Prod.mk.inj (Option.some.inj taken)
    exact safe_ends later
  | line more taken filled short inside later =>
    rw [line] at taken
    obtain ⟨-, rfl⟩ := Prod.mk.inj (Option.some.inj taken)
    exact safe_ends later

end YuzuOS.Proofs.IniSafety
