import YuzuOS.Proofs.FormatPieces

/-! How far `vsnprintf` reads a format. A `NUL` ends every part of a directive, but a
format that ends within one is read on behind it. -/

namespace YuzuOS.Proofs.FormatScan
open YuzuOS.Library YuzuOS.Kernel YuzuOS.Proofs.FormatGrammar YuzuOS.Proofs.FormatPieces

variable {format rest behind : List (BitVec 8)} {c : BitVec 8} {flags : FormatFlags} {head : FormatHead} {ap : VaList}

/-- A format that does not end within a directive. -/
inductive Finished : List (BitVec 8) → Prop
  | done : Finished []
  | literal {c : BitVec 8} {rest : List (BitVec 8)} (plain : c ≠ byte '%') (tail : Finished rest) : Finished (c :: rest)
  | directive {format rest : List (BitVec 8)} {qualifier : Qualifier} {c : BitVec 8}
      (read : ∀ ap, vsnprintfQualifier (formatHead format ap).format = (qualifier, c :: rest)) (tail : Finished rest) :
      Finished (byte '%' :: format)

/-! ### The parts of a directive in front of a `NUL` -/

theorem formatFlags_nul (flags : FormatFlags) (format : List (BitVec 8)) :
    formatFlags flags (format ++ 0 :: behind) =
      ((formatFlags flags format).1, (formatFlags flags format).2 ++ 0 :: behind) := by
  induction format generalizing flags with
  | nil => rfl
  | cons c format ih =>
    rw [List.cons_append, formatFlags, formatFlags]
    split
    next => exact ih _
    split
    next => exact ih _
    split
    next => exact ih _
    split
    next => exact ih _
    split
    next => exact ih _
    next => rfl

theorem formatAtoi_nul (i : Int32) (format : List (BitVec 8)) :
    formatAtoi i (format ++ 0 :: behind) = ((formatAtoi i format).1, (formatAtoi i format).2 ++ 0 :: behind) := by
  induction format generalizing i with
  | nil => rfl
  | cons c format ih =>
    rw [List.cons_append, formatAtoi, formatAtoi]
    split
    next => exact ih _
    next => rfl

def more (head : FormatHead) (behind : List (BitVec 8)) : FormatHead :=
  { head with format := head.format ++ 0 :: behind }

theorem formatField_nul (head : FormatHead) (behind : List (BitVec 8)) :
    formatField (more head behind) = more (formatField head) behind := by
  obtain ⟨flags, field, precision, format, ap⟩ := head
  cases format with
  | nil => rfl
  | cons c format =>
    by_cases digit : isdigit c
    · simp only [formatField, more, List.cons_append, if_pos digit]
      rw [← List.cons_append, formatAtoi_nul]
    by_cases star : c = byte '*'
    · simp only [formatField, more, List.cons_append, if_neg digit, if_pos star]
      by_cases negative : ap.int < 0
      · simp only [if_pos negative]
        exact if_pos negative
      · simp only [if_neg negative]
        exact if_neg negative
    · simp only [formatField, more, List.cons_append, if_neg digit, if_neg star]

theorem formatPrecisionValue_nul (head : FormatHead) (behind : List (BitVec 8)) :
    formatPrecisionValue (more head behind) = more (formatPrecisionValue head) behind := by
  obtain ⟨flags, field, precision, format, ap⟩ := head
  cases format with
  | nil => rfl
  | cons c format =>
    simp only [formatPrecisionValue, more, List.cons_append]
    split
    next => simp only [← List.cons_append, formatAtoi_nul]
    next =>
      split
      · rfl
      · rfl

theorem formatPrecision_nul (head : FormatHead) (behind : List (BitVec 8)) :
    formatPrecision (more head behind) = more (formatPrecision head) behind := by
  obtain ⟨flags, field, precision, format, ap⟩ := head
  cases format with
  | nil => rfl
  | cons c format =>
    by_cases dot : c = byte '.'
    · have value := formatPrecisionValue_nul ⟨flags, field, precision, format, ap⟩ behind
      simp only [formatPrecision, more, List.cons_append, if_pos dot]
      simp only [more] at value
      simp only [value]
      by_cases negative : (formatPrecisionValue ⟨flags, field, precision, format, ap⟩).precision < 0
      · simp only [if_pos negative]
      · simp only [if_neg negative]
    · simp only [formatPrecision, more, List.cons_append, if_neg dot]

theorem formatHead_nul (format behind : List (BitVec 8)) (ap : VaList) :
    formatHead (format ++ 0 :: behind) ap = more (formatHead format ap) behind := by
  have field := formatField_nul ⟨(formatFlags .none format).1, -1, -1, (formatFlags .none format).2, ap⟩ behind
  rw [formatHead, formatFlags_nul]
  exact (congrArg formatPrecision field).trans (formatPrecision_nul _ behind)

theorem vsnprintfQualifier_nul (format behind : List (BitVec 8)) :
    vsnprintfQualifier (format ++ 0 :: behind) =
      ((vsnprintfQualifier format).1, (vsnprintfQualifier format).2 ++ 0 :: behind) := by
  cases format with
  | nil => rfl
  | cons c format =>
    cases format with
    | nil =>
      simp only [vsnprintfQualifier, List.cons_append, List.nil_append]
      split_ifs
      all_goals first | rfl | contradiction
    | cons d format =>
      simp only [vsnprintfQualifier, List.cons_append]
      split_ifs
      all_goals rfl

/-! ### What is left of a directive depends on its characters alone -/

theorem formatField_format {other : FormatHead} (same : head.format = other.format) :
    (formatField head).format = (formatField other).format := by
  obtain ⟨flags, field, precision, format, ap⟩ := head
  obtain ⟨flags', field', precision', format', ap'⟩ := other
  obtain rfl : format = format' := same
  cases format with
  | nil => rfl
  | cons c format =>
    simp only [formatField]
    split_ifs
    all_goals rfl

theorem formatPrecisionValue_format {other : FormatHead} (same : head.format = other.format) :
    (formatPrecisionValue head).format = (formatPrecisionValue other).format := by
  obtain ⟨flags, field, precision, format, ap⟩ := head
  obtain ⟨flags', field', precision', format', ap'⟩ := other
  obtain rfl : format = format' := same
  cases format with
  | nil => rfl
  | cons c format =>
    simp only [formatPrecisionValue]
    split_ifs
    all_goals rfl

theorem formatPrecision_format {other : FormatHead} (same : head.format = other.format) :
    (formatPrecision head).format = (formatPrecision other).format := by
  have point (head : FormatHead) {c : BitVec 8} {format : List (BitVec 8)} (reads : head.format = c :: format) (dot : c = byte '.') :
      (formatPrecision head).format = (formatPrecisionValue { head with format }).format := by
    simp only [formatPrecision, reads, if_pos dot]
    split
    · rfl
    · rfl
  have none (head : FormatHead) {c : BitVec 8} {format : List (BitVec 8)} (reads : head.format = c :: format) (dot : c ≠ byte '.') :
      formatPrecision head = head := by simp only [formatPrecision, reads, if_neg dot]
  cases reads : head.format with
  | nil => simp only [formatPrecision, reads, ← same]
  | cons c format =>
    have reads' := same.symm.trans reads
    by_cases dot : c = byte '.'
    · rw [point head reads dot, point other reads' dot]
      exact formatPrecisionValue_format rfl
    · rw [none head reads dot, none other reads' dot, same]

theorem formatHead_format (format : List (BitVec 8)) (ap ap' : VaList) :
    (formatHead format ap).format = (formatHead format ap').format :=
  formatPrecision_format (formatField_format rfl)

theorem directive_nul (format behind : List (BitVec 8)) (ap : VaList) :
    vsnprintfQualifier (formatHead (format ++ 0 :: behind) ap).format =
      ((vsnprintfQualifier (formatHead format ap).format).1, (vsnprintfQualifier (formatHead format ap).format).2 ++ 0 :: behind) := by
  rw [formatHead_nul]
  exact vsnprintfQualifier_nul _ _

/-! ### The scan -/

section
variable {σ : Type} (cursor : Cursor 32 σ) (texts : Memory)

/-- The loop with an unfinished directive handled as by the loop of the serial port. -/
def vsnprintfEnded : Nat → List (BitVec 8) → FormatState σ → FormatState σ
  | _, [], state => state
  | 0, _ :: _, state => state
  | turns + 1, c :: format, state =>
    if c ≠ byte '%' then vsnprintfEnded turns format { state with out := cursor.put c state.out }
    else
      let head := formatHead format state.ap
      match vsnprintfQualifier head.format with
      | (_, []) => { state with ap := head.ap, out := cursor.put (byte '%') state.out }
      | (qualifier, c :: format) => vsnprintfEnded turns format (vsnprintfConvert cursor texts head qualifier c state)

/-- The scan ends at the `NUL` behind the format, with what lies behind it not read. -/
def Scans (format behind : List (BitVec 8)) (state : FormatState σ) : Prop :=
  ∃ turns, vsnprintfMemory cursor texts turns (format ++ 0 :: behind) state =
    some (vsnprintfEnded cursor texts format.length format state, behind)

variable {cursor texts} {state last : FormatState σ}

theorem vsnprintfMemory_rest {turns : Nat} {bytes : List (BitVec 8)}
    (run : vsnprintfMemory cursor texts turns bytes state = some (last, rest)) : rest.length < bytes.length := by
  induction turns generalizing bytes state with
  | zero => cases run
  | succ turns ih =>
    cases bytes with
    | nil => cases run
    | cons c bytes =>
      rw [vsnprintfMemory] at run
      split_ifs at run with stop plain
      · obtain ⟨-, rfl⟩ := Option.some.inj run
        exact Nat.lt_succ_self _
      · exact (ih run).trans (Nat.lt_succ_self _)
      · have takes := (directive_takes bytes state.ap).length
        simp only at run
        split at run
        next => cases run
        next qualifier d format reads =>
          rw [reads, List.length_cons] at takes
          split at run
          next =>
            have below := ih run
            rw [List.length_drop] at below
            rw [List.length_cons]
            omega
          next =>
            have below := ih run
            rw [List.length_cons]
            omega

theorem directive_ended {qualifier : Qualifier}
    (read : vsnprintfQualifier (formatHead format ap).format = (qualifier, c :: rest)) (ended : 0 ∉ format) :
    c ≠ 0 ∧ 0 ∉ rest := by
  obtain ⟨taken, same, -⟩ := directive_takes format ap
  rw [read] at same
  rw [same, List.mem_append, List.mem_cons] at ended
  push Not at ended
  exact ⟨ended.2.1.symm, ended.2.2⟩

theorem scan_finished (finished : Finished format) (ended : 0 ∉ format) {turns : Nat} (enough : format.length < turns)
    {bound : Nat} (long : format.length ≤ bound) :
    vsnprintfMemory cursor texts turns (format ++ 0 :: behind) state =
      some (vsnprintfEnded cursor texts bound format state, behind) := by
  induction finished generalizing state turns bound with
  | done =>
    obtain ⟨turns, rfl⟩ := Nat.exists_eq_succ_of_ne_zero (Nat.ne_of_gt enough)
    rw [List.nil_append, vsnprintfMemory, if_pos rfl]
    cases bound with
    | zero => rfl
    | succ bound => rfl
  | @literal c rest plain tail ih =>
    obtain ⟨turns, rfl⟩ := Nat.exists_eq_succ_of_ne_zero (Nat.ne_of_gt (Nat.zero_lt_of_lt enough))
    obtain ⟨bound, rfl⟩ := Nat.exists_eq_succ_of_ne_zero (Nat.ne_of_gt (Nat.zero_lt_of_lt long))
    rw [List.mem_cons, not_or] at ended
    rw [List.cons_append, vsnprintfMemory, if_neg (Ne.symm ended.1), if_pos plain, vsnprintfEnded, if_pos plain]
    exact ih ended.2 (Nat.lt_of_succ_lt_succ enough) (Nat.le_of_succ_le_succ long)
  | @directive format rest qualifier c read tail ih =>
    obtain ⟨turns, rfl⟩ := Nat.exists_eq_succ_of_ne_zero (Nat.ne_of_gt (Nat.zero_lt_of_lt enough))
    obtain ⟨bound, rfl⟩ := Nat.exists_eq_succ_of_ne_zero (Nat.ne_of_gt (Nat.zero_lt_of_lt long))
    rw [List.mem_cons, not_or] at ended
    have takes := (directive_takes format state.ap).length
    rw [read, List.length_cons] at takes
    rw [List.length_cons] at enough long
    obtain ⟨nonzero, others⟩ := directive_ended (read state.ap) ended.2
    rw [List.cons_append, vsnprintfMemory, if_neg (by decide), if_neg (not_not_intro rfl), vsnprintfEnded, if_neg (not_not_intro rfl)]
    simp only [directive_nul, read, List.cons_append, if_neg nonzero]
    rw [formatHead_nul]
    exact ih others (by omega) (by omega)

/-- A format that ends within a directive is read on behind its `NUL`. -/
theorem scan_unfinished (unfinished : ¬Finished format) (ended : 0 ∉ format) {turns : Nat}
    (run : vsnprintfMemory cursor texts turns (format ++ 0 :: behind) state = some (last, rest)) :
    rest.length < behind.length := by
  induction turns generalizing format state with
  | zero => cases run
  | succ turns ih =>
    cases format with
    | nil => exact absurd .done unfinished
    | cons c format =>
      rw [List.mem_cons, not_or] at ended
      rw [List.cons_append, vsnprintfMemory, if_neg (Ne.symm ended.1)] at run
      by_cases plain : c ≠ byte '%'
      · rw [if_pos plain] at run
        exact ih (fun finished => unfinished (.literal plain finished)) ended.2 run
      obtain rfl := not_not.mp plain
      rw [if_neg plain] at run
      simp only [directive_nul] at run
      match read : vsnprintfQualifier (formatHead format state.ap).format with
      | (qualifier, []) =>
        -- the scan steps over the `NUL` and over the byte behind it
        rw [read] at run
        have below := vsnprintfMemory_rest run
        rw [List.length_drop] at below
        omega
      | (qualifier, d :: others) =>
        obtain ⟨nonzero, rest⟩ := directive_ended read ended.2
        simp only [read, List.cons_append, if_neg nonzero] at run
        have reads (ap : VaList) : vsnprintfQualifier (formatHead format ap).format = (qualifier, d :: others) := by
          rw [formatHead_format format ap state.ap, read]
        exact ih (fun finished => unfinished (.directive reads finished)) rest run

theorem vsnprintf_scan_iff (cursor : Cursor 32 σ) (texts : Memory) (behind : List (BitVec 8)) (state : FormatState σ)
    (ended : 0 ∉ format) :
    Scans cursor texts format behind state ↔ Finished format := by
  constructor
  · intro ⟨turns, run⟩
    by_contra unfinished
    exact Nat.lt_irrefl _ (scan_unfinished unfinished ended run)
  · intro finished
    exact ⟨format.length + 1, scan_finished finished ended (Nat.lt_succ_self _) le_rfl⟩

theorem vsnprintf_scan_example : Finished [byte '%', byte 'd'] ∧
    Scans (Sink.cursor (fun _ => true) 4096) (fun _ => 0) [byte '%', byte 'd'] [byte 'x'] ⟨fun _ => 7, ⟨4096, []⟩, []⟩ := by
  have finished : Finished [byte '%', byte 'd'] := .directive (fun _ => rfl) .done
  exact ⟨finished, (vsnprintf_scan_iff _ _ _ _ (by decide)).mpr finished⟩

/-- Of the bytes `"%\0xy\0"` the scan of `"%"` reads the last two. -/
theorem vsnprintf_reads_on :
    0 ∉ [byte '%'] ∧
      ¬Scans (Sink.cursor (fun _ => true) 4096) (fun _ => 0) [byte '%'] [byte 'x', byte 'y', 0] ⟨fun _ => 7, ⟨4096, []⟩, []⟩ ∧
      (vsnprintfMemory (Sink.cursor (fun _ => true) 4096) (fun _ => 0) 4 [byte '%', 0, byte 'x', byte 'y', 0]
        ⟨fun _ => 7, ⟨4096, []⟩, []⟩).map (fun run => (run.1.out.stores, run.2)) =
        some ([(4097, byte 'y'), (4096, byte '%')], []) := by
  refine ⟨by decide, ?_, by decide +kernel⟩
  intro ⟨turns, run⟩
  refine Nat.lt_irrefl _ (scan_unfinished (fun finished => ?_) (by decide) run)
  cases finished with
  | literal plain tail => exact plain rfl
  | directive read tail => cases read fun _ => 0

end

end YuzuOS.Proofs.FormatScan
