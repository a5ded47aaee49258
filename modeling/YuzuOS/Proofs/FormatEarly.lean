import YuzuOS.Proofs.FormatBuffer

/-! The formatter of the early boot agrees with `vsnprintf` on the directives that both
have. They compute with numbers of 32 and of 64 bits, and choose the letters of digits
differently. -/

namespace YuzuOS.Proofs.FormatEarly
open YuzuOS.Library YuzuOS.Kernel FormatCursors FormatGrammar FormatBuffer

def earlyQualifiers : List (List (BitVec 8)) := [[], [byte 'h'], [byte 'l']]

def earlyConversions : List (BitVec 8) :=
  [byte 'c', byte 's', byte 'd', byte 'i', byte 'u', byte 'o', byte 'x', byte 'X', byte '%']

/-- The format strings of directives that both formatters have, with the arguments that they
read. The strings lie behind the first 4096 addresses. -/
inductive Early : List (BitVec 8) → VaList → Prop
  | done {ap : VaList} : Early [] ap
  | literal {c : BitVec 8} {rest : List (BitVec 8)} {ap : VaList} (plain : c ≠ byte '%') (tail : Early rest ap) :
      Early (c :: rest) ap
  | directive {head qualifier rest : List (BitVec 8)} {words : Nat} {c : BitVec 8} {ap : VaList} (opening : Head head words)
      (qualified : qualifier ∈ earlyQualifiers) (converts : c ∈ earlyConversions)
      (string : c = byte 's' → 4096 ≤ (ap words).toNat) (tail : Early rest (ap.skip (words + if c = byte '%' then 0 else 1))) :
      Early (byte '%' :: (head ++ (qualifier ++ c :: rest))) ap

variable {σ : Type} (cursor : Cursor 32 σ) {texts : Memory} {num : BitVec 32} {number : BitVec 64} {base : Nat}
  {field precision : Int32} {flags : FormatFlags} {out : σ}

theorem earlyQualifiers_qualifiers : ∀ qualifier ∈ earlyQualifiers, qualifier ∈ qualifiers := by decide

theorem earlyConversions_conversions : ∀ c ∈ earlyConversions, c ∈ conversions := by decide

/-- Digits depend on the digit function below the base only. -/
theorem numberDigits_congr {digit other : Nat → BitVec 8} (positive : 0 < base)
    (agree : ∀ index < base, digit index = other index) (turns value : Nat) :
    numberDigits digit base turns value = numberDigits other base turns value := by
  induction turns generalizing value with
  | zero => rfl
  | succ turns ih =>
    rw [numberDigits, numberDigits, agree _ (Nat.mod_lt _ positive), ih]

/-- The layout reads three of the flags, and puts the mark for hexadecimal numbers only. -/
theorem numberLayout_agree {first second : FormatFlags} (zeropad : first.zeropad = second.zeropad)
    (left : first.left = second.left) (special : first.special = second.special) {mark other : BitVec 8}
    (marks : base = 16 → mark = other) (sign : Option (BitVec 8)) (tmp : List (BitVec 8)) :
    numberLayout cursor sign mark tmp base field precision first out =
      numberLayout cursor sign other tmp base field precision second out := by
  by_cases hexadecimal : base = 16
  · simp only [numberLayout, zeropad, left, special, marks hexadecimal]
  · simp only [numberLayout, zeropad, left, special, hexadecimal, if_false]

/-- A number and its extension to 64 bits have the same sign and magnitude, the most negative one too. -/
theorem magnitude_signed (extended : number = num.signExtend 64) :
    number.toInt = num.toInt ∧ (if num.toInt < 0 then -number else number).toNat = (if num.toInt < 0 then -num else num).toNat := by
  have value : number.toInt = num.toInt := by rw [extended, BitVec.toInt_signExtend_of_le (by decide)]
  refine ⟨value, ?_⟩
  have wide := BitVec.toInt_eq_toNat_cond number
  have narrow := BitVec.toInt_eq_toNat_cond num
  have wideBound := number.isLt
  have narrowBound := num.isLt
  split
  · rw [BitVec.toNat_neg, BitVec.toNat_neg]
    split at wide
    · omega
    · split at narrow
      · omega
      · rw [Nat.mod_eq_of_lt (by omega), Nat.mod_eq_of_lt (by omega)]
        omega
  · split at wide
    · split at narrow
      · omega
      · omega
    · omega

/-- How the argument of a number in 64 bits extends the one in 32 bits. -/
def Extends (sign : Bool) (num : BitVec 32) (number : BitVec 64) : Prop :=
  number = if sign then num.signExtend 64 else num.setWidth 64

theorem numberDigits_agree {digit other : Nat → BitVec 8} (positive : 0 < base)
    (agree : ∀ index < base, digit index = other index) (same : number.toNat = num.toNat) :
    (if number = 0 then [byte '0'] else numberDigits digit base 64 number.toNat) =
      if num = 0 then [byte '0'] else numberDigits other base 64 num.toNat := by
  have zero : number = 0 ↔ num = 0 := by
    rw [← BitVec.toNat_inj, ← BitVec.toNat_inj, same]
    rfl
  rw [same, numberDigits_congr positive agree]
  by_cases none : num = 0
  · rw [if_pos none, if_pos (zero.mpr none)]
  · rw [if_neg none, if_neg (fun equal => none (zero.mp equal))]

theorem magnitude_agree {sign : Bool} (extended : Extends sign num number) :
    (if sign && decide (number.toInt < 0) then -number else number).toNat =
      (if sign && decide (num.toInt < 0) then -num else num).toNat := by
  unfold Extends at extended
  cases sign with
  | true =>
    obtain ⟨value, magnitude⟩ := magnitude_signed extended
    simpa [value] using magnitude
  | false =>
    have fits := num.isLt
    simp only [Bool.false_and, Bool.false_eq_true, if_false, extended, BitVec.toNat_setWidth]
    omega

theorem numberSign_agree (first second : FormatFlags) (sign : first.sign = second.sign)
    (plus : first.plus = second.plus) (space : first.space = second.space) (extended : Extends first.sign num number) :
    numberSign first (decide (number.toInt < 0)) = numberSign second (decide (num.toInt < 0)) := by
  unfold numberSign
  rw [← sign, ← plus, ← space]
  unfold Extends at extended
  cases signed : first.sign with
  | true =>
    rw [signed] at extended
    rw [(magnitude_signed extended).1]
  | false => simp only [Bool.false_eq_true, if_false]

theorem numberField_agree (base : Nat) (field : Int32) {first second : FormatFlags}
    (special : first.special = second.special) {negative other : Bool}
    (signs : numberSign first negative = numberSign second other) :
    numberField first negative base field = numberField second other base field := by
  unfold numberField
  rw [signs, special]

theorem number_agree (field precision : Int32) (out : σ) (flags : FormatFlags) {large small : Bool}
    (extended : Extends flags.sign num number) (positive : 0 < base)
    (digits : ∀ index < base, vsnprintfDigit large index = serialDigit { flags with large := false, small := small } index)
    (marks : base = 16 → vsnprintfDigit large 33 = byte 'X' ||| serialLocase { flags with large := false, small := small }) :
    vsnprintfNumber cursor number base field precision { flags with large := large, small := false } out =
      serialEarlyVsprintfNumber cursor num base field precision { flags with large := false, small := small } out := by
  have tmp := numberDigits_agree positive digits (magnitude_agree extended)
  unfold vsnprintfNumber serialEarlyVsprintfNumber
  cases left : flags.left with
  | true =>
    have signs := numberSign_agree { flags with zeropad := false, left := true, large := large, small := false }
      { flags with zeropad := false, left := true, large := false, small := small } rfl rfl rfl extended
    have fields := numberField_agree base field rfl signs
    simp only [if_true]
    rw [signs, fields]
    refine Eq.trans (congrArg (fun tmp => numberLayout cursor _ _ tmp base _ precision _ out) tmp) ?_
    exact numberLayout_agree cursor rfl rfl rfl marks _ _
  | false =>
    have signs := numberSign_agree { flags with left := false, large := large, small := false }
      { flags with left := false, large := false, small := small } rfl rfl rfl extended
    have fields := numberField_agree base field rfl signs
    simp only [Bool.false_eq_true, if_false]
    rw [signs, fields]
    refine Eq.trans (congrArg (fun tmp => numberLayout cursor _ _ tmp base _ precision _ out) tmp) ?_
    exact numberLayout_agree cursor rfl rfl rfl marks _ _

/-- Reading a directive sets no flag for the letters and no sign. -/
structure Bare (flags : FormatFlags) : Prop where
  sign : flags.sign = false
  large : flags.large = false
  small : flags.small = false

theorem formatFlags_bare (format : List (BitVec 8)) (bare : Bare flags) : Bare (formatFlags flags format).1 := by
  induction format generalizing flags with
  | nil => exact bare
  | cons c format ih =>
    rw [formatFlags]
    repeat' split
    · exact ih ⟨bare.sign, bare.large, bare.small⟩
    · exact ih ⟨bare.sign, bare.large, bare.small⟩
    · exact ih ⟨bare.sign, bare.large, bare.small⟩
    · exact ih ⟨bare.sign, bare.large, bare.small⟩
    · exact ih ⟨bare.sign, bare.large, bare.small⟩
    · exact bare

theorem formatField_bare {head : FormatHead} (bare : Bare head.flags) : Bare (formatField head).flags := by
  unfold formatField
  split
  · exact bare
  · split
    · exact bare
    · split
      · by_cases negative : head.ap.int < 0
        · simp only [negative, if_true]
          exact ⟨bare.sign, bare.large, bare.small⟩
        · simp only [negative, if_false]
          exact bare
      · exact bare

theorem formatPrecision_flags (head : FormatHead) : (formatPrecision head).flags = head.flags := by
  have value : ∀ head : FormatHead, (formatPrecisionValue head).flags = head.flags := by
    intro head
    unfold formatPrecisionValue
    split
    · rfl
    · split
      · rfl
      · split
        · rfl
        · rfl
  unfold formatPrecision
  split
  · rfl
  next format =>
    split
    · simp only
      split
      · exact value _
      · exact value _
    · rfl

theorem formatHead_bare (format : List (BitVec 8)) (ap : VaList) : Bare (formatHead format ap).flags := by
  unfold formatHead
  rw [formatPrecision_flags]
  exact formatField_bare (formatFlags_bare format ⟨rfl, rfl, rfl⟩)

inductive Twin : Qualifier → SerialQualifier → Prop
  | none : Twin .none .none
  | short : Twin .short .short
  | long : Twin .long .long

theorem argument_extends {kind : Qualifier} {serial : SerialQualifier} (twin : Twin kind serial) (sign : Bool)
    (ap : VaList) :
    Extends sign (serialArgument serial sign ap) (vsnprintfArgument kind sign ap) := by
  unfold Extends
  cases twin with
  | none => rfl
  | long => rfl
  | short =>
    cases sign with
    | true =>
      apply BitVec.eq_of_toInt_eq
      simp only [vsnprintfArgument, serialArgument, if_true]
      rw [BitVec.toInt_signExtend_of_le (by decide), BitVec.toInt_signExtend_of_le (by decide),
        BitVec.toInt_signExtend_of_le (by decide)]
    | false => simp [vsnprintfArgument, serialArgument]

theorem qualifier_agree {qualifier : List (BitVec 8)} (rest : List (BitVec 8)) {c : BitVec 8}
    (qualified : qualifier ∈ earlyQualifiers) (converts : c ∈ earlyConversions) :
    ∃ kind serial, Twin kind serial ∧ vsnprintfQualifier (qualifier ++ c :: rest) = (kind, c :: rest) ∧
      serialQualifier (qualifier ++ c :: rest) = (serial, c :: rest) := by
  have other : ∀ d ∈ earlyConversions, d ≠ byte 'h' ∧ d ≠ byte 'l' ∧ d ≠ byte 'L' ∧ d ≠ byte 'Z' ∧ d ≠ byte 'z' := by decide
  obtain ⟨h, l, L, Z, z⟩ := other c converts
  have letter : byte 'l' ≠ byte 'h' := by decide
  simp only [earlyQualifiers, List.mem_cons, List.not_mem_nil, or_false] at qualified
  rcases qualified with rfl | rfl | rfl
  · exact ⟨_, _, .none, by simp [vsnprintfQualifier, h, l, L, Z, z], by simp [serialQualifier, h, l, L]⟩
  · exact ⟨_, _, .short, rfl, rfl⟩
  · exact ⟨_, _, .long, by simp [vsnprintfQualifier, l, letter], by simp [serialQualifier, letter]⟩

theorem letters_agree (flags : FormatFlags) (small : Bool) :
    (∀ index < 16, vsnprintfDigit (!small) index = serialDigit { flags with large := false, small := small } index) ∧
      vsnprintfDigit (!small) 33 = byte 'X' ||| serialLocase { flags with large := false, small := small } := by
  cases small with
  | true =>
    have digits : ∀ index < 16, vsnprintfDigit false index =
        (if index < 10 then byte '0' + BitVec.ofNat 8 index else byte 'A' + BitVec.ofNat 8 (index - 10)) ||| 0x20 := by decide
    have mark : vsnprintfDigit false 33 = byte 'X' ||| 0x20 := by decide
    exact ⟨digits, mark⟩
  | false =>
    have digits : ∀ index < 16, vsnprintfDigit true index =
        (if index < 10 then byte '0' + BitVec.ofNat 8 index else byte 'A' + BitVec.ofNat 8 (index - 10)) ||| 0 := by decide
    have mark : vsnprintfDigit true 33 = byte 'X' ||| 0 := by decide
    exact ⟨digits, mark⟩

theorem figures_agree (flags : FormatFlags) (below : base ≤ 10) :
    ∀ index < base, vsnprintfDigit false index = serialDigit { flags with large := false, small := false } index := by
  have digits : ∀ index < 10, vsnprintfDigit false index =
      (if index < 10 then byte '0' + BitVec.ofNat 8 index else byte 'A' + BitVec.ofNat 8 (index - 10)) ||| 0 := by decide
  exact fun index inside => digits index (by omega)

def plainConversions : List (BitVec 8) := [byte 'c', byte 's', byte 'p', byte 'n', byte '%']

theorem vsnprintfConvert_number {kind : Qualifier} {head : FormatHead} {c : BitVec 8} (other : c ∉ plainConversions)
    (kindOf : vsnprintfBase head.flags c = some (base, flags)) (single : kind ≠ .longLong) (state : FormatState σ) :
    vsnprintfConvert cursor texts head kind c state =
      ⟨head.ap.skip 1, vsnprintfNumber cursor (vsnprintfArgument kind flags.sign head.ap) base head.field head.precision flags
        state.out, state.counts⟩ := by
  simp only [plainConversions, List.mem_cons, List.not_mem_nil, not_or, or_false] at other
  simp only [vsnprintfConvert, other, if_false, kindOf, single]

theorem serialConvert_number {serial : SerialQualifier} {head : FormatHead} {c : BitVec 8}
    (other : c ∉ plainConversions) (kindOf : serialBase head.flags c = some (base, flags)) (state : FormatState σ) :
    serialConvert cursor texts head serial c state =
      ⟨head.ap.skip 1, serialEarlyVsprintfNumber cursor (serialArgument serial flags.sign head.ap) base head.field
        head.precision flags state.out, state.counts⟩ := by
  simp only [plainConversions, List.mem_cons, List.not_mem_nil, not_or, or_false] at other
  simp only [serialConvert, other, if_false, kindOf]

theorem base_agree (bare : Bare flags) {c : BitVec 8} (converts : c ∈ earlyConversions) (other : c ∉ plainConversions) :
    ∃ base sign large small, 0 < base ∧
      vsnprintfBase flags c = some (base, { flags with sign := sign, large := large, small := false }) ∧
      serialBase flags c = some (base, { flags with sign := sign, large := false, small := small }) ∧
      (∀ index < base, vsnprintfDigit large index =
        serialDigit { flags with sign := sign, large := false, small := small } index) ∧
      (base = 16 → vsnprintfDigit large 33 =
        byte 'X' ||| serialLocase { flags with sign := sign, large := false, small := small }) := by
  obtain ⟨zeropad, sign, plus, space, left, special, large, small⟩ := flags
  obtain ⟨unsigned, lower, upper⟩ := bare
  simp only at unsigned lower upper
  subst unsigned lower upper
  simp only [earlyConversions, List.mem_cons, List.not_mem_nil, or_false] at converts
  rcases converts with rfl | rfl | rfl | rfl | rfl | rfl | rfl | rfl | rfl
  · exact absurd other (by decide)
  · exact absurd other (by decide)
  · exact ⟨10, true, false, false, by decide, rfl, rfl, figures_agree ⟨zeropad, true, plus, space, left, special, false, false⟩
      le_rfl, fun same => absurd same (by decide)⟩
  · exact ⟨10, true, false, false, by decide, rfl, rfl, figures_agree ⟨zeropad, true, plus, space, left, special, false, false⟩
      le_rfl, fun same => absurd same (by decide)⟩
  · exact ⟨10, false, false, false, by decide, rfl, rfl,
      figures_agree ⟨zeropad, false, plus, space, left, special, false, false⟩ le_rfl, fun same => absurd same (by decide)⟩
  · exact ⟨8, false, false, false, by decide, rfl, rfl,
      figures_agree ⟨zeropad, false, plus, space, left, special, false, false⟩ (by decide), fun same => absurd same (by decide)⟩
  · obtain ⟨digits, mark⟩ := letters_agree ⟨zeropad, false, plus, space, left, special, false, false⟩ true
    exact ⟨16, false, false, true, by decide, rfl, rfl, digits, fun _ => mark⟩
  · obtain ⟨digits, mark⟩ := letters_agree ⟨zeropad, false, plus, space, left, special, false, false⟩ false
    exact ⟨16, false, true, false, by decide, rfl, rfl, digits, fun _ => mark⟩
  · exact absurd other (by decide)

theorem convert_agree (texts : Memory) {kind : Qualifier} {serial : SerialQualifier} (twin : Twin kind serial)
    {head : FormatHead} (bare : Bare head.flags) {c : BitVec 8} (converts : c ∈ earlyConversions)
    (string : c = byte 's' → 4096 ≤ (head.ap 0).toNat) (state : FormatState σ) :
    vsnprintfConvert cursor texts head kind c state = serialConvert cursor texts head serial c state ∧
      (serialConvert cursor texts head serial c state).ap = head.ap.skip (if c = byte '%' then 0 else 1) := by
  by_cases plain : c ∈ plainConversions
  · simp only [plainConversions, List.mem_cons, List.not_mem_nil, or_false] at plain
    rcases plain with rfl | rfl | rfl | rfl | rfl
    · simp only [vsnprintfConvert, serialConvert, if_true]
      exact ⟨trivial, congrArg head.ap.skip (if_neg (by decide)).symm⟩
    · have real : ¬(head.ap 0).toNat < 4096 := Nat.not_lt.mpr (string rfl)
      have other : byte 's' ≠ byte 'c' := by decide
      simp only [vsnprintfConvert, serialConvert, other, real, if_false, if_true]
      exact ⟨trivial, congrArg head.ap.skip (if_neg (by decide)).symm⟩
    · exact absurd converts (by decide)
    · exact absurd converts (by decide)
    · obtain ⟨c, s, p, n⟩ : byte '%' ≠ byte 'c' ∧ byte '%' ≠ byte 's' ∧ byte '%' ≠ byte 'p' ∧ byte '%' ≠ byte 'n' := by decide
      simp only [vsnprintfConvert, serialConvert, c, s, p, n, if_false, if_true]
      exact ⟨trivial, (skip_zero head.ap).symm⟩
  · have single : kind ≠ .longLong := by cases twin <;> decide
    obtain ⟨base, sign, large, small, positive, later, early, digits, marks⟩ := base_agree bare converts plain
    have argument : c ≠ byte '%' := fun same => plain (same ▸ by decide)
    rw [vsnprintfConvert_number cursor plain later single, serialConvert_number cursor plain early, if_neg argument]
    have numbers := number_agree cursor head.field head.precision state.out
      { head.flags with sign := sign } (argument_extends twin sign head.ap) positive digits marks
    exact ⟨congrArg (fun out => (⟨head.ap.skip 1, out, state.counts⟩ : FormatState σ)) numbers, rfl⟩

theorem loop_agree {format : List (BitVec 8)} {ap : VaList} (early : Early format ap) {turns : Nat}
    (enough : format.length ≤ turns) (state : FormatState σ) (reads : state.ap = ap) :
    vsnprintfLoop cursor texts turns format state = some (serialLoop cursor texts turns format state) := by
  induction early generalizing turns state with
  | done => cases turns <;> rfl
  | literal plain tail ih =>
    cases turns with
    | zero => simp at enough
    | succ turns =>
      rw [vsnprintfLoop, serialLoop, if_pos plain, if_pos plain]
      exact ih (by simpa using enough) _ reads
  | @directive head qualifier rest words c ap opening qualified converts string tail ih =>
    cases turns with
    | zero => simp at enough
    | succ turns =>
      subst reads
      obtain ⟨d, more, starts, plain⟩ := qualifier_starts rest (earlyQualifiers_qualifiers _ qualified)
        (earlyConversions_conversions _ converts)
      obtain ⟨kind, serial, twin, later, sooner⟩ := qualifier_agree rest qualified converts
      obtain ⟨opened, left⟩ := formatHead_read more state.ap opening plain
      have bare := formatHead_bare (head ++ d :: more) state.ap
      have same := convert_agree cursor texts twin bare converts
        (fun s => by rw [left]; simpa [VaList.skip] using string s) state
      rw [vsnprintfLoop, serialLoop, if_neg (by simp), if_neg (by simp), starts]
      simp only [opened]
      rw [← starts, later, sooner]
      simp only [starts]
      rw [same.1]
      refine ih ?_ _ ?_
      · simp only [List.length_cons, List.length_append] at enough
        omega
      · rw [same.2, left, skip_skip]

theorem Early.complete {format : List (BitVec 8)} {ap : VaList} (early : Early format ap) : Complete format := by
  induction early with
  | done => exact .done
  | literal plain tail ih => exact .literal plain ih
  | directive opening qualified converts string tail ih =>
    exact .directive opening (earlyQualifiers_qualifiers _ qualified) (earlyConversions_conversions _ converts) ih

theorem serial_whole {format : List (BitVec 8)} {ap : VaList} (early : Early format ap) (str : BitVec 32) :
    serialEarlyVsprintf texts str format ap =
      ⟨Int32.ofNat (wholeText texts format ap).length,
        ⟨str + BitVec.ofNat 32 (wholeText texts format ap).length, (str + BitVec.ofNat 32 (wholeText texts format ap).length, 0) ::
          ((Sink.cursor (fun _ => true) str).emit (wholeText texts format ap) ⟨str, []⟩).stores⟩,
        wholeCounts texts format ap⟩ := by
  obtain ⟨last, run⟩ := vsnprintfLoop_complete (Cursor.text 32) texts early.complete le_rfl ⟨ap, [], []⟩
  have whole : wholeRun texts format ap = some last := run
  have maps := Sink.maps_text (fun _ => true) str
  have mapped : vsnprintfLoop (Sink.cursor (fun _ => true) str) texts format.length format ⟨ap, ⟨str, []⟩, []⟩ = _ :=
    vsnprintfLoop_map maps texts format.length format ⟨ap, [], []⟩
  rw [run, loop_agree _ early le_rfl _ rfl] at mapped
  have state := Option.some.inj mapped
  unfold serialEarlyVsprintf
  simp only [state, mapOut, emit_stop, wholeText, wholeCounts, whole, Option.map_some, Option.getD_some]
  rw [BitVec.add_comm, BitVec.add_sub_cancel]
  rfl

/-- Both formatters return the length of the same text and store the text and a `NUL`. -/
theorem formatters_agree (texts : Memory) {format : List (BitVec 8)} {ap : VaList} {str size : BitVec 32}
    (other : BitVec 32) (early : Early format ap) (buffer : Buffer str size)
    (enough : (wholeText texts format ap).length < size.toNat) :
    ∃ result, vsnprintf texts str size format ap = some result ∧
      result.length = (serialEarlyVsprintf texts other format ap).length ∧
      ∀ index ≤ (wholeText texts format ap).length,
        result.sink.content (str + BitVec.ofNat 32 index) = (wholeText texts format ap ++ [0])[index]? ∧
          (serialEarlyVsprintf texts other format ap).sink.content (other + BitVec.ofNat 32 index) =
            (wholeText texts format ap ++ [0])[index]? := by
  have contained := contained_of_short buffer enough
  have bound := size.isLt
  have short : (wholeText texts format ap).length < 2 ^ 32 := by omega
  refine ⟨_, vsnprintf_whole early.complete buffer, by rw [serial_whole early other], fun index inside => ?_⟩
  rw [serial_whole early other]
  rcases Nat.lt_or_eq_of_le inside with within | rfl
  · rw [List.getElem?_append_left within, List.getElem?_eq_getElem within]
    refine ⟨bufferAfter_text buffer short within (by omega), ?_⟩
    have apart : (other + BitVec.ofNat 32 index == other + BitVec.ofNat 32 (wholeText texts format ap).length) = false := by
      rw [beq_eq_false_iff_ne]
      intro same
      have offsets := congrArg BitVec.toNat (BitVec.add_right_inj other |>.mp same)
      rw [BitVec.toNat_ofNat, BitVec.toNat_ofNat, Nat.mod_eq_of_lt (by omega), Nat.mod_eq_of_lt short] at offsets
      omega
    unfold Sink.content
    rw [List.lookup_cons, apart]
    exact Sink.emit_content _ _ ⟨other, []⟩ short.le within rfl
  · have last := contained.terminated
    rw [show min (wholeText texts format ap).length (size.toNat - 1) = (wholeText texts format ap).length by omega] at last
    rw [List.getElem?_append_right le_rfl, Nat.sub_self]
    refine ⟨last, ?_⟩
    simp [Sink.content]

/-- `"%+3d%*s"` -/
def sampleFormat : List (BitVec 8) := [byte '%', byte '+', byte '3', byte 'd', byte '%', byte '*', byte 's']

def sampleArguments : VaList := fun index => if index = 1 then 5 else 0x2000

theorem sampleFormat_early : Early sampleFormat sampleArguments := by
  have sign : Head ([byte '+'] ++ ([byte '3'] ++ [])) (0 + 0) := .intro (by decide) (.digits rfl (by decide) (by decide)) .absent
  have star : Head ([] ++ ([byte '*'] ++ [])) (1 + 0) := .intro (by decide) .argument .absent
  have string : Early (byte '%' :: ([byte '*'] ++ ([] ++ byte 's' :: []))) (sampleArguments.skip 1) :=
    .directive star (by decide) (by decide) (fun _ => by decide) .done
  exact .directive sign List.mem_cons_self (by decide) (fun same => absurd same (by decide)) string

/-- A call with a number, a width taken from the arguments and a string. -/
theorem formatters_agree_example :
    ∃ result, vsnprintf (fun _ => 0) 0x1000 64 sampleFormat sampleArguments = some result ∧
      result.length = (serialEarlyVsprintf (fun _ => 0) 0x8000 sampleFormat sampleArguments).length ∧
      ∀ index ≤ (wholeText (fun _ => 0) sampleFormat sampleArguments).length,
        result.sink.content (0x1000 + BitVec.ofNat 32 index) =
            (wholeText (fun _ => 0) sampleFormat sampleArguments ++ [0])[index]? ∧
          (serialEarlyVsprintf (fun _ => 0) 0x8000 sampleFormat sampleArguments).sink.content (0x8000 + BitVec.ofNat 32 index) =
            (wholeText (fun _ => 0) sampleFormat sampleArguments ++ [0])[index]? :=
  formatters_agree (fun _ => 0) 0x8000 sampleFormat_early ⟨by decide, by decide⟩ (by decide +kernel)

end YuzuOS.Proofs.FormatEarly
