import Mathlib.Data.Nat.Digits.Defs
import YuzuOS.Proofs.FormatBuffer

/-! The text of a number: spaces, sign, prefix, zeros, digits and spaces, as long as the
field asks for. The digits read back in the base give the number. -/

namespace YuzuOS.Proofs.NumberLayout
open YuzuOS.Library YuzuOS.Kernel YuzuOS.Proofs.FormatCursors YuzuOS.Proofs.FormatBuffer

variable {c : BitVec 8} {bound field precision : Int32} {out : List (BitVec 8)} {base : Nat}

/-! ### Padding -/

theorem toInt_pred (above : -2 ^ 31 < field.toInt) : (field - 1).toInt = field.toInt - 1 := by
  have high := Int32.toInt_lt field
  rw [Int32.toInt_sub, show (1 : Int32).toInt = 1 from rfl, Int.bmod_eq_of_le (by omega) (by omega)]

/-- The bytes of a loop that counts a field down to a bound. -/
theorem padWhile_text (c : BitVec 8) (bound field : Int32) (out : List (BitVec 8)) :
    (padWhile (Cursor.text 32) c bound field out).2 = out ++ List.replicate (field.toInt - bound.toInt).toNat c := by
  induction field, out using padWhile.induct (Cursor.text 32) c bound with
  | case1 field out above ih =>
    have order := Int32.lt_iff_toInt_lt.mp above
    have one : (field.toInt - bound.toInt).toNat = ((field - 1).toInt - bound.toInt).toNat + 1 := by
      rw [toInt_sub_one above]
      omega
    rw [padWhile, if_pos above, ih, one, List.replicate_succ]
    exact List.append_assoc _ _ _
  | case2 field out stop =>
    have order : ¬bound.toInt < field.toInt := fun above => stop (Int32.lt_iff_toInt_lt.mpr above)
    have none : (field.toInt - bound.toInt).toNat = 0 := by omega
    rw [padWhile, if_neg stop, none, List.replicate_zero, List.append_nil]

theorem padWhile_field (c : BitVec 8) (field : Int32) (out : List (BitVec 8)) (above : -2 ^ 31 < field.toInt) :
    (padWhile (Cursor.text 32) c 0 field out).1.toInt = min field.toInt 0 - 1 := by
  have zero : (0 : Int32).toInt = 0 := rfl
  induction field, out using padWhile.induct (Cursor.text 32) c 0 with
  | case1 field out positive ih =>
    have order := Int32.lt_iff_toInt_lt.mp positive
    have less := toInt_pred above
    rw [padWhile, if_pos positive, ih (by omega)]
    omega
  | case2 field out stop =>
    have order : ¬(0 : Int32).toInt < field.toInt := fun above => stop (Int32.lt_iff_toInt_lt.mpr above)
    rw [padWhile, if_neg stop, toInt_pred above]
    omega

/-! ### The layout -/

def numberPrefix (mark : BitVec 8) (base : Nat) (flags : FormatFlags) : List (BitVec 8) :=
  if flags.special then if base = 8 then [byte '0'] else if base = 16 then [byte '0', mark] else [] else []

/-- The padding of a given width in front of the sign, behind the prefix, and at the end. -/
def frontSpaces (flags : FormatFlags) (width : Nat) : List (BitVec 8) :=
  if flags.left ∨ flags.zeropad then [] else List.replicate width (byte ' ')

def innerZeros (flags : FormatFlags) (width : Nat) : List (BitVec 8) :=
  if flags.zeropad ∧ ¬flags.left then List.replicate width (byte '0') else []

def endSpaces (flags : FormatFlags) (width : Nat) : List (BitVec 8) :=
  if flags.left then List.replicate width (byte ' ') else []

theorem numberPrefix_put (mark : BitVec 8) (base : Nat) (flags : FormatFlags) (out : List (BitVec 8)) :
    (if flags.special then
      if base = 8 then (Cursor.text 32).put (byte '0') out
      else if base = 16 then (Cursor.text 32).put mark ((Cursor.text 32).put (byte '0') out)
      else out
    else out) = out ++ numberPrefix mark base flags := by
  rw [numberPrefix]
  split
  · split
    · rfl
    · split
      · exact List.append_assoc _ _ _
      · exact (List.append_nil out).symm
  · exact (List.append_nil out).symm

theorem numberLayout_text {tmp : List (BitVec 8)} {width : Nat} (sign : Option (BitVec 8)) (mark : BitVec 8)
    (base : Nat) (flags : FormatFlags) (short : tmp.length < 2 ^ 31)
    (low : -2 ^ 31 + 2 < field.toInt - max (tmp.length : Int) precision.toInt)
    (wide : width = (field.toInt - max (tmp.length : Int) precision.toInt).toNat) (out : List (BitVec 8)) :
    numberLayout (Cursor.text 32) sign mark tmp base field precision flags out =
      out ++ (frontSpaces flags width ++ (sign.toList ++ numberPrefix mark base flags ++ (innerZeros flags width ++
        (List.replicate (precision.toInt - tmp.length).toNat (byte '0') ++ (tmp.reverse ++ endSpaces flags width))))) := by
  have value : (Int32.ofNat tmp.length).toInt = tmp.length := Int32.toInt_ofNat_of_lt short
  obtain ⟨exact, chosen⟩ : ∃ exact : Int32,
      exact = if precision < Int32.ofNat tmp.length then Int32.ofNat tmp.length else precision := ⟨_, rfl⟩
  have most : exact.toInt = max (tmp.length : Int) precision.toInt := by
    rw [chosen]
    split
    next less =>
      have order := Int32.lt_iff_toInt_lt.mp less
      omega
    next less =>
      have order : ¬precision.toInt < (Int32.ofNat tmp.length).toInt := fun below => less (Int32.lt_iff_toInt_lt.mpr below)
      omega
  obtain ⟨rest, left⟩ : ∃ rest : Int32, rest = field - exact := ⟨_, rfl⟩
  have high := Int32.toInt_lt field
  have remains : rest.toInt = field.toInt - max (tmp.length : Int) precision.toInt := by
    rw [left, Int32.toInt_sub, most, Int.bmod_eq_of_le (by omega) (by omega)]
  have zeros : (exact.toInt - tmp.length).toNat = (precision.toInt - tmp.length).toNat := by omega
  have zero : (0 : Int32).toInt = 0 := rfl
  rw [← remains] at wide low
  -- behind the first of the loops that pad the field is used up
  have used (c : BitVec 8) (out : List (BitVec 8)) : (padWhile (Cursor.text 32) c 0 rest out).1.toInt ≤ 0 ∧
      -2 ^ 31 < (padWhile (Cursor.text 32) c 0 rest out).1.toInt := by
    rw [padWhile_field c rest out (by omega)]
    omega
  have again (c d : BitVec 8) (out more : List (BitVec 8)) :
      (padWhile (Cursor.text 32) c 0 (padWhile (Cursor.text 32) d 0 rest out).1 more).1.toInt ≤ 0 := by
    rw [padWhile_field c _ more (used d out).2]
    omega
  have none {field : Int32} (low : field.toInt ≤ 0) : field.toInt.toNat = 0 := Int.toNat_of_nonpos low
  unfold numberLayout
  simp only [← chosen, ← left]
  cases sign
  all_goals
    cases aligned : flags.left with
    | true =>
      simp only [frontSpaces, innerZeros, endSpaces, aligned, Bool.or_true, Bool.not_true, Bool.false_eq_true, if_false, if_true, true_or,
        not_true_eq_false, and_false, numberPrefix_put, padWhile_text, value, zeros, Cursor.emit_text, ← wide, zero, Int.sub_zero,
        List.append_assoc, List.nil_append]
      first
        | rfl
        | exact List.append_assoc out _ _
    | false =>
      cases padded : flags.zeropad with
      | true =>
        simp only [frontSpaces, innerZeros, endSpaces, aligned, padded, Bool.or_false, Bool.not_true, Bool.not_false, Bool.false_eq_true,
          if_false, if_true, or_true, not_false_eq_true, and_true, numberPrefix_put, padWhile_text, value, zeros, Cursor.emit_text, ← wide,
          zero, Int.sub_zero, List.append_assoc, List.nil_append, none (used _ _).1, List.replicate_zero, List.append_nil]
        first
          | rfl
          | exact List.append_assoc out _ _
      | false =>
        simp only [frontSpaces, innerZeros, endSpaces, aligned, padded, Bool.or_false, Bool.not_false, Bool.false_eq_true,
          if_false, if_true, or_false, false_and, numberPrefix_put, padWhile_text, value, zeros, Cursor.emit_text, ← wide,
          zero, Int.sub_zero, List.append_assoc, List.nil_append, none (used _ _).1, none (again _ _ _ _), List.replicate_zero, List.append_nil]
        first
          | rfl
          | exact (List.append_assoc _ _ _).trans (List.append_assoc out _ _)

/-! ### The digits -/

def digitValue (c : BitVec 8) : Nat :=
  if isdigit c then (c - byte '0').toNat
  else if byte 'A' ≤ c ∧ c ≤ byte 'Z' then (c - byte 'A').toNat + 10
  else (c - byte 'a').toNat + 10

/-- What a row of digits stands for, the first digit the highest. -/
def readNumber (base : Nat) (digits : List (BitVec 8)) : Nat :=
  digits.foldl (fun number c => number * base + digitValue c) 0

theorem digitValue_digit : ∀ large, ∀ index < 36, digitValue (vsnprintfDigit large index) = index := by decide

theorem readNumber_append (base : Nat) (digits : List (BitVec 8)) (c : BitVec 8) :
    readNumber base (digits ++ [c]) = readNumber base digits * base + digitValue c := by
  rw [readNumber, List.foldl_append]
  rfl

/-- Enough turns take all digits, and they stand for the number. -/
theorem numberDigits_read (large : Bool) (atLeast : 2 ≤ base) (atMost : base ≤ 36) {turns number : Nat}
    (enough : number < base ^ turns) :
    readNumber base (numberDigits (vsnprintfDigit large) base turns number).reverse = number ∧
      (numberDigits (vsnprintfDigit large) base turns number).length ≤ turns := by
  induction turns generalizing number with
  | zero =>
    obtain rfl : number = 0 := Nat.lt_one_iff.mp enough
    exact ⟨rfl, le_rfl⟩
  | succ turns ih =>
    rw [numberDigits]
    split
    next zero => exact ⟨zero.symm, Nat.zero_le _⟩
    next more =>
      have positive : 0 < base := by omega
      have fewer : number / base < base ^ turns := Nat.div_lt_of_lt_mul (by rwa [Nat.pow_succ, Nat.mul_comm] at enough)
      obtain ⟨value, length⟩ := ih fewer
      have last := digitValue_digit large (number % base) ((Nat.mod_lt number positive).trans_le atMost)
      refine ⟨?_, Nat.succ_le_succ length⟩
      rw [List.reverse_cons, readNumber_append, value, last, Nat.mul_comm]
      exact Nat.div_add_mod number base

/-- The digits of a number in a base, the highest first: one for zero, else none that leads with zero. -/
def baseDigits (base number : Nat) : List Nat := if number = 0 then [0] else (Nat.digits base number).reverse

/-- Enough turns take the digits of the base, the lowest first. -/
theorem numberDigits_digits (digit : Nat → BitVec 8) (atLeast : 2 ≤ base) {turns number : Nat} (enough : number < base ^ turns) :
    numberDigits digit base turns number = (Nat.digits base number).map digit := by
  induction turns generalizing number with
  | zero =>
    obtain rfl : number = 0 := Nat.lt_one_iff.mp enough
    rw [Nat.digits_zero]
    rfl
  | succ turns ih =>
    rw [numberDigits]
    split
    next zero => rw [zero, Nat.digits_zero, List.map_nil]
    next more =>
      have fewer : number / base < base ^ turns := Nat.div_lt_of_lt_mul (by rwa [Nat.pow_succ, Nat.mul_comm] at enough)
      rw [ih fewer, Nat.digits_def' atLeast (Nat.pos_of_ne_zero more), List.map_cons]

/-! ### The number -/

structure NumberText where
  spaces : List (BitVec 8)
  sign : List (BitVec 8)
  mark : List (BitVec 8)
  zeros : List (BitVec 8)
  digits : List (BitVec 8)
  trailing : List (BitVec 8)

def NumberText.bytes (text : NumberText) : List (BitVec 8) :=
  text.spaces ++ (text.sign ++ (text.mark ++ (text.zeros ++ (text.digits ++ text.trailing))))

/-- The text that a number is to have. `precision` and `field` may be -1. -/
structure Laid (number : BitVec 64) (base : Nat) (field precision : Int32) (flags : FormatFlags) (text : NumberText) :
    Prop where
  spaces : ∀ c ∈ text.spaces, c = byte ' '
  sign : text.sign = (numberSign flags (decide (number.toInt < 0))).toList
  minus : byte '-' ∈ text.sign ↔ flags.sign ∧ number.toInt < 0
  mark : text.mark = numberPrefix (vsnprintfDigit flags.large 33) base flags
  zeros : ∀ c ∈ text.zeros, c = byte '0'
  digits : text.digits =
    (baseDigits base (if flags.sign ∧ number.toInt < 0 then number.toInt.natAbs else number.toNat)).map (vsnprintfDigit flags.large)
  value : readNumber base text.digits = if flags.sign ∧ number.toInt < 0 then number.toInt.natAbs else number.toNat
  trailing : ∀ c ∈ text.trailing, c = byte ' '
  length : (text.bytes.length : Int) =
    max field.toInt (text.sign.length + text.mark.length + max (text.digits.length : Int) precision.toInt)
  buffer : text.digits.length ≤ 66

theorem minus_iff (flags : FormatFlags) (negative : Bool) :
    byte '-' ∈ (numberSign flags negative).toList ↔ flags.sign ∧ negative = true := by
  rw [Option.mem_toList, numberSign]
  have other : byte '+' ≠ byte '-' ∧ byte ' ' ≠ byte '-' := by decide
  split
  next signed =>
    split
    next minus => simp [signed, minus]
    next minus =>
      split
      · simp [minus, other]
      · split
        · simp [minus, other]
        · simp [minus]
  next unsigned => simp [unsigned]

theorem numberField_toInt (flags : FormatFlags) (negative : Bool) (mark : BitVec 8) (base : Nat)
    (large : -1 ≤ field.toInt) :
    (numberField flags negative base field).toInt =
      field.toInt - (numberSign flags negative).toList.length - (numberPrefix mark base flags).length := by
  have less {field : Int32} (amount : Int32) (few : 0 ≤ amount.toInt ∧ amount.toInt ≤ 2) (above : -2 ≤ field.toInt) :
      (field - amount).toInt = field.toInt - amount.toInt := by
    have high := Int32.toInt_lt field
    rw [Int32.toInt_sub, Int.bmod_eq_of_le (by omega) (by omega)]
  have one : (1 : Int32).toInt = 1 := rfl
  have two : (2 : Int32).toInt = 2 := rfl
  have signed : (if (numberSign flags negative).isSome then field - 1 else field).toInt =
      field.toInt - (numberSign flags negative).toList.length := by
    cases numberSign flags negative with
    | none => exact (Int.sub_zero _).symm
    | some sign => exact less 1 (by decide) (by omega)
  have few : (numberSign flags negative).toList.length ≤ 1 := by
    cases numberSign flags negative with
    | none => exact Nat.zero_le _
    | some sign => exact le_rfl
  obtain ⟨rest, same⟩ : ∃ rest : Int32, rest = if (numberSign flags negative).isSome then field - 1 else field := ⟨_, rfl⟩
  rw [← same] at signed
  rw [← signed]
  simp only [numberField, numberPrefix, ← same]
  cases flags.special with
  | false => exact (Int.sub_zero _).symm
  | true =>
    simp only [if_true]
    split
    next hexadecimal =>
      rw [if_neg (by omega), less 2 (by decide) (by omega)]
      rfl
    next =>
      split
      · exact less 1 (by decide) (by omega)
      · exact (Int.sub_zero _).symm

theorem magnitude (number : BitVec 64) (sign : Bool) :
    (if sign && decide (number.toInt < 0) then -number else number).toNat =
      if sign ∧ number.toInt < 0 then number.toInt.natAbs else number.toNat := by
  cases sign with
  | false => simp
  | true =>
    by_cases negative : number.toInt < 0
    · have value := BitVec.toInt_eq_toNat_cond number
      have bound := number.isLt
      simp only [negative, decide_true, Bool.and_self, if_true, and_self, BitVec.toNat_neg]
      split at value
      · omega
      · omega
    · simp [negative]

theorem numberDigits_shown (large : Bool) (number : BitVec 64) (atLeast : 2 ≤ base) (atMost : base ≤ 36) :
    readNumber base (if number = 0 then [byte '0'] else numberDigits (vsnprintfDigit large) base 64 number.toNat).reverse = number.toNat ∧
      (if number = 0 then [byte '0'] else numberDigits (vsnprintfDigit large) base 64 number.toNat).length ≤ 64 := by
  split
  next zero =>
    subst zero
    have value : digitValue (byte '0') = 0 := by decide
    refine ⟨?_, Nat.le_add_left 1 63⟩
    change 0 * base + digitValue (byte '0') = 0
    rw [value, Nat.zero_mul]
  next =>
    exact numberDigits_read large atLeast atMost (number.isLt.trans_le (Nat.pow_le_pow_left atLeast 64))

theorem numberDigits_base (large : Bool) (number : BitVec 64) (atLeast : 2 ≤ base) :
    (if number = 0 then [byte '0'] else numberDigits (vsnprintfDigit large) base 64 number.toNat).reverse =
      (baseDigits base number.toNat).map (vsnprintfDigit large) := by
  unfold baseDigits
  by_cases zero : number = 0
  · have none : number.toNat = 0 := BitVec.toNat_eq.mp zero
    rw [if_pos zero, if_pos none]
    cases large with
    | false => rfl
    | true => rfl
  · have some : number.toNat ≠ 0 := fun none => zero (BitVec.eq_of_toNat_eq none)
    rw [if_neg zero, if_neg some,
      numberDigits_digits _ atLeast (number.isLt.trans_le (Nat.pow_le_pow_left atLeast 64)), List.map_reverse]

def settledFlags (flags : FormatFlags) : FormatFlags := if flags.left then { flags with zeropad := false } else flags

theorem settledFlags_eq (flags : FormatFlags) :
    (settledFlags flags).sign = flags.sign ∧ (settledFlags flags).large = flags.large ∧
    (∀ negative, numberSign (settledFlags flags) negative = numberSign flags negative) ∧
    (∀ mark base, numberPrefix mark base (settledFlags flags) = numberPrefix mark base flags) ∧
    ∀ negative base field, numberField (settledFlags flags) negative base field =
      numberField flags negative base field := by
  unfold settledFlags
  split
  · exact ⟨rfl, rfl, fun _ => rfl, fun _ _ => rfl, fun _ _ _ => rfl⟩
  · exact ⟨rfl, rfl, fun _ => rfl, fun _ _ => rfl, fun _ _ _ => rfl⟩

theorem frontSpaces_only (flags : FormatFlags) (width : Nat) : ∀ c ∈ frontSpaces flags width, c = byte ' ' := by
  unfold frontSpaces
  split
  · exact nofun
  · exact fun c member => List.eq_of_mem_replicate member

theorem innerZeros_only (flags : FormatFlags) (width : Nat) : ∀ c ∈ innerZeros flags width, c = byte '0' := by
  unfold innerZeros
  split
  · exact fun c member => List.eq_of_mem_replicate member
  · exact nofun

theorem endSpaces_only (flags : FormatFlags) (width : Nat) : ∀ c ∈ endSpaces flags width, c = byte ' ' := by
  unfold endSpaces
  split
  · exact fun c member => List.eq_of_mem_replicate member
  · exact nofun

/-- The padding is in one of its three places. -/
theorem padding_length (flags : FormatFlags) (width : Nat) :
    (frontSpaces flags width).length + (innerZeros flags width).length + (endSpaces flags width).length = width := by
  unfold frontSpaces innerZeros endSpaces
  cases flags.left with
  | true => simp
  | false =>
    cases flags.zeropad with
    | true => simp
    | false => simp

theorem vsnprintfNumber_text (number : BitVec 64) (flags : FormatFlags) (atLeast : 2 ≤ base) (atMost : base ≤ 36)
    (wide : -1 ≤ field.toInt) (small : precision.toInt - field.toInt + 6 ≤ 2 ^ 31) :
    ∃ text, Laid number base field precision flags text ∧
      vsnprintfNumber (Cursor.text 32) number base field precision flags [] = text.bytes := by
  obtain ⟨signs, larges, signed, marked, fields⟩ := settledFlags_eq flags
  obtain ⟨value, length⟩ := numberDigits_shown flags.large
    (if flags.sign && decide (number.toInt < 0) then -number else number) atLeast atMost
  have exact := numberDigits_base flags.large (if flags.sign && decide (number.toInt < 0) then -number else number) atLeast
  generalize digits : (if (if flags.sign && decide (number.toInt < 0) then -number else number) = 0 then [byte '0']
    else numberDigits (vsnprintfDigit flags.large) base 64 (if flags.sign && decide (number.toInt < 0) then -number else number).toNat) = tmp
    at value length exact
  have room := numberField_toInt flags (decide (number.toInt < 0)) (vsnprintfDigit flags.large 33) base wide
  have short : (numberSign flags (decide (number.toInt < 0))).toList.length ≤ 1 := by
    cases numberSign flags (decide (number.toInt < 0)) with
    | none => exact Nat.zero_le _
    | some sign => exact le_rfl
  have marks : (numberPrefix (vsnprintfDigit flags.large 33) base flags).length ≤ 2 := by
    unfold numberPrefix
    split_ifs
    all_goals simp
  obtain ⟨width, wideness⟩ : ∃ width, width = ((numberField flags (decide (number.toInt < 0)) base field).toInt -
    max (tmp.length : Int) precision.toInt).toNat := ⟨_, rfl⟩
  have layout := numberLayout_text (numberSign flags (decide (number.toInt < 0))) (vsnprintfDigit flags.large 33) base (settledFlags flags)
    (by omega : tmp.length < 2 ^ 31) (by omega) wideness []
  refine ⟨⟨frontSpaces (settledFlags flags) width, (numberSign flags (decide (number.toInt < 0))).toList,
    numberPrefix (vsnprintfDigit flags.large 33) base flags, innerZeros (settledFlags flags) width ++
      List.replicate (precision.toInt - tmp.length).toNat (byte '0'), tmp.reverse, endSpaces (settledFlags flags) width⟩, ?_, ?_⟩
  · have padded := padding_length (settledFlags flags) width
    refine ⟨?_, rfl, ?_, rfl, ?_, ?_, ?_, ?_, ?_, ?_⟩
    · exact frontSpaces_only _ _
    · simpa using minus_iff flags (decide (number.toInt < 0))
    · intro c member
      rcases List.mem_append.mp member with inner | exact
      · exact innerZeros_only _ _ c inner
      · exact List.eq_of_mem_replicate exact
    · rw [exact, magnitude]
    · rw [value, magnitude]
    · exact endSpaces_only _ _
    · simp only [NumberText.bytes, List.length_append, List.length_replicate, List.length_reverse]
      omega
    · rw [List.length_reverse]
      exact length.trans (by decide)
  · change numberLayout (Cursor.text 32) (numberSign (settledFlags flags) (decide (number.toInt < 0)))
      (vsnprintfDigit (settledFlags flags).large 33) (if (if (settledFlags flags).sign && decide (number.toInt < 0) then -number else number) = 0
        then [byte '0'] else numberDigits (vsnprintfDigit (settledFlags flags).large) base 64
          (if (settledFlags flags).sign && decide (number.toInt < 0) then -number else number).toNat) base
      (numberField (settledFlags flags) (decide (number.toInt < 0)) base field) precision (settledFlags flags) [] = _
    rw [signs, larges, signed, fields, digits, layout, marked]
    simp only [NumberText.bytes, List.nil_append, List.append_assoc]

/-- The text stands at the buffer, and nothing is stored elsewhere. -/
structure Put (buffer : BitVec 32) (text : List (BitVec 8)) (after : Sink 32) : Prop where
  position : after.position = buffer + BitVec.ofNat 32 text.length
  bytes : ∀ i (_ : i < text.length), after.content (buffer + BitVec.ofNat 32 i) = some text[i]
  inside : ∀ entry ∈ after.stores, buffer.toNat ≤ entry.1.toNat ∧ entry.1.toNat < buffer.toNat + text.length

/-- `vsnprintf_number(buffer, end, ...)`: the text is laid out, and it stands at the buffer where it has room. -/
theorem vsnprintf_number_layout (buffer stop : BitVec 32) (number : BitVec 64) (flags : FormatFlags)
    (atLeast : 2 ≤ base) (atMost : base ≤ 36) (wide : -1 ≤ field.toInt)
    (small : precision.toInt - field.toInt + 6 ≤ 2 ^ 31) :
    ∃ text, Laid number base field precision flags text ∧
      (buffer.toNat + text.bytes.length ≤ stop.toNat → Put buffer text.bytes
        (vsnprintfNumber (Sink.cursor (fun position => decide (position < stop)) buffer) number base field precision flags ⟨buffer, []⟩)) := by
  obtain ⟨text, laid, whole⟩ := vsnprintfNumber_text number flags atLeast atMost wide small
  refine ⟨text, laid, fun room => ?_⟩
  have limit := stop.isLt
  have maps := Sink.maps_text (fun position => decide (position < stop)) buffer
  have stores : vsnprintfNumber (Sink.cursor (fun position => decide (position < stop)) buffer) number base field precision flags ⟨buffer, []⟩ =
      (Sink.cursor (fun position => decide (position < stop)) buffer).emit text.bytes ⟨buffer, []⟩ := by
    rw [← whole]
    exact vsnprintfNumber_map maps number base field precision flags []
  have place {i : Nat} (inside : i < text.bytes.length) : (buffer + BitVec.ofNat 32 i).toNat = buffer.toNat + i := by
    rw [BitVec.toNat_add, BitVec.toNat_ofNat, Nat.mod_eq_of_lt (by omega : i < 2 ^ 32), Nat.mod_eq_of_lt (by omega)]
  rw [stores]
  refine ⟨emit_stop, fun i inside => ?_, fun entry stored => ?_⟩
  · refine Sink.emit_content _ buffer ⟨buffer, []⟩ (by omega) inside (decide_eq_true ?_)
    change (buffer + BitVec.ofNat 32 i).toNat < stop.toNat
    rw [place inside]
    omega
  · cases Sink.emit_stores_index stored with
    | inl none => simp at none
    | inr put =>
      obtain ⟨-, i, inside, there⟩ := put
      have there : entry.1 = buffer + BitVec.ofNat 32 i := there
      rw [there, place inside]
      omega

/-- `%#6x` of the lowest 64-bit number, with a precision. -/
theorem vsnprintf_number_layout_example :
    ∃ text, Laid (BitVec.ofNat 64 (2 ^ 63)) 16 6 3 { FormatFlags.none with special := true } text ∧
    ((0x1000 : BitVec 32).toNat + text.bytes.length ≤ (0x2000 : BitVec 32).toNat → Put 0x1000 text.bytes
      (vsnprintfNumber (Sink.cursor (fun position => decide (position < (0x2000 : BitVec 32))) 0x1000) (BitVec.ofNat 64 (2 ^ 63)) 16 6 3
        { FormatFlags.none with special := true } ⟨0x1000, []⟩)) :=
  vsnprintf_number_layout 0x1000 0x2000 (BitVec.ofNat 64 (2 ^ 63)) { FormatFlags.none with special := true } (by decide) (by decide)
    (by decide) (by decide)

end YuzuOS.Proofs.NumberLayout
