import YuzuOS.Library.Cursor
import YuzuOS.Library.Memory
import Mathlib.Tactic

/-! The code that the two formatters of the kernel have in common: reading the flags,
the width and the precision of a directive, padding, and laying out the digits of a
number. A byte that the source puts at the buffer is put at a cursor. An `int` wraps. -/

namespace YuzuOS.Kernel
open YuzuOS.Library

/-- The byte of a character. -/
def byte (character : Char) : BitVec 8 := BitVec.ofNat 8 character.toNat

def isdigit (c : BitVec 8) : Bool := byte '0' ≤ c ∧ c ≤ byte '9'

/-- The words that `va_arg` has still to read. -/
abbrev VaList := Nat → BitVec 32

def VaList.skip (ap : VaList) (words : Nat) : VaList := fun index => ap (index + words)

def VaList.int (ap : VaList) : Int32 := Int32.ofBitVec (ap 0)

/-- The flags of both formatters: `large` is only in the later one, `small` only in the early one. -/
structure FormatFlags where
  zeropad : Bool
  sign : Bool
  plus : Bool
  space : Bool
  left : Bool
  special : Bool
  large : Bool
  small : Bool

def FormatFlags.none : FormatFlags := ⟨false, false, false, false, false, false, false, false⟩

/-- What has been read of a directive, and what is still to read. -/
structure FormatHead where
  flags : FormatFlags
  field : Int32
  precision : Int32
  format : List (BitVec 8)
  ap : VaList

/-- The characters of the flags. -/
def formatFlags (flags : FormatFlags) : List (BitVec 8) → FormatFlags × List (BitVec 8)
  | [] => (flags, [])
  | c :: format =>
    if c = byte '-' then formatFlags { flags with left := true } format
    else if c = byte '+' then formatFlags { flags with plus := true } format
    else if c = byte ' ' then formatFlags { flags with space := true } format
    else if c = byte '#' then formatFlags { flags with special := true } format
    else if c = byte '0' then formatFlags { flags with zeropad := true } format
    else (flags, c :: format)

/-- `vsnprintf_atoi`, and `serial_early_vsprintf_skip_atoi` in the early formatter. -/
def formatAtoi (i : Int32) : List (BitVec 8) → Int32 × List (BitVec 8)
  | [] => (i, [])
  | c :: format => if isdigit c then formatAtoi (i * 10 + Int32.ofNat c.toNat - 48) format else (i, c :: format)

/-- The width: digits or an argument. -/
def formatField (head : FormatHead) : FormatHead :=
  match head.format with
  | [] => head
  | c :: format =>
    if isdigit c then
      let (field, format) := formatAtoi 0 (c :: format)
      { head with field, format }
    else if c = byte '*' then
      let field := head.ap.int
      let head := { head with format, ap := head.ap.skip 1 }
      if field < 0 then { head with field := -field, flags := { head.flags with left := true } } else { head with field }
    else head

/-- The digits or the argument behind the point of a precision. -/
def formatPrecisionValue (head : FormatHead) : FormatHead :=
  match head.format with
  | [] => head
  | c :: format =>
    if isdigit c then
      let (precision, format) := formatAtoi 0 (c :: format)
      { head with precision, format }
    else if c = byte '*' then { head with precision := head.ap.int, format, ap := head.ap.skip 1 }
    else head

def formatPrecision (head : FormatHead) : FormatHead :=
  match head.format with
  | [] => head
  | c :: format =>
    if c = byte '.' then
      let head := formatPrecisionValue { head with format }
      if head.precision < 0 then { head with precision := 0 } else head
    else head

/-- A directive behind its `%` up to its qualifier. -/
def formatHead (format : List (BitVec 8)) (ap : VaList) : FormatHead :=
  let (flags, format) := formatFlags .none format
  formatPrecision (formatField ⟨flags, -1, -1, format, ap⟩)

/-- Counting down by one does not wrap above a bound. -/
theorem toInt_sub_one {bound field : Int32} (above : bound < field) : (field - 1).toInt = field.toInt - 1 := by
  have order := Int32.lt_iff_toInt_lt.mp above
  have low := Int32.le_toInt bound
  have high := Int32.toInt_lt field
  rw [Int32.toInt_sub, show (1 : Int32).toInt = 1 from rfl, Int.bmod_eq_of_le (by omega) (by omega)]

section
variable {σ : Type} (cursor : Cursor 32 σ)

/-- `while (bound < field--)` around putting a byte. -/
def padWhile (c : BitVec 8) (bound field : Int32) (out : σ) : Int32 × σ :=
  if bound < field then padWhile c bound (field - 1) (cursor.put c out) else (field - 1, out)
termination_by (field.toInt - bound.toInt).toNat
decreasing_by
  rename_i above
  have order := Int32.lt_iff_toInt_lt.mp above
  rw [toInt_sub_one above]
  omega

/-- `while (--field > 0)` around putting a byte. -/
def padDown (c : BitVec 8) (field : Int32) (out : σ) : Int32 × σ :=
  if 0 < field - 1 then padDown c (field - 1) (cursor.put c out) else (field - 1, out)
termination_by (field - 1).toInt.toNat
decreasing_by
  rename_i above
  have order := Int32.lt_iff_toInt_lt.mp above
  rw [toInt_sub_one above]
  rw [show (0 : Int32).toInt = 0 from rfl] at order
  omega

/-- The sign of a number, which takes a place of the field. -/
def numberSign (flags : FormatFlags) (negative : Bool) : Option (BitVec 8) :=
  if flags.sign then
    if negative then some (byte '-') else if flags.plus then some (byte '+') else if flags.space then some (byte ' ') else none
  else none

/-- The field without the places for the sign and the prefix. -/
def numberField (flags : FormatFlags) (negative : Bool) (base : Nat) (field : Int32) : Int32 :=
  let field := if (numberSign flags negative).isSome then field - 1 else field
  if flags.special then if base = 16 then field - 2 else if base = 8 then field - 1 else field else field

/-- Padding, sign, prefix, zeros and the digits in `tmp`, which the source fills from the last digit on. -/
def numberLayout (sign : Option (BitVec 8)) (mark : BitVec 8) (tmp : List (BitVec 8)) (base : Nat)
    (field precision : Int32) (flags : FormatFlags) (out : σ) : σ :=
  let i := Int32.ofNat tmp.length
  let precision := if precision < i then i else precision
  let field := field - precision
  let (field, out) := if !(flags.zeropad || flags.left) then padWhile cursor (byte ' ') 0 field out else (field, out)
  let out := match sign with
    | some sign => cursor.put sign out
    | none => out
  let out :=
    if flags.special then
      if base = 8 then cursor.put (byte '0') out
      else if base = 16 then cursor.put mark (cursor.put (byte '0') out)
      else out
    else out
  let (field, out) :=
    if !flags.left then padWhile cursor (if flags.zeropad then byte '0' else byte ' ') 0 field out else (field, out)
  let (_, out) := padWhile cursor (byte '0') i precision out
  let out := cursor.emit tmp.reverse out
  (padWhile cursor (byte ' ') 0 field out).2

/-- `%c` -/
def putChar (flags : FormatFlags) (field : Int32) (c : BitVec 8) (out : σ) : σ :=
  let (field, out) := if !flags.left then padDown cursor (byte ' ') field out else (field, out)
  (padDown cursor (byte ' ') field (cursor.put c out)).2

/-- `%s` with `length` bytes of a string -/
def putString (flags : FormatFlags) (field : Int32) (string : Nat → BitVec 8) (length : Int32) (out : σ) : σ :=
  let (field, out) := if !flags.left then padWhile cursor (byte ' ') length field out else (field, out)
  let out := cursor.emit ((List.range length.toInt.toNat).map string) out
  (padWhile cursor (byte ' ') length field out).2

end

/-- The digits of a number from the last one on. -/
def numberDigits (digit : Nat → BitVec 8) (base : Nat) : Nat → Nat → List (BitVec 8)
  | 0, _ => []
  | turns + 1, number => if number = 0 then [] else digit (number % base) :: numberDigits digit base turns (number / base)

/-- The length of a string that is no longer than `maxlen`. -/
def stringLength (string : Nat → BitVec 8) : Nat → Nat → Nat
  | 0, _ => 0
  | maxlen + 1, place => if string place ≠ 0 then stringLength string maxlen (place + 1) + 1 else 0

/-- The arguments still to read, what has been put, and what `%n` stored at which address. -/
structure FormatState (σ : Type) where
  ap : VaList
  out : σ
  counts : List (BitVec 32 × BitVec 32)

/-- What a call returns and what it has stored, through the buffer and through `%n`. -/
structure Formatted where
  length : Int32
  sink : Sink 32
  counts : List (BitVec 32 × BitVec 32)
  deriving DecidableEq

end YuzuOS.Kernel
