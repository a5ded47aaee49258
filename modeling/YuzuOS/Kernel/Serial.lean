import YuzuOS.Kernel.Format

/-! `vsprintf` of the early boot, which stores every byte. The format is the string
before its `NUL`, the strings of `%s` lie in `texts`. -/

namespace YuzuOS.Kernel
open YuzuOS.Library

inductive SerialQualifier
  | none
  | short
  | long
  | longLong
  deriving DecidableEq

def serialQualifier : List (BitVec 8) → SerialQualifier × List (BitVec 8)
  | [] => (.none, [])
  | c :: format =>
    if c = byte 'h' then (.short, format)
    else if c = byte 'l' then (.long, format)
    else if c = byte 'L' then (.longLong, format)
    else (.none, c :: format)

/-- 0 or 0x20 -/
def serialLocase (flags : FormatFlags) : BitVec 8 := if flags.small then 0x20 else 0

/-- `"0123456789ABCDEF"`, or with lower case letters -/
def serialDigit (flags : FormatFlags) (index : Nat) : BitVec 8 :=
  (if index < 10 then byte '0' + BitVec.ofNat 8 index else byte 'A' + BitVec.ofNat 8 (index - 10)) ||| serialLocase flags

/-- The base is 8, 10 or 16, so the check of the base is left out. -/
def serialEarlyVsprintfNumber {σ : Type} (cursor : Cursor 32 σ) (num : BitVec 32) (base : Nat) (size precision : Int32)
    (type : FormatFlags) (out : σ) : σ :=
  let type := if type.left then { type with zeropad := false } else type
  let negative := decide (num.toInt < 0)
  let num := if type.sign && negative then -num else num
  let tmp := if num = 0 then [byte '0'] else numberDigits (serialDigit type) base 64 num.toNat
  numberLayout cursor (numberSign type negative) (byte 'X' ||| serialLocase type) tmp base
    (numberField type negative base size) precision type out

/-- The argument of a number. -/
def serialArgument (qualifier : SerialQualifier) (sign : Bool) (args : VaList) : BitVec 32 :=
  match qualifier with
  | .short => if sign then ((args 0).setWidth 16).signExtend 32 else ((args 0).setWidth 16).setWidth 32
  | .long | .longLong | .none => args 0

/-- The base and the flags of a conversion of numbers. -/
def serialBase (flags : FormatFlags) (c : BitVec 8) : Option (Nat × FormatFlags) :=
  if c = byte 'o' then some (8, flags)
  else if c = byte 'x' then some (16, { flags with small := true })
  else if c = byte 'X' then some (16, flags)
  else if c = byte 'd' ∨ c = byte 'i' then some (10, { flags with sign := true })
  else if c = byte 'u' then some (10, flags)
  else none

/-- The conversion `c` of a directive. -/
def serialConvert {σ : Type} (cursor : Cursor 32 σ) (texts : Memory) (head : FormatHead) (qualifier : SerialQualifier)
    (c : BitVec 8) (state : FormatState σ) : FormatState σ :=
  let flags := head.flags
  let args := head.ap
  let out := state.out
  if c = byte 'c' then
    { state with ap := args.skip 1, out := putChar cursor flags head.field ((args 0).setWidth 8) out }
  else if c = byte 's' then
    let string := fun place => texts ((args 0).toNat + place)
    let length := Int32.ofNat (stringLength string head.precision.toBitVec.toNat 0)
    { state with ap := args.skip 1, out := putString cursor flags head.field string length out }
  else if c = byte 'p' then
    let unset := head.field = -1
    let flags := if unset then { flags with zeropad := true } else flags
    let field := if unset then 8 else head.field
    { state with ap := args.skip 1, out := serialEarlyVsprintfNumber cursor (args 0) 16 field head.precision flags out }
  else if c = byte 'n' then { state with ap := args.skip 1, counts := (args 0, cursor.written out) :: state.counts }
  else if c = byte '%' then { state with ap := args, out := cursor.put (byte '%') out }
  else
    match serialBase flags c with
    | some (base, flags) =>
      { state with
        ap := args.skip 1
        out := serialEarlyVsprintfNumber cursor (serialArgument qualifier flags.sign args) base head.field head.precision flags out }
    | none => { state with ap := args, out := cursor.put c (cursor.put (byte '%') out) }

/-- The loop over a format, with a turn for every character of it at most. -/
def serialLoop {σ : Type} (cursor : Cursor 32 σ) (texts : Memory) :
    Nat → List (BitVec 8) → FormatState σ → FormatState σ
  | _, [], state => state
  | 0, _ :: _, state => state
  | turns + 1, c :: format, state =>
    if c ≠ byte '%' then serialLoop cursor texts turns format { state with out := cursor.put c state.out }
    else
      let head := formatHead format state.ap
      match serialQualifier head.format with
      -- the source goes back to the `NUL` here
      | (_, []) => { state with ap := head.ap, out := cursor.put (byte '%') state.out }
      | (qualifier, c :: format) =>
        serialLoop cursor texts turns format (serialConvert cursor texts head qualifier c state)

def serialEarlyVsprintf (texts : Memory) (str : BitVec 32) (format : List (BitVec 8)) (args : VaList) : Formatted :=
  let state := serialLoop (Sink.cursor (fun _ => true) str) texts format.length format ⟨args, ⟨str, []⟩, []⟩
  let buffer := state.out.position
  ⟨Int32.ofBitVec (buffer - str), ⟨buffer, (buffer, 0) :: state.out.stores⟩, state.counts⟩

end YuzuOS.Kernel
