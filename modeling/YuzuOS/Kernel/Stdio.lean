import YuzuOS.Kernel.Format

/-! `vsnprintf` of the kernel, which the C library has a copy of. The format is the
string before its `NUL`. The strings of `%s` lie in `texts`, which no store of the
call changes: they overlap neither the buffer nor what `%n` points to. `none` is a
format that ends within a directive, behind which the source reads on. -/

namespace YuzuOS.Kernel
open YuzuOS.Library

inductive Qualifier
  | none
  | short
  | long
  | longLong
  | size
  deriving DecidableEq

def vsnprintfQualifier : List (BitVec 8) → Qualifier × List (BitVec 8)
  | [] => (.none, [])
  | c :: format =>
    if c = byte 'h' then (.short, format)
    else if c = byte 'l' then
      match format with
      | [] => (.long, [])
      | d :: rest => if d = byte 'l' then (.longLong, rest) else (.long, format)
    else if c = byte 'L' then (.longLong, format)
    else if c = byte 'Z' ∨ c = byte 'z' then (.size, format)
    else (.none, c :: format)

/-- `"0123456789ABCDEFGHIJKLMNOPQRSTUVWXYZ"`, or with lower case letters -/
def vsnprintfDigit (large : Bool) (index : Nat) : BitVec 8 :=
  if index < 10 then byte '0' + BitVec.ofNat 8 index
  else (if large then byte 'A' else byte 'a') + BitVec.ofNat 8 (index - 10)

/-- The base is 8, 10 or 16, so the check of the base is left out. -/
def vsnprintfNumber {σ : Type} (cursor : Cursor 32 σ) (number : BitVec 64) (base : Nat) (field precision : Int32)
    (flags : FormatFlags) (out : σ) : σ :=
  let flags := if flags.left then { flags with zeropad := false } else flags
  let negative := decide (number.toInt < 0)
  let number := if flags.sign && negative then -number else number
  let tmp := if number = 0 then [byte '0'] else numberDigits (vsnprintfDigit flags.large) base 64 number.toNat
  numberLayout cursor (numberSign flags negative) (vsnprintfDigit flags.large 33) tmp base
    (numberField flags negative base field) precision flags out

/-- The argument of a number. -/
def vsnprintfArgument (qualifier : Qualifier) (sign : Bool) (ap : VaList) : BitVec 64 :=
  match qualifier with
  | .longLong => ap 1 ++ ap 0
  | .size => (ap 0).setWidth 64
  | .short => if sign then ((ap 0).setWidth 16).signExtend 64 else ((ap 0).setWidth 16).setWidth 64
  | .long | .none => if sign then (ap 0).signExtend 64 else (ap 0).setWidth 64

/-- The base and the flags of a conversion of numbers. -/
def vsnprintfBase (flags : FormatFlags) (c : BitVec 8) : Option (Nat × FormatFlags) :=
  if c = byte 'o' then some (8, flags)
  else if c = byte 'X' then some (16, { flags with large := true })
  else if c = byte 'x' then some (16, flags)
  else if c = byte 'd' ∨ c = byte 'i' then some (10, { flags with sign := true })
  else if c = byte 'u' then some (10, flags)
  else none

/-- `"(NULL)"` -/
def nullString (place : Nat) : BitVec 8 :=
  [byte '(', byte 'N', byte 'U', byte 'L', byte 'L', byte ')'].getD place 0

/-- The conversion `c` of a directive. -/
def vsnprintfConvert {σ : Type} (cursor : Cursor 32 σ) (texts : Memory) (head : FormatHead) (qualifier : Qualifier)
    (c : BitVec 8) (state : FormatState σ) : FormatState σ :=
  let flags := head.flags
  let ap := head.ap
  let out := state.out
  if c = byte 'c' then
    { state with ap := ap.skip 1, out := putChar cursor flags head.field ((ap 0).setWidth 8) out }
  else if c = byte 's' then
    let string := if (ap 0).toNat < 4096 then nullString else fun place => texts ((ap 0).toNat + place)
    let length := Int32.ofNat (stringLength string head.precision.toBitVec.toNat 0)
    { state with ap := ap.skip 1, out := putString cursor flags head.field string length out }
  else if c = byte 'p' then
    let unset := head.field = -1
    let flags := if unset then { flags with zeropad := true } else flags
    let field := if unset then 8 else head.field
    { state with
      ap := ap.skip 1
      out := vsnprintfNumber cursor ((ap 0).setWidth 64) 16 field head.precision flags out }
  else if c = byte 'n' then { state with ap := ap.skip 1, counts := (ap 0, cursor.written out) :: state.counts }
  else if c = byte '%' then { state with ap, out := cursor.put (byte '%') out }
  else
    match vsnprintfBase flags c with
    | some (base, flags) =>
      { state with
        ap := ap.skip (if qualifier = .longLong then 2 else 1)
        out := vsnprintfNumber cursor (vsnprintfArgument qualifier flags.sign ap) base head.field head.precision flags out }
    | none => { state with ap, out := cursor.put c (cursor.put (byte '%') out) }

/-- The loop over a format, with a turn for every character of it at most. -/
def vsnprintfLoop {σ : Type} (cursor : Cursor 32 σ) (texts : Memory) :
    Nat → List (BitVec 8) → FormatState σ → Option (FormatState σ)
  | _, [], state => some state
  | 0, _ :: _, _ => none
  | turns + 1, c :: format, state =>
    if c ≠ byte '%' then vsnprintfLoop cursor texts turns format { state with out := cursor.put c state.out }
    else
      let head := formatHead format state.ap
      match vsnprintfQualifier head.format with
      | (_, []) => none
      | (qualifier, c :: format) =>
        vsnprintfLoop cursor texts turns format (vsnprintfConvert cursor texts head qualifier c state)

/-- The loop over the memory from the format on, with what lies behind the `NUL` that it stops
at. It steps over the `NUL` of a format that ends within a directive. -/
def vsnprintfMemory {σ : Type} (cursor : Cursor 32 σ) (texts : Memory) :
    Nat → List (BitVec 8) → FormatState σ → Option (FormatState σ × List (BitVec 8))
  | 0, _, _ => none
  | _ + 1, [], _ => none
  | turns + 1, c :: format, state =>
    if c = 0 then some (state, format)
    else if c ≠ byte '%' then vsnprintfMemory cursor texts turns format { state with out := cursor.put c state.out }
    else
      let head := formatHead format state.ap
      match vsnprintfQualifier head.format with
      | (_, []) => none
      | (qualifier, c :: format) =>
        if c = 0 then
          vsnprintfMemory cursor texts turns (format.drop 1) { state with ap := head.ap, out := cursor.put (byte '%') state.out }
        else vsnprintfMemory cursor texts turns format (vsnprintfConvert cursor texts head qualifier c state)

/-- The `NUL` behind the text. -/
def vsnprintfEnd (stop size : BitVec 32) (sink : Sink 32) : Sink 32 :=
  { sink with
    stores :=
      if sink.position < stop then (sink.position, 0) :: sink.stores
      else if 0 < size then (stop, 0) :: sink.stores
      else sink.stores }

def vsnprintf (texts : Memory) (str size : BitVec 32) (format : List (BitVec 8)) (ap : VaList) : Option Formatted :=
  if size.toInt < 0 then some ⟨0, ⟨str, []⟩, []⟩
  else
    let stop := if str + size < str then -1 else str + size
    let size := if str + size < str then -1 - str else size
    let cursor := Sink.cursor (fun position => decide (position < stop)) str
    (vsnprintfLoop cursor texts format.length format ⟨ap, ⟨str, []⟩, []⟩).map fun state =>
      ⟨Int32.ofBitVec (state.out.position - str), vsnprintfEnd stop size state.out, state.counts⟩

end YuzuOS.Kernel
