import YuzuOS.Libc.String

/-! The parser of INI files. The text, the line buffer with what lies around it, and
the two arrays on the stack are memories of their own; the calls of the handler
are recorded. `none` is a string that does not end. -/

namespace YuzuOS.Core
open YuzuOS.Library YuzuOS.Libc

def iniFailure : Int := -1
def iniSuccess : Int := 0
def iniSectionMax : Nat := 50
def iniNameMax : Nat := 50
def iniLineMax : Nat := 200

/-- `";#"` -/
def iniStartComment : List (BitVec 8) := [0x3B, 0x23]

/-- `";"` -/
def iniInlineComment : List (BitVec 8) := [0x3B]

/-- The loop of `ini_strip`. The macro `isspace` decrements the pointer once for
each comparison that it comes to. -/
def iniStripLoop (string : Nat) : Nat → Nat → Memory → Memory
  | 0, _, memory => memory
  | turns + 1, pString, memory =>
    if string < pString then
      let pString := pString - 1
      if memory pString = 0x20 then iniStripLoop string turns pString (memory.store8 pString 0)
      else
        let pString := pString - 1
        if 0x09 ≤ memory pString then
          let pString := pString - 1
          if memory pString ≤ 0x0D then iniStripLoop string turns pString (memory.store8 pString 0) else memory
        else memory
    else memory

def iniStrip (string : Nat) (memory : Memory) : Option Memory :=
  (strlen memory string).map fun length => iniStripLoop string length (string + length) memory

/-- The places that the loop reads. In each turn it may write to the last of them. -/
def iniStripPlaces (string : Nat) : Nat → Nat → Memory → List Nat
  | 0, _, _ => []
  | turns + 1, pString, memory =>
    if string < pString then
      let first := pString - 1
      if memory first = 0x20 then first :: iniStripPlaces string turns first (memory.store8 first 0)
      else
        let second := first - 1
        if 0x09 ≤ memory second then
          let third := second - 1
          first :: second :: third ::
            if memory third ≤ 0x0D then iniStripPlaces string turns third (memory.store8 third 0) else []
        else [first, second]
    else []

def iniSkipFrom (memory : Memory) : Nat → Nat → Option Nat
  | 0, _ => none
  | turns + 1, string => if memory string ≠ 0 ∧ isspace (memory string) then iniSkipFrom memory turns (string + 1) else some string

def iniSkip (memory : Memory) (string : Nat) : Option Nat := iniSkipFrom memory (2 ^ 32) string

def iniFindFrom (memory : Memory) (chars : Option (List (BitVec 8))) : Nat → Bool → Nat → Option Nat
  | 0, _, _ => none
  | turns + 1, space, string =>
    if memory string ≠ 0 ∧ ¬ (chars.any (strchr · (memory string))) ∧ ¬ (space ∧ strchr iniInlineComment (memory string)) then
      iniFindFrom memory chars turns (isspace (memory string)) (string + 1)
    else some string

/-- No `chars` is `NULL`. -/
def iniFind (memory : Memory) (string : Nat) (chars : Option (List (BitVec 8))) : Option Nat :=
  iniFindFrom memory chars (2 ^ 32) false string

/-- The loop of `ini_line_get`: where it stops in the text, and the memory it leaves. -/
def iniLineGetLoop (text : Memory) : Nat → Nat → Nat → Memory → Nat × Memory
  | 0, buffer, _, memory => (buffer, memory)
  | turns + 1, buffer, line, memory =>
    if text buffer = 0x0D then iniLineGetLoop text turns (buffer + 1) line memory
    else if text buffer = 0x0A then (buffer + 1, memory)
    else iniLineGetLoop text turns (buffer + 1) (line + 1) (memory.store8 line (text buffer))

def iniLineGet (text : Memory) (buffer line : Nat) (memory : Memory) : Nat × Memory :=
  iniLineGetLoop text iniLineMax buffer line (memory.fill line iniLineMax 0)

structure IniCall where
  sectionName : List (BitVec 8)
  key : List (BitVec 8)
  value : List (BitVec 8)
  deriving DecidableEq

structure IniState where
  memory : Memory
  sectionName : Memory
  prevName : Memory
  iLine : Nat
  result : Nat
  calls : List IniCall

/-- The first line that went wrong is the result. -/
def IniState.failed (state : IniState) : IniState :=
  if state.result = 0 then { state with result := state.iLine } else state

/-- A call of the handler, which answers by what it has been called with so far. -/
def iniHandle (answer : List IniCall → Int) (names : Memory) (name value : Nat) (state : IniState) : Option IniState :=
  (stringAt state.sectionName 0).bind fun sectionName =>
    (stringAt names name).bind fun key =>
      (stringAt state.memory value).map fun value =>
        let state := { state with calls := ⟨sectionName, key, value⟩ :: state.calls }
        if answer state.calls = 0 then state.failed else state

/-- One turn of `ini_parse` on the line buffer at `line`. -/
def iniParseLine (answer : List IniCall → Int) (line : Nat) (state : IniState) : Option IniState :=
  if state.memory line = 0 then some state
  else
    let state := { state with iLine := state.iLine + 1 }
    let start := if state.iLine = 1 ∧ state.memory line = 0xEF ∧ state.memory (line + 1) = 0xBB ∧ state.memory (line + 2) = 0xBF
      then line + 3 else line
    (iniStrip start state.memory).bind fun memory =>
      let state := { state with memory }
      (iniSkip memory start).bind fun start =>
        if strchr iniStartComment (memory start) then some state
        else if state.prevName 0 ≠ 0 ∧ memory start ≠ 0 ∧ line < start then iniHandle answer state.prevName 0 start state
        else if memory start = 0x5B then
          (iniFind memory (start + 1) (some [0x5D])).map fun stop =>
            if memory stop = 0x5D then
              let memory := memory.store8 stop 0
              { state with
                memory
                sectionName := strncpy state.sectionName 0 memory (start + 1) (iniSectionMax - 1)
                prevName := state.prevName.store8 0 0 }
            else state.failed
        else if memory start ≠ 0 then
          (iniFind memory start (some [0x3D, 0x3A])).bind fun stop =>
            if memory stop = 0x3D ∨ memory stop = 0x3A then
              (iniStrip start (memory.store8 stop 0)).bind fun memory =>
                let value := stop + 1
                (iniFind memory value none).bind fun stop =>
                  let memory := if memory stop ≠ 0 then memory.store8 stop 0 else memory
                  (iniSkip memory value).bind fun value =>
                    (iniStrip value memory).bind fun memory =>
                      iniHandle answer memory start value
                        { state with memory, prevName := strncpy state.prevName 0 memory start (iniNameMax - 1) }
            else some state.failed
        else some state

/-- The loop of `ini_parse` over the lines of a text that ends with `NUL`. -/
def iniParseLoop (answer : List IniCall → Int) (text : Memory) (line : Nat) : Nat → Nat → IniState → Option IniState
  | 0, _, _ => none
  | turns + 1, buffer, state =>
    if text buffer = 0 then some state
    else
      let (buffer, memory) := iniLineGet text buffer line state.memory
      (iniParseLine answer line { state with memory }).bind (iniParseLoop answer text line turns buffer)

/-- `ini_parse` with the line buffer at `line`. -/
def iniParse (answer : List IniCall → Int) (text : Memory) (buffer line : Nat) (memory : Memory) (turns : Nat) :
    Option IniState :=
  iniParseLoop answer text line turns buffer ⟨memory, fun _ => 0, fun _ => 0, 0, 0, []⟩

/-- The places that a scan reads while it goes on, and the one where it stops. -/
def scanPlaces (goesOn : Bool → BitVec 8 → Bool) (memory : Memory) : Nat → Bool → Nat → List Nat
  | 0, _, _ => []
  | turns + 1, space, string =>
    string :: if goesOn space (memory string) then scanPlaces goesOn memory turns (isspace (memory string)) (string + 1) else []

/-- What `ini_skip` passes. -/
def iniSkips (_ : Bool) (byte : BitVec 8) : Bool := byte ≠ 0 ∧ isspace byte

/-- What `ini_find` passes. -/
def iniSeeks (chars : Option (List (BitVec 8))) (space : Bool) (byte : BitVec 8) : Bool :=
  byte ≠ 0 ∧ ¬ (chars.any (strchr · byte)) ∧ ¬ (space ∧ strchr iniInlineComment byte)

def strlenPlaces (memory : Memory) (string : Nat) : List Nat :=
  scanPlaces (fun _ byte => byte ≠ 0) memory (2 ^ 32) false string

def iniSkipPlaces (memory : Memory) (string : Nat) : List Nat := scanPlaces iniSkips memory (2 ^ 32) false string

def iniFindPlaces (memory : Memory) (string : Nat) (chars : Option (List (BitVec 8))) : List Nat :=
  scanPlaces (iniSeeks chars) memory (2 ^ 32) false string

def iniStripAllPlaces (string : Nat) (memory : Memory) : List Nat :=
  strlenPlaces memory string ++
    (strlen memory string).elim [] fun length => iniStripPlaces string length (string + length) memory

/-- What `strncpy` reads, up to the terminator. -/
def strncpyPlaces (memory : Memory) (src n : Nat) : List Nat :=
  (List.range (min (strnlen memory src n + 1) n)).map (src + ·)

/-- A byte that `ini_parse` or a function that it calls reads or writes. -/
inductive IniPlace
  | text (place : Nat)
  | line (place : Nat)
  | sectionName (place : Nat)
  | prevName (place : Nat)
  deriving DecidableEq

/-- The places of `ini_line_get` behind those of `memset`. -/
def iniLineGetPlaces (text : Memory) : Nat → Nat → Nat → List IniPlace
  | 0, _, _ => []
  | turns + 1, buffer, line =>
    .text buffer ::
      if text buffer = 0x0D then iniLineGetPlaces text turns (buffer + 1) line
      else if text buffer = 0x0A then []
      else .line line :: iniLineGetPlaces text turns (buffer + 1) (line + 1)

/-- The places of the test for a mark at the start of the first line. -/
def iniMarkPlaces (memory : Memory) (line : Nat) : List IniPlace :=
  .line line :: if memory line = 0xEF then .line (line + 1) :: if memory (line + 1) = 0xBB then [.line (line + 2)] else [] else []

/-- The places of one turn of `ini_parse` on the line buffer. -/
def iniParseLinePlaces (line : Nat) (state : IniState) : List IniPlace :=
  .line line ::
    if state.memory line = 0 then []
    else
      let mark := state.iLine + 1 = 1 ∧ state.memory line = 0xEF ∧ state.memory (line + 1) = 0xBB ∧ state.memory (line + 2) = 0xBF
      let start := if mark then line + 3 else line
      (if state.iLine + 1 = 1 then iniMarkPlaces state.memory line else []) ++
      (iniStripAllPlaces start state.memory).map .line ++
      (iniStrip start state.memory).elim [] fun memory =>
        (iniSkipPlaces memory start).map .line ++
        (iniSkip memory start).elim [] fun start =>
          .line start ::
            if strchr iniStartComment (memory start) then []
            else .prevName 0 ::
              if state.prevName 0 ≠ 0 ∧ memory start ≠ 0 ∧ line < start then []
              else if memory start = 0x5B then
                (iniFindPlaces memory (start + 1) (some [0x5D])).map .line ++
                (iniFind memory (start + 1) (some [0x5D])).elim [] fun stop =>
                  .line stop ::
                    if memory stop = 0x5D then
                      (strncpyPlaces (memory.store8 stop 0) (start + 1) (iniSectionMax - 1)).map .line ++
                        (List.range (iniSectionMax - 1)).map .sectionName ++ [.prevName 0]
                    else []
              else if memory start ≠ 0 then
                (iniFindPlaces memory start (some [0x3D, 0x3A])).map .line ++
                (iniFind memory start (some [0x3D, 0x3A])).elim [] fun stop =>
                  .line stop ::
                    if memory stop = 0x3D ∨ memory stop = 0x3A then
                      (iniStripAllPlaces start (memory.store8 stop 0)).map .line ++
                      (iniStrip start (memory.store8 stop 0)).elim [] fun memory =>
                        let value := stop + 1
                        (iniFindPlaces memory value none).map .line ++
                        (iniFind memory value none).elim [] fun stop =>
                          let memory := if memory stop ≠ 0 then memory.store8 stop 0 else memory
                          .line stop :: (iniSkipPlaces memory value).map .line ++
                          (iniSkip memory value).elim [] fun value =>
                            (iniStripAllPlaces value memory).map .line ++
                            (iniStrip value memory).elim [] fun memory =>
                              (strncpyPlaces memory start (iniNameMax - 1)).map .line ++
                                (List.range (iniNameMax - 1)).map .prevName
                    else []
              else []

/-- The places of `ini_parse`, as far as the turns go. -/
def iniParsePlaces (answer : List IniCall → Int) (text : Memory) (line : Nat) : Nat → Nat → IniState → List IniPlace
  | 0, _, _ => []
  | turns + 1, buffer, state =>
    .text buffer ::
      if text buffer = 0 then []
      else
        let (next, memory) := iniLineGet text buffer line state.memory
        (List.range iniLineMax).map (fun i => .line (line + i)) ++ iniLineGetPlaces text iniLineMax buffer line ++
          iniParseLinePlaces line { state with memory } ++
          (iniParseLine answer line { state with memory }).elim [] (iniParsePlaces answer text line turns next)

end YuzuOS.Core
