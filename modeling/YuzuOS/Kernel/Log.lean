import YuzuOS.Kernel.Stdio
import YuzuOS.Kernel.UserProcess

/-! The log of the kernel, and the system call that lets a program write to it. A line is
formatted twice, in two buffers on the stack. The stores of a call of `vsnprintf` are made
when it returns, those through `%n` first. -/

namespace YuzuOS.Kernel
open YuzuOS.Library

inductive LogType
  | info
  | warn
  | error
  deriving DecidableEq

def logBuf : BitVec 32 := 4096

/-- `log_type_msg` -/
def LogType.msg : LogType → List (BitVec 8)
  | .info => [byte 'I', byte 'N', byte 'F', byte 'O']
  | .warn => [byte 'W', byte 'A', byte 'R', byte 'N']
  | .error => [byte 'E', byte 'R', byte 'R', byte 'O', byte 'R']

def escape : BitVec 8 := 0x1B

/-- `log_type_color` -/
def LogType.color : LogType → List (BitVec 8)
  | .info => [escape, byte '[', byte '3', byte '2', byte 'm']
  | .warn => [escape, byte '[', byte '3', byte '3', byte 'm']
  | .error => [escape, byte '[', byte '3', byte '1', byte 'm']

/-- `"\x1B[1m\x1B[34m["` -/
def logOpening : List (BitVec 8) :=
  [escape, byte '[', byte '1', byte 'm', escape, byte '[', byte '3', byte '4', byte 'm', byte '[']

/-- `"\x1b[90m\x1B[37m"` -/
def logWhite : List (BitVec 8) :=
  [escape, byte '[', byte '9', byte '0', byte 'm', escape, byte '[', byte '3', byte '7', byte 'm']

/-- `"\x1b[0m"` -/
def logTrailer : List (BitVec 8) := [escape, byte '[', byte '0', byte 'm']

/-- The format of a line. -/
def logLine : List (BitVec 8) :=
  logOpening ++ [byte '%', byte 's', byte ']', byte ' ', byte '%', byte 's', byte '%', byte '-', byte '5', byte 's'] ++
    logWhite ++ [byte '%', byte 's'] ++ logTrailer

/-- Where a call of `log_format` finds its strings and its two buffers. `name` is the name of
the current process, or `"Kernel"`. -/
structure LogFrame where
  memory : Memory
  name : BitVec 32
  color : LogType → BitVec 32
  msg : LogType → BitVec 32
  bufferFormat : BitVec 32
  buffer : BitVec 32

/-- The memory after a call that formats. -/
def Formatted.leave (formatted : Formatted) (memory : Memory) : Memory :=
  let memory := formatted.counts.foldr (fun count memory => memory.store32 count.1.toNat count.2.toNat) memory
  fun place => (formatted.sink.content (BitVec.ofNat 32 place)).getD (memory place)

/-- The bytes that `log_write` puts on the port. -/
def logWrite (buffer : BitVec 32) (len : Int32) (memory : Memory) : List (BitVec 8) :=
  (List.range len.toInt.toNat).map fun i => memory (buffer + BitVec.ofNat 32 i).toNat

/-- The arguments of the second formatting. -/
def logArguments (type : LogType) (frame : LogFrame) : VaList
  | 0 => frame.name
  | 1 => frame.color type
  | 2 => frame.msg type
  | 3 => frame.bufferFormat
  | _ => 0

def logFormat (type : LogType) (format : List (BitVec 8)) (ap : VaList) (frame : LogFrame) : Option (List (BitVec 8)) :=
  (vsnprintf frame.memory frame.bufferFormat logBuf format ap).bind fun formatted =>
    let memory := formatted.leave frame.memory
    (vsnprintf memory frame.buffer logBuf logLine (logArguments type frame)).map fun line =>
      logWrite frame.buffer line.length (line.leave memory)

/-- `syscall_log`, which gives `log_log` no arguments: `va_arg` reads what is behind them on the stack. -/
def syscallLog (type : LogType) (format : List (BitVec 8)) (stack : VaList) (frame : LogFrame) :
    Option (List (BitVec 8)) :=
  logFormat type format stack frame

end YuzuOS.Kernel
