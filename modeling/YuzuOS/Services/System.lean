import YuzuOS.Core.Ini
import YuzuOS.Library.Interleave

/-! The service that starts the programs of `/etc/system.ini`. Its handler forks, and the child becomes the program. -/

namespace YuzuOS.Services
open YuzuOS.Library YuzuOS.Core

/-- Where a process of the service is: in front of a line in `ini_parse`, in front of `execv` with the line parsed,
in a program, or in the loop behind `ini_open`. -/
inductive SystemProcess
  | parsing (buffer : Nat) (state : IniState)
  | launching (path : List (BitVec 8))
  | running (path : List (BitVec 8))
  | waiting

/-- The call of the handler that a line led to. -/
def handlerCall (before after : IniState) : Option IniCall :=
  if before.calls.length < after.calls.length then after.calls.head? else none

/-- The two processes behind the `fork` of `system_ini_handler`. -/
def systemIniHandler (call : IniCall) (buffer : Nat) (state : IniState) : List SystemProcess :=
  [.parsing buffer state, .launching call.value]

/-- A turn of a process. `starts` tells which programs the kernel can load. `execv` of another one does not come back,
as the kernel takes the old program away before it looks at the new one: there is no turn. -/
def systemTurn (starts : List (BitVec 8) → Bool) (text : Memory) (line : Nat) : SystemProcess →
    Option (List SystemProcess)
  | .parsing buffer state =>
    if text buffer = 0 then some [.waiting]
    else
      let (buffer, memory) := iniLineGet text buffer line state.memory
      (iniParseLine (fun _ => iniSuccess) line { state with memory }).map fun after =>
        match handlerCall state after with
        | none => [.parsing buffer after]
        | some call => systemIniHandler call buffer after
  | .launching path => if starts path then some [.running path] else none
  | .running _ => none
  | .waiting => none

/-- The service when `ini_open` has read the file to `buffer` and comes to `ini_parse`. -/
def systemStart (buffer : Nat) (memory : Memory) : SystemProcess :=
  .parsing buffer ⟨memory, fun _ => 0, fun _ => 0, 0, 0, []⟩

namespace SystemProcess

/-- The process has a turn to take. -/
def Busy : SystemProcess → Prop
  | .parsing _ _ => True
  | .launching _ => True
  | .running _ => False
  | .waiting => False

def runs (path : List (BitVec 8)) : SystemProcess → Bool
  | .running other => path = other
  | _ => false

def waits : SystemProcess → Bool
  | .waiting => true
  | _ => false

end SystemProcess

end YuzuOS.Services
