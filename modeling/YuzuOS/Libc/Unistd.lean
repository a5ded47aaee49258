import YuzuOS.Libc.Environ

/-! The `exec` functions of the C library that collect their arguments from the stack, and
the one that searches `PATH`. A `va_list` is a pointer and is passed by value. The array that
`calloc` gives is a list. -/

namespace YuzuOS.Libc
open YuzuOS.Library

/-- `va_arg` with the cursor behind the word that it gives. -/
def vaArg (memory : Memory) (ap : Nat) : Nat × Nat := (memory.load32 ap, ap + 4)

/-- The loop of `execl_argc_get`. -/
def execlArgcLoop (memory : Memory) : Nat → Nat → Nat → Option Nat
  | 0, _, _ => none
  | turns + 1, ap, argc =>
    let (word, ap) := vaArg memory ap
    if word ≠ 0 then execlArgcLoop memory turns ap (argc + 1) else some argc

def execlArgcGet (memory : Memory) (ap arg : Nat) : Option Nat :=
  let argc := if arg ≠ 0 then 1 else 0
  if arg ≠ 0 then execlArgcLoop memory (2 ^ 32) ap argc else some argc

/-- The loop of `execl_argv_get`, with the turns that are left. -/
def execlArgvLoop (memory : Memory) : Nat → Nat → Nat → List Nat → List Nat
  | 0, _, _, argv => argv
  | turns + 1, ap, i, argv =>
    let (word, ap) := vaArg memory ap
    execlArgvLoop memory turns ap (i + 1) (argv.set i word)

def execlArgvGet (memory : Memory) (ap argc arg : Nat) : List Nat :=
  let argv := (List.replicate (argc + 1) 0).set 0 arg
  (execlArgvLoop memory (argc - 1) ap 1 argv).set argc 0

/-- The functions that an argument list is passed on to. -/
inductive ExecFunction
  | execve
  | execvpe
  deriving DecidableEq

structure ExecCall where
  function : ExecFunction
  path : Nat
  argv : List Nat
  envp : Nat
  deriving DecidableEq

/-- `ap` is where `va_start` sets the cursor, the word behind `arg` on the stack. -/
def execl (memory : Memory) (environ ap pathname arg : Nat) : Option ExecCall :=
  (execlArgcGet memory ap arg).map fun argc =>
    let argv := execlArgvGet memory ap argc arg
    { function := .execve, path := pathname, argv, envp := environ }

def execlp (memory : Memory) (environ ap file arg : Nat) : Option ExecCall :=
  (execlArgcGet memory ap arg).map fun argc =>
    let argv := execlArgvGet memory ap argc arg
    { function := .execvpe, path := file, argv, envp := environ }

/-- The helpers move cursors of their own: the one that `envp` is taken from is where it started. -/
def execle (memory : Memory) (ap pathname arg : Nat) : Option ExecCall :=
  (execlArgcGet memory ap arg).map fun argc =>
    let argv := execlArgvGet memory ap argc arg
    let (envp, _) := vaArg memory ap
    { function := .execve, path := pathname, argv, envp }

/-- `MAXPATHLEN`. -/
def maxPathLen : Nat := 4096

inductive ExecvpeOutcome
  | execve (pathname : List (BitVec 8)) (argv envp : Nat)
  | returned (result : Int)
  deriving DecidableEq

/-- A store to the array `pathname` of `execvpe`. -/
def pathnamePut (pathname : Memory) (index : Nat) (byte : BitVec 8) : Option Memory :=
  if index < maxPathLen then some (pathname.store8 index byte) else none

/-- `strcat` to the array. -/
def pathnameCat (pathname memory : Memory) (s : Nat) : Option Memory :=
  (strlen pathname 0).bind fun length => (strlen memory s).bind fun size =>
    if length + size < maxPathLen then strcat pathname 0 memory s else none

/-- The string `"/"`. -/
def slash : Memory := fun place => if place = 0 then 0x2F else 0

/-- A candidate is completed with the name of the file. -/
def execvpeComplete (memory : Memory) (file : Nat) (pathname : Memory) (pathStart : Nat) : Option Memory :=
  (pathnamePut pathname pathStart 0).bind fun pathname =>
    (pathnameCat pathname slash 0).bind fun pathname => pathnameCat pathname memory file

/-- The variables of the loop of `execvpe`. -/
structure ExecvpeState where
  pathname : Memory
  result : Int
  i : Nat
  pathStart : Nat

/-- The first part of a turn, with whether it leaves the loop. -/
def execvpeTurn (memory : Memory) (stat : List (BitVec 8) → Int) (file path : Nat) (state : ExecvpeState) :
    Option (ExecvpeState × Bool) :=
  let ch := memory (path + state.i)
  let i := state.i + 1
  if ch = 0x3A then
    (execvpeComplete memory file state.pathname state.pathStart).bind fun pathname =>
      (stringAt pathname 0).map fun name =>
        let result := stat name
        ({ pathname, result, i, pathStart := 0 }, decide (0 ≤ result))
  else
    (pathnamePut state.pathname state.pathStart ch).map fun pathname =>
      ({ state with pathname, i, pathStart := state.pathStart + 1 }, false)

def execvpeLoop (memory : Memory) (stat : List (BitVec 8) → Int) (file path length : Nat) :
    Nat → ExecvpeState → Option ExecvpeState
  | 0, _ => none
  | turns + 1, state =>
    (execvpeTurn memory stat file path state).bind fun (state, leaves) =>
      if leaves then some state
      else if state.i = length then
        (execvpeComplete memory file state.pathname state.pathStart).map fun pathname => { state with pathname }
      else execvpeLoop memory stat file path length turns state

/-- What `execvpe` does behind the loop. -/
def execvpeFinish (stat : List (BitVec 8) → Int) (argv envp length : Nat) (state : ExecvpeState) :
    Option ExecvpeOutcome :=
  if state.i = length then
    (stringAt state.pathname 0).map fun pathname =>
      let result := stat pathname
      if 0 ≤ result then .execve pathname argv envp else .returned result
  else if state.i < length ∧ 0 ≤ state.result then
    (stringAt state.pathname 0).map fun pathname => .execve pathname argv envp
  else some (.returned state.result)

/-- `execvpe`, with the string `"PATH"` at `name`. `confstr` leaves the block that `calloc` gives as it is. -/
def execvpe (memory : Memory) (stat : List (BitVec 8) → Int) (environ name block file argv envp turns : Nat) :
    Option ExecvpeOutcome :=
  (strlen memory file).bind fun len =>
    if (List.range len).any fun i => memory (file + i) = 0x2F then (stringAt memory file).map fun file => .execve file argv envp
    else
      (getenv memory environ name).bind fun envpath =>
        let memory := if envpath = 0 then memory.fill block maxPathLen 0 else memory
        let path := if envpath = 0 then block else envpath
        (strlen memory path).bind fun length =>
          (execvpeLoop memory stat file path length turns ⟨fun _ => 0, -1, 0, 0⟩).bind (execvpeFinish stat argv envp length)

end YuzuOS.Libc
