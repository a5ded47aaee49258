import YuzuOS.Core.Ini

/-! `getenv` of the C library, with the bytes that it reads. `errno` is left out. -/

namespace YuzuOS.Libc
open YuzuOS.Library YuzuOS.Core

/-- `ENV_HOLE`, an entry that is not in use. -/
def envHole : Nat := 0xCC00

def envnameIsValid (memory : Memory) (envname : Nat) : Option Bool :=
  if envname = 0 then some false
  else (strlen memory envname).map fun length => (List.range length).all fun i => memory (envname + i) ≠ 0x3D

/-- The loop of `pointers_array_count`, up to the word that is zero. -/
def pointersArrayEnd (memory : Memory) : Nat → Nat → Option Nat
  | 0, _ => none
  | turns + 1, a => if memory.load32 a ≠ 0 then pointersArrayEnd memory turns (a + 4) else some a

def pointersArrayCount (memory : Memory) (arr : Nat) : Option Nat :=
  if arr = 0 then some 0 else (pointersArrayEnd memory (2 ^ 32) arr).map fun a => (a - arr) / 4

/-- The inner loop of `getenv`, from byte `j` of the entry on: what it makes `getenv` return, if anything.
The index `i` is the one of the outer loop. -/
def getenvEntry (memory : Memory) (name env i : Nat) : Nat → Nat → Option (Option Nat)
  | 0, _ => none
  | turns + 1, j =>
    if memory (env + j) = 0 then some none
    else if memory (env + j) = 0x3D then some (some (if memory (name + j) = 0 then env + j + 1 else 0))
    else if memory (env + j) ≠ memory (name + i) then some none
    else getenvEntry memory name env i turns (j + 1)

/-- The outer loop of `getenv`, with the entries that are left. -/
def getenvLoop (memory : Memory) (name environ : Nat) : Nat → Nat → Option Nat
  | 0, _ => some 0
  | left + 1, i =>
    let env := memory.load32 (environ + 4 * i)
    if env = envHole then getenvLoop memory name environ left (i + 1)
    else match getenvEntry memory name env i (2 ^ 32) 0 with
      | none => none
      | some none => getenvLoop memory name environ left (i + 1)
      | some (some result) => some result

def getenv (memory : Memory) (environ name : Nat) : Option Nat :=
  (envnameIsValid memory name).bind fun valid =>
    if valid then (pointersArrayCount memory environ).bind fun envLength => getenvLoop memory name environ envLength 0
    else some 0

/-- A word of the array, a byte of the name or a byte of the entry at `env`. -/
inductive EnvPlace
  | environ (place : Nat)
  | name (place : Nat)
  | entry (env place : Nat)
  deriving DecidableEq

def envnameIsValidPlaces (memory : Memory) (envname : Nat) : List EnvPlace :=
  (strlenPlaces memory envname).map .name ++
    (strlen memory envname).elim [] fun length =>
      let passed := (List.range length).takeWhile fun i => memory (envname + i) ≠ 0x3D
      (List.range (min (passed.length + 1) length)).map fun i => .name (envname + i)

def pointersArrayPlaces (memory : Memory) : Nat → Nat → List EnvPlace
  | 0, _ => []
  | turns + 1, a => .environ a :: if memory.load32 a ≠ 0 then pointersArrayPlaces memory turns (a + 4) else []

def getenvEntryPlaces (memory : Memory) (name env i : Nat) : Nat → Nat → List EnvPlace
  | 0, _ => []
  | turns + 1, j =>
    .entry env (env + j) ::
      if memory (env + j) = 0 then []
      else if memory (env + j) = 0x3D then [.name (name + j)]
      else .name (name + i) ::
        if memory (env + j) ≠ memory (name + i) then [] else getenvEntryPlaces memory name env i turns (j + 1)

def getenvLoopPlaces (memory : Memory) (name environ : Nat) : Nat → Nat → List EnvPlace
  | 0, _ => []
  | left + 1, i =>
    let env := memory.load32 (environ + 4 * i)
    .environ (environ + 4 * i) ::
      if env = envHole then getenvLoopPlaces memory name environ left (i + 1)
      else
        getenvEntryPlaces memory name env i (2 ^ 32) 0 ++
          if getenvEntry memory name env i (2 ^ 32) 0 = some none then getenvLoopPlaces memory name environ left (i + 1) else []

/-- All that `getenv` reads. -/
def getenvPlaces (memory : Memory) (environ name : Nat) : List EnvPlace :=
  envnameIsValidPlaces memory name ++
    if envnameIsValid memory name = some true then
      (if environ = 0 then [] else pointersArrayPlaces memory (2 ^ 32) environ) ++
        (pointersArrayCount memory environ).elim [] fun envLength => getenvLoopPlaces memory name environ envLength 0
    else []

end YuzuOS.Libc
