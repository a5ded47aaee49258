import YuzuOS.Library.Memory

/-! The string functions of the C library that the other programs use. A string
that is not terminated within the address space has no length. -/

namespace YuzuOS.Libc
open YuzuOS.Library

/-- `isspace`, a macro in the source. -/
def isspace (c : BitVec 8) : Bool := c = 0x20 ∨ 0x09 ≤ c ∧ c ≤ 0x0D

/-- The loop of `strlen`. -/
def strlenFrom (memory : Memory) : Nat → Nat → Option Nat
  | 0, _ => none
  | turns + 1, str => if memory str = 0 then some 0 else (strlenFrom memory turns (str + 1)).map (· + 1)

def strlen (memory : Memory) (str : Nat) : Option Nat := strlenFrom memory (2 ^ 32) str

def strnlen (memory : Memory) : Nat → Nat → Nat
  | _, 0 => 0
  | s, maxlen + 1 => if memory s = 0 then 0 else strnlen memory (s + 1) maxlen + 1

/-- `strncpy` from one memory to another. -/
def strncpy (target : Memory) (dest : Nat) (memory : Memory) (src n : Nat) : Memory :=
  let size := strnlen memory src n
  let target := if size ≠ n then target.fill (dest + size) (n - size) 0 else target
  target.write dest size fun i => memory (src + i)

/-- `strcpy` from one memory to another. -/
def strcpy (target : Memory) (s1 : Nat) (memory : Memory) (s2 : Nat) : Option Memory :=
  (strlen memory s2).map fun length => target.write s1 (length + 1) fun i => memory (s2 + i)

/-- `strcat` from one memory to another. -/
def strcat (target : Memory) (s1 : Nat) (memory : Memory) (s2 : Nat) : Option Memory :=
  (strlen target s1).bind fun length => strcpy target (s1 + length) memory s2

/-- Whether `strchr` finds a character; it finds the terminator too. -/
def strchr (str : List (BitVec 8)) (c : BitVec 8) : Bool := (str ++ [0]).contains c

/-- The string at an address. -/
def stringAt (memory : Memory) (str : Nat) : Option (List (BitVec 8)) :=
  (strlen memory str).map fun length => (List.range length).map fun i => memory (str + i)

end YuzuOS.Libc
