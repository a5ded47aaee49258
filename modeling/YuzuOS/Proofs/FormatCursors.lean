import YuzuOS.Kernel.Stdio
import YuzuOS.Kernel.Serial

/-! The formatters compute the same over every cursor. What they put does not depend on
what the cursor keeps of it, so one run over the whole text stands for all others. -/

namespace YuzuOS.Proofs.FormatCursors
open YuzuOS.Library YuzuOS.Kernel

variable {σ τ : Type} {first : Cursor 32 σ} {second : Cursor 32 τ} {image : σ → τ}

def mapOut (image : σ → τ) (state : FormatState σ) : FormatState τ := ⟨state.ap, image state.out, state.counts⟩

section
variable (maps : first.Maps second image)
include maps

theorem emit_map (text : List (BitVec 8)) (out : σ) : second.emit text (image out) = image (first.emit text out) := by
  induction text generalizing out with
  | nil => rfl
  | cons byte text ih =>
    change second.emit text (second.put byte (image out)) = image (first.emit text (first.put byte out))
    rw [maps.put, ih]

theorem padWhile_map (c : BitVec 8) (bound field : Int32) (out : σ) :
    padWhile second c bound field (image out) =
      ((padWhile first c bound field out).1, image (padWhile first c bound field out).2) := by
  induction field, out using padWhile.induct first c bound with
  | case1 field out above ih =>
    rw [padWhile, if_pos above, maps.put, ih, padWhile.eq_1 first c bound field out, if_pos above]
  | case2 field out stop => rw [padWhile, if_neg stop, padWhile.eq_1 first c bound field out, if_neg stop]

theorem padDown_map (c : BitVec 8) (field : Int32) (out : σ) :
    padDown second c field (image out) = ((padDown first c field out).1, image (padDown first c field out).2) := by
  induction field, out using padDown.induct first c with
  | case1 field out above ih =>
    rw [padDown, if_pos above, maps.put, ih, padDown.eq_1 first c field out, if_pos above]
  | case2 field out stop => rw [padDown, if_neg stop, padDown.eq_1 first c field out, if_neg stop]

theorem putChar_map (flags : FormatFlags) (field : Int32) (c : BitVec 8) (out : σ) :
    putChar second flags field c (image out) = image (putChar first flags field c out) := by
  unfold putChar
  cases flags.left with
  | true => simp only [Bool.not_true, Bool.false_eq_true, if_false, maps.put, padDown_map maps]
  | false => simp only [Bool.not_false, if_true, padDown_map maps, maps.put]

theorem putString_map (flags : FormatFlags) (field : Int32) (string : Nat → BitVec 8) (length : Int32) (out : σ) :
    putString second flags field string length (image out) = image (putString first flags field string length out) := by
  unfold putString
  cases flags.left with
  | true => simp only [Bool.not_true, Bool.false_eq_true, if_false, emit_map maps, padWhile_map maps]
  | false => simp only [Bool.not_false, if_true, padWhile_map maps, emit_map maps]

theorem numberLayout_map (sign : Option (BitVec 8)) (mark : BitVec 8) (tmp : List (BitVec 8)) (base : Nat)
    (field precision : Int32) (flags : FormatFlags) (out : σ) :
    numberLayout second sign mark tmp base field precision flags (image out) =
      image (numberLayout first sign mark tmp base field precision flags out) := by
  unfold numberLayout
  -- each stretch of the text is padding or bytes put, whichever flags are set
  cases sign <;> cases flags.left <;> cases flags.zeropad <;> cases flags.special <;>
    by_cases octal : base = 8 <;> by_cases hexadecimal : base = 16 <;>
    simp [octal, hexadecimal, padWhile_map maps, emit_map maps, maps.put]

theorem vsnprintfNumber_map (number : BitVec 64) (base : Nat) (field precision : Int32) (flags : FormatFlags)
    (out : σ) :
    vsnprintfNumber second number base field precision flags (image out) =
      image (vsnprintfNumber first number base field precision flags out) :=
  numberLayout_map maps ..

theorem vsnprintfConvert_map (texts : Memory) (head : FormatHead) (qualifier : Qualifier) (c : BitVec 8)
    (state : FormatState σ) :
    vsnprintfConvert second texts head qualifier c (mapOut image state) =
      mapOut image (vsnprintfConvert first texts head qualifier c state) := by
  unfold vsnprintfConvert
  split
  next => simp [mapOut, putChar_map maps]
  next =>
    split
    next => simp [mapOut, putString_map maps]
    next =>
      split
      next => simp [mapOut, vsnprintfNumber_map maps]
      next =>
        split
        next => simp [mapOut, maps.written]
        next =>
          split
          next => simp [mapOut, maps.put]
          next =>
            cases base : vsnprintfBase head.flags c with
            | none => simp [mapOut, base, maps.put]
            | some kind => simp [mapOut, base, vsnprintfNumber_map maps]

theorem vsnprintfLoop_map (texts : Memory) (turns : Nat) (format : List (BitVec 8)) (state : FormatState σ) :
    vsnprintfLoop second texts turns format (mapOut image state) =
      (vsnprintfLoop first texts turns format state).map (mapOut image) := by
  induction turns generalizing format state with
  | zero =>
    cases format with
    | nil => rfl
    | cons c format => rfl
  | succ turns ih =>
    cases format with
    | nil => rfl
    | cons c format =>
      unfold vsnprintfLoop
      by_cases literal : c ≠ byte '%'
      · have moved : ({ mapOut image state with out := second.put c (mapOut image state).out } : FormatState τ) =
            mapOut image { state with out := first.put c state.out } := by
          simp [mapOut, maps.put]
        rw [if_pos literal, if_pos literal, moved, ih]
      · rw [if_neg literal, if_neg literal]
        have same : (mapOut image state).ap = state.ap := rfl
        simp only [same]
        generalize vsnprintfQualifier (formatHead format state.ap).format = read
        obtain ⟨qualifier, rest⟩ := read
        cases rest with
        | nil => rfl
        | cons c rest =>
          simp only
          rw [vsnprintfConvert_map maps, ih]

end

end YuzuOS.Proofs.FormatCursors
