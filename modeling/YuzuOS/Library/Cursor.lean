import Mathlib.Algebra.Order.Ring.Nat
import Mathlib.Data.List.Basic

/-! Writers of bytes. A cursor says what a byte put does to the state of a writer and
how many bytes it counts. A program over any cursor computes the same on all of them
that are images of the text it puts, whatever they keep of the text. -/

namespace YuzuOS.Library

structure Cursor (w : Nat) (σ : Type) where
  put : BitVec 8 → σ → σ
  written : σ → BitVec w

/-- All the bytes put. -/
def Cursor.text (w : Nat) : Cursor w (List (BitVec 8)) where
  put byte text := text ++ [byte]
  written text := BitVec.ofNat w text.length

/-- The states of one cursor stand for the states of another. -/
structure Cursor.Maps {w : Nat} {σ τ : Type} (first : Cursor w σ) (second : Cursor w τ) (image : σ → τ) : Prop where
  put : ∀ byte out, second.put byte (image out) = image (first.put byte out)
  written : ∀ out, second.written (image out) = first.written out

def Cursor.emit {w : Nat} {σ : Type} (cursor : Cursor w σ) (text : List (BitVec 8)) (out : σ) : σ :=
  text.foldl (fun out byte => cursor.put byte out) out

theorem Cursor.emit_text {w : Nat} (text out : List (BitVec 8)) : (Cursor.text w).emit text out = out ++ text := by
  induction text generalizing out with
  | nil => simp [emit]
  | cons byte text ih =>
    rw [show (Cursor.text w).emit (byte :: text) out = (Cursor.text w).emit text (out ++ [byte]) from rfl, ih]
    simp

/-- A position in an address space and the stores made so far, the newest first. -/
structure Sink (w : Nat) where
  position : BitVec w
  stores : List (BitVec w × BitVec 8)
  deriving DecidableEq

namespace Sink
variable {w : Nat}

/-- The position moves over every byte, and a byte is stored where there is room. -/
def put (room : BitVec w → Bool) (byte : BitVec 8) (sink : Sink w) : Sink w :=
  { position := sink.position + 1
    stores := if room sink.position then (sink.position, byte) :: sink.stores else sink.stores }

/-- The byte last stored at an address. -/
def content (sink : Sink w) (address : BitVec w) : Option (BitVec 8) := sink.stores.lookup address

/-- The writer that starts at `start`. -/
def cursor (room : BitVec w → Bool) (start : BitVec w) : Cursor w (Sink w) where
  put := put room
  written sink := sink.position - start

variable {room wide : BitVec w → Bool} {start address : BitVec w} {sink small large : Sink w} {text : List (BitVec 8)}
  {byte : BitVec 8}

@[simp] theorem put_position : (sink.put room byte).position = sink.position + 1 := rfl

/-- The position one byte later, counted from there. -/
theorem put_position_add (room : BitVec w → Bool) (byte : BitVec 8) (index : Nat) :
    (sink.put room byte).position + BitVec.ofNat w index = sink.position + BitVec.ofNat w (index + 1) := by
  rw [put_position, BitVec.add_assoc, BitVec.add_comm 1, show (1 : BitVec w) = BitVec.ofNat w 1 from rfl,
    ← BitVec.ofNat_add]

@[simp] theorem emit_nil : (cursor room start).emit [] sink = sink := rfl

@[simp] theorem emit_cons :
    (cursor room start).emit (byte :: text) sink = (cursor room start).emit text (sink.put room byte) := rfl

theorem emit_append (more : List (BitVec 8)) :
    (cursor room start).emit (text ++ more) sink =
      (cursor room start).emit more ((cursor room start).emit text sink) := by
  simp [Cursor.emit]

theorem emit_position : ((cursor room start).emit text sink).position = sink.position + BitVec.ofNat w text.length := by
  induction text generalizing sink with
  | nil => simp
  | cons byte text ih => rw [emit_cons, ih, put_position_add, List.length_cons]

/-- A sink that starts at `start` is an image of the text. -/
theorem maps_text (room : BitVec w → Bool) (start : BitVec w) :
    (Cursor.text w).Maps (cursor room start) (fun text => (cursor room start).emit text ⟨start, []⟩) where
  put byte text := (emit_append [byte]).symm
  written text := by
    change ((cursor room start).emit text ⟨start, []⟩).position - start = _
    rw [emit_position, BitVec.add_comm, BitVec.add_sub_cancel]
    rfl

/-- The text is stored where it comes by, and nowhere without room. -/
theorem emit_stores_index {entry : BitVec w × BitVec 8} (stored : entry ∈ ((cursor room start).emit text sink).stores) :
    entry ∈ sink.stores ∨ room entry.1 ∧ ∃ index < text.length, entry.1 = sink.position + BitVec.ofNat w index := by
  induction text generalizing sink with
  | nil => exact .inl stored
  | cons byte text ih =>
    rw [emit_cons] at stored
    cases ih stored with
    | inr later =>
      obtain ⟨fits, index, inside, place⟩ := later
      exact .inr ⟨fits, index + 1, by simpa using inside, by rw [place, put_position_add]⟩
    | inl earlier =>
      unfold put at earlier
      split at earlier
      next fits =>
        cases List.mem_cons.mp earlier with
        | inl same =>
          subst same
          exact .inr ⟨fits, 0, by simp, by rw [show BitVec.ofNat w 0 = 0#w from rfl, BitVec.add_zero]⟩
        | inr old => exact .inl old
      next => exact .inl earlier

theorem emit_stores_mono {entry : BitVec w × BitVec 8} (stored : entry ∈ sink.stores) :
    entry ∈ ((cursor room start).emit text sink).stores := by
  induction text generalizing sink with
  | nil => exact stored
  | cons byte text ih =>
    rw [emit_cons]
    refine ih ?_
    unfold put
    split
    · exact List.mem_cons_of_mem _ stored
    · exact stored

/-- Every position that the text comes over is stored to where there is room. -/
theorem emit_stores_at (room : BitVec w → Bool) (start : BitVec w) (sink : Sink w) {index : Nat}
    (inside : index < text.length) (fits : room (sink.position + BitVec.ofNat w index)) :
    ∃ byte, (sink.position + BitVec.ofNat w index, byte) ∈ ((cursor room start).emit text sink).stores := by
  induction text generalizing sink index with
  | nil => simp at inside
  | cons byte text ih =>
    cases index with
    | zero =>
      rw [show BitVec.ofNat w 0 = 0#w from rfl, BitVec.add_zero] at fits ⊢
      rw [emit_cons]
      exact ⟨byte, emit_stores_mono (by simp [put, fits])⟩
    | succ index =>
      rw [← put_position_add room byte] at fits ⊢
      exact ih _ (by simpa using inside) fits

/-- Writers with more and with less room agree where both have room. -/
theorem put_agree (same : small.position = large.position) (narrow : ∀ address, room address → wide address)
    (agree : ∀ address, room address → small.content address = large.content address) (fits : room address) :
    (small.put room byte).content address = (large.put wide byte).content address := by
  unfold content put
  rw [← same]
  by_cases here : room small.position
  · simp only [here, narrow _ here, if_true, List.lookup_cons]
    split
    · rfl
    · exact agree address fits
  · have other : (address == small.position) = false := by
      rw [beq_eq_false_iff_ne]
      intro equal
      exact here (equal ▸ fits)
    rw [if_neg here]
    split
    · rw [List.lookup_cons, other]
      exact agree address fits
    · exact agree address fits

theorem emit_agree (text : List (BitVec 8)) (same : small.position = large.position)
    (narrow : ∀ address, room address → wide address)
    (agree : ∀ address, room address → small.content address = large.content address) (fits : room address) :
    ((cursor room start).emit text small).content address = ((cursor wide start).emit text large).content address := by
  induction text generalizing small large with
  | nil => exact agree address fits
  | cons byte text ih =>
    rw [emit_cons, emit_cons]
    exact ih (by simp [same]) fun address fits => put_agree same narrow agree fits

/-- What stands where the text does not come is left. -/
theorem emit_content_other (apart : ∀ index < text.length, address ≠ sink.position + BitVec.ofNat w index) :
    ((cursor room start).emit text sink).content address = sink.content address := by
  induction text generalizing sink with
  | nil => rfl
  | cons byte text ih =>
    have here := apart 0 (by simp)
    rw [emit_cons, ih]
    · unfold content put
      split
      · rw [List.lookup_cons, beq_eq_false_iff_ne.mpr (by simpa using here)]
      · rfl
    · intro index inside
      have later := apart (index + 1) (by simpa using inside)
      rwa [put_position_add]

/-- A text that does not come around is stored byte by byte as far as there is room. -/
theorem emit_content (room : BitVec w → Bool) (start : BitVec w) (sink : Sink w) {index : Nat}
    (short : text.length ≤ 2 ^ w) (inside : index < text.length) (fits : room (sink.position + BitVec.ofNat w index)) :
    ((cursor room start).emit text sink).content (sink.position + BitVec.ofNat w index) = some text[index] := by
  induction text generalizing sink index with
  | nil => simp at inside
  | cons byte text ih =>
    simp only [List.length_cons] at short inside
    cases index with
    | zero =>
      rw [show BitVec.ofNat w 0 = 0#w from rfl, BitVec.add_zero] at fits ⊢
      rw [emit_cons, emit_content_other]
      · simp [content, put, fits]
      · intro later below equal
        rw [put_position_add] at equal
        have zero : BitVec.ofNat w (later + 1) = 0 := by simpa using equal.symm
        have value := congrArg BitVec.toNat zero
        simp only [BitVec.toNat_ofNat, BitVec.ofNat_eq_ofNat, Nat.zero_mod] at value
        rw [Nat.mod_eq_of_lt (by omega)] at value
        omega
    | succ index =>
      rw [← put_position_add room byte] at fits ⊢
      exact ih _ (by omega) (by omega) fits

end Sink

end YuzuOS.Library
