import YuzuOS.Proofs.FormatCursors
import YuzuOS.Proofs.FormatGrammar

/-! What `vsnprintf` stores. The text it computes does not depend on the buffer; the
buffer gets as much of it as lies before its end, and a `NUL` that stands within the
buffer only when the text is shorter than the buffer. -/

namespace YuzuOS.Proofs.FormatBuffer
open YuzuOS.Library YuzuOS.Kernel FormatCursors FormatGrammar

/-- A call on a writer that keeps the whole text. -/
def wholeRun (texts : Memory) (format : List (BitVec 8)) (ap : VaList) : Option (FormatState (List (BitVec 8))) :=
  vsnprintfLoop (Cursor.text 32) texts format.length format ⟨ap, [], []⟩

def wholeText (texts : Memory) (format : List (BitVec 8)) (ap : VaList) : List (BitVec 8) :=
  ((wholeRun texts format ap).map FormatState.out).getD []

def wholeCounts (texts : Memory) (format : List (BitVec 8)) (ap : VaList) : List (BitVec 32 × BitVec 32) :=
  ((wholeRun texts format ap).map FormatState.counts).getD []

/-- The buffer after a text that comes by it. -/
def bufferAfter (str size : BitVec 32) (text : List (BitVec 8)) : Sink 32 :=
  vsnprintfEnd (str + size) size ((Sink.cursor (fun position => decide (position < str + size)) str).emit text ⟨str, []⟩)

/-- A buffer does not come around the address space. -/
structure Buffer (str size : BitVec 32) : Prop where
  bound : 0 ≤ size.toInt
  apart : str.toNat + size.toNat < 2 ^ 32

variable {texts : Memory} {str size : BitVec 32} {format text : List (BitVec 8)} {ap : VaList}

theorem Buffer.stop (buffer : Buffer str size) : (str + size).toNat = str.toNat + size.toNat := by
  rw [BitVec.toNat_add, Nat.mod_eq_of_lt buffer.apart]

theorem vsnprintf_map (texts : Memory) (format : List (BitVec 8)) (ap : VaList) (buffer : Buffer str size) :
    vsnprintf texts str size format ap = (wholeRun texts format ap).map fun last =>
      ⟨Int32.ofNat last.out.length, bufferAfter str size last.out, last.counts⟩ := by
  have maps := Sink.maps_text (fun position => decide (position < str + size)) str
  have mapped : vsnprintfLoop (Sink.cursor (fun position => decide (position < str + size)) str) texts format.length format
      ⟨ap, ⟨str, []⟩, []⟩ = _ := vsnprintfLoop_map maps texts format.length format ⟨ap, [], []⟩
  have inside : ¬str + size < str := by
    intro wraps
    have below : (str + size).toNat < str.toNat := wraps
    rw [buffer.stop] at below
    omega
  unfold vsnprintf
  rw [if_neg (by have := buffer.bound; omega)]
  simp only [if_neg inside]
  rw [mapped, Option.map_map]
  refine congrArg (Option.map · (wholeRun texts format ap)) (funext fun last => ?_)
  simp only [Function.comp_apply, mapOut, bufferAfter]
  rw [Sink.emit_position, BitVec.add_comm, BitVec.add_sub_cancel]
  rfl

theorem vsnprintf_run {last : FormatState (List (BitVec 8))} (run : wholeRun texts format ap = some last)
    (buffer : Buffer str size) :
    vsnprintf texts str size format ap =
      some ⟨Int32.ofNat last.out.length, bufferAfter str size last.out, last.counts⟩ := by
  rw [vsnprintf_map texts format ap buffer, run, Option.map_some]

theorem vsnprintf_whole (complete : Complete format) (buffer : Buffer str size) :
    vsnprintf texts str size format ap =
      some ⟨Int32.ofNat (wholeText texts format ap).length, bufferAfter str size (wholeText texts format ap),
        wholeCounts texts format ap⟩ := by
  obtain ⟨last, run⟩ := vsnprintfLoop_complete (Cursor.text 32) texts complete le_rfl ⟨ap, [], []⟩
  have whole : wholeRun texts format ap = some last := run
  rw [vsnprintf_run whole buffer]
  simp only [wholeText, wholeCounts, whole, Option.map_some, Option.getD_some]

theorem emit_stop {room : BitVec 32 → Bool} :
    ((Sink.cursor room str).emit text ⟨str, []⟩).position = str + BitVec.ofNat 32 text.length :=
  Sink.emit_position

/-- The promise of the call: nothing is stored outside the buffer, and the text as far as
it fits is terminated within it. -/
structure Contained (str size : BitVec 32) (text : List (BitVec 8)) (sink : Sink 32) : Prop where
  inside : ∀ entry ∈ sink.stores, str.toNat ≤ entry.1.toNat ∧ entry.1.toNat < str.toNat + size.toNat
  stored : ∀ index (_ : index < text.length), index < size.toNat - 1 →
    sink.content (str + BitVec.ofNat 32 index) = some text[index]
  terminated : sink.content (str + BitVec.ofNat 32 (min text.length (size.toNat - 1))) = some 0

theorem offset_toNat (buffer : Buffer str size) {index : Nat} (below : index ≤ size.toNat) :
    (str + BitVec.ofNat 32 index).toNat = str.toNat + index := by
  have apart := buffer.apart
  rw [BitVec.toNat_add, BitVec.toNat_ofNat, Nat.mod_eq_of_lt (by omega : index < 2 ^ 32), Nat.mod_eq_of_lt (by omega)]

theorem offset_room (buffer : Buffer str size) {index : Nat} (below : index < size.toNat) :
    str + BitVec.ofNat 32 index < str + size := by
  have place := offset_toNat buffer below.le
  have stop := buffer.stop
  change (str + BitVec.ofNat 32 index).toNat < (str + size).toNat
  omega

/-- A text that is shorter than the buffer stays within it. -/
theorem contained_of_short (buffer : Buffer str size) (short : text.length < size.toNat) :
    Contained str size text (bufferAfter str size text) := by
  have apart := buffer.apart
  have last : min text.length (size.toNat - 1) = text.length := by omega
  have room := offset_room buffer short
  have after : bufferAfter str size text =
      ⟨str + BitVec.ofNat 32 text.length, (str + BitVec.ofNat 32 text.length, 0) ::
        ((Sink.cursor (fun position => decide (position < str + size)) str).emit text ⟨str, []⟩).stores⟩ := by
    unfold bufferAfter vsnprintfEnd
    rw [emit_stop, if_pos room]
  rw [after]
  constructor
  · intro entry member
    cases List.mem_cons.mp member with
    | inl terminator =>
      rw [terminator, offset_toNat buffer short.le]
      omega
    | inr member =>
      cases Sink.emit_stores_index member with
      | inl none => simp at none
      | inr place =>
        obtain ⟨-, index, below, place⟩ := place
        rw [place, offset_toNat buffer (by omega)]
        omega
  · intro index within fits
    have other : (str + BitVec.ofNat 32 index == str + BitVec.ofNat 32 text.length) = false := by
      rw [beq_eq_false_iff_ne]
      intro same
      have places := congrArg BitVec.toNat same
      rw [offset_toNat buffer (by omega), offset_toNat buffer short.le] at places
      omega
    have content := Sink.emit_content (fun position => decide (position < str + size)) str ⟨str, []⟩ (by omega)
      within (by simpa using offset_room buffer (by omega))
    unfold Sink.content
    rw [List.lookup_cons, other]
    exact content
  · rw [last]
    simp [Sink.content]

/-- A text that fills the buffer is terminated behind it, or comes around to the front of the memory. -/
theorem not_contained_of_long (pointer : 0 < str) (positive : 0 < size) (buffer : Buffer str size)
    (long : size.toNat ≤ text.length) : ¬Contained str size text (bufferAfter str size text) := by
  intro contained
  have apart := buffer.apart
  have stop := buffer.stop
  have start : 0 < str.toNat := pointer
  have filled : 0 < size.toNat := positive
  have front : (0 : BitVec 32) < str + size := by
    change 0 < (str + size).toNat
    omega
  have outside : ∀ byte, ((0 : BitVec 32), byte) ∉ (bufferAfter str size text).stores := by
    intro byte member
    have inside := (contained.inside _ member).1
    have zero : (0 : BitVec 32).toNat = 0 := rfl
    simp only [zero] at inside
    omega
  have stores : (bufferAfter str size text).stores =
      if str + BitVec.ofNat 32 text.length < str + size then
        (str + BitVec.ofNat 32 text.length, 0) ::
          ((Sink.cursor (fun position => decide (position < str + size)) str).emit text ⟨str, []⟩).stores
      else (str + size, 0) :: ((Sink.cursor (fun position => decide (position < str + size)) str).emit text ⟨str, []⟩).stores := by
    unfold bufferAfter vsnprintfEnd
    rw [emit_stop, if_pos positive]
  by_cases around : str.toNat + text.length < 2 ^ 32
  · have place : (str + BitVec.ofNat 32 text.length).toNat = str.toNat + text.length := by
      rw [BitVec.toNat_add, BitVec.toNat_ofNat, Nat.mod_eq_of_lt (by omega : text.length < 2 ^ 32), Nat.mod_eq_of_lt around]
    have behind : ¬str + BitVec.ofNat 32 text.length < str + size := by
      intro below
      have below : (str + BitVec.ofNat 32 text.length).toNat < (str + size).toNat := below
      omega
    rw [if_neg behind] at stores
    have inside := (contained.inside (str + size, 0) (by rw [stores]; exact List.mem_cons_self)).2
    simp only [stop] at inside
    omega
  · -- the position comes to address zero, within the text or behind it
    have zero : str + BitVec.ofNat 32 (2 ^ 32 - str.toNat) = 0 := by
      apply BitVec.eq_of_toNat_eq
      rw [BitVec.toNat_add, BitVec.toNat_ofNat]
      have whole := str.isLt
      rw [Nat.mod_eq_of_lt (by omega : 2 ^ 32 - str.toNat < 2 ^ 32), show str.toNat + (2 ^ 32 - str.toNat) = 2 ^ 32 by omega]
      rfl
    rcases Nat.lt_or_ge (2 ^ 32 - str.toNat) text.length with within | behind
    · obtain ⟨byte, member⟩ := Sink.emit_stores_at (fun position => decide (position < str + size)) str ⟨str, []⟩
        within (by rw [show (⟨str, []⟩ : Sink 32).position = str from rfl, zero]; exact decide_eq_true front)
      rw [show (⟨str, []⟩ : Sink 32).position = str from rfl, zero] at member
      refine outside byte ?_
      rw [stores]
      split
      · exact List.mem_cons_of_mem _ member
      · exact List.mem_cons_of_mem _ member
    · have exact : text.length = 2 ^ 32 - str.toNat := by omega
      rw [exact, zero, if_pos front] at stores
      exact outside 0 (by rw [stores]; exact List.mem_cons_self)

/-- A call keeps to its buffer exactly when the untruncated output is shorter than the buffer. -/
theorem vsnprintf_contained_iff (texts : Memory) (ap : VaList) (complete : Complete format) (pointer : 0 < str)
    (positive : 0 < size) (buffer : Buffer str size) :
    (∃ result, vsnprintf texts str size format ap = some result ∧ Contained str size (wholeText texts format ap) result.sink) ↔
      (wholeText texts format ap).length < size.toNat := by
  rw [vsnprintf_whole complete buffer]
  constructor
  · rintro ⟨result, run, contained⟩
    cases run
    by_contra long
    exact not_contained_of_long pointer positive buffer (Nat.le_of_not_lt long) contained
  · intro short
    exact ⟨_, rfl, contained_of_short buffer short⟩

def countFormat : List (BitVec 8) := [byte '%', byte 'd', byte '%', byte 'n']

def countArguments : VaList := fun index => if index = 0 then 42 else 0x2000

theorem countFormat_complete : Complete countFormat := by
  have plain : Head ([] ++ ([] ++ [])) (0 + 0) := .intro (by decide) .absent .absent
  have stores : Complete (byte '%' :: ([] ++ ([] ++ byte 'n' :: []))) := .directive plain (by decide) (by decide) .done
  exact .directive plain List.mem_cons_self (by decide) stores

theorem countFormat_text : wholeText (fun _ => 0) countFormat countArguments = [byte '4', byte '2'] := by decide +kernel

/-- A number in a buffer of three bytes. -/
theorem vsnprintf_contained_example :
    ∃ result, vsnprintf (fun _ => 0) 0x1000 3 countFormat countArguments = some result ∧
      Contained 0x1000 3 [byte '4', byte '2'] result.sink := by
  obtain ⟨result, run, contained⟩ := (vsnprintf_contained_iff (fun _ => 0) countArguments countFormat_complete
    (show 0 < 0x1000 by decide) (show 0 < 3 by decide) ⟨by decide, by decide⟩).mpr (by
      rw [countFormat_text]
      decide)
  exact ⟨result, run, countFormat_text ▸ contained⟩

/-- One character in a buffer of one byte is terminated behind the buffer. -/
theorem vsnprintf_leaves_buffer :
    Complete [byte 'A'] ∧ Buffer 0x1000 1 ∧
      ∃ result, vsnprintf (fun _ => 0) 0x1000 1 [byte 'A'] (fun _ => 0) = some result ∧
        (0x1001, 0) ∈ result.sink.stores ∧
          ¬Contained 0x1000 1 (wholeText (fun _ => 0) [byte 'A'] fun _ => 0) result.sink := by
  have run : (vsnprintf (fun _ => 0) 0x1000 1 [byte 'A'] (fun _ => 0)).map (fun result => result.sink.stores) =
      some [(0x1001, 0), (0x1000, byte 'A')] := by decide +kernel
  obtain ⟨result, returns, stores⟩ := Option.map_eq_some_iff.mp run
  have member : ((0x1001 : BitVec 32), (0 : BitVec 8)) ∈ result.sink.stores := by
    rw [stores]
    exact List.mem_cons_self
  refine ⟨.literal (by decide) .done, ⟨by decide, by decide⟩, result, returns, member, fun contained => ?_⟩
  exact absurd (contained.inside _ member).2 (by decide)

/-- Buffers of two sizes agree before the end of the smaller one. -/
theorem bufferAfter_agree {small large address : BitVec 32} (order : small ≤ large) (narrow : Buffer str small)
    (wide : Buffer str large) (below : address < str + small) :
    (bufferAfter str small text).content address = (bufferAfter str large text).content address := by
  have order : small.toNat ≤ large.toNat := order
  have first := narrow.stop
  have second := wide.stop
  have room : ∀ place : BitVec 32, decide (place < str + small) → decide (place < str + large) := by
    intro place fits
    have fits : place.toNat < (str + small).toNat := of_decide_eq_true fits
    apply decide_eq_true
    change place.toNat < (str + large).toNat
    omega
  have stored : ((Sink.cursor (fun place => decide (place < str + small)) str).emit text ⟨str, []⟩).content address =
      ((Sink.cursor (fun place => decide (place < str + large)) str).emit text ⟨str, []⟩).content address :=
    Sink.emit_agree text rfl room (fun _ _ => rfl) (decide_eq_true below)
  have inside : address.toNat < (str + small).toNat := below
  -- a terminator behind the smaller buffer does not stand at the address
  have apart : ∀ place : BitVec 32, (str + small).toNat ≤ place.toNat → (address == place) = false := by
    intro place behind
    rw [beq_eq_false_iff_ne]
    intro same
    rw [same] at inside
    omega
  unfold bufferAfter vsnprintfEnd Sink.content
  simp only [emit_stop]
  by_cases fits : str + BitVec.ofNat 32 text.length < str + small
  · rw [if_pos fits, if_pos (of_decide_eq_true (room _ (decide_eq_true fits))), List.lookup_cons, List.lookup_cons]
    split
    · rfl
    · exact stored
  · rw [if_neg fits]
    have behind : (str + small).toNat ≤ (str + BitVec.ofNat 32 text.length).toNat := Nat.le_of_not_lt fits
    have left : ∀ stores : List (BitVec 32 × BitVec 8),
        (if 0 < small then (str + small, 0) :: stores else stores).lookup address = stores.lookup address := by
      intro stores
      split
      · rw [List.lookup_cons, apart _ le_rfl]
      · rfl
    have right : ∀ stores : List (BitVec 32 × BitVec 8),
        (if str + BitVec.ofNat 32 text.length < str + large then (str + BitVec.ofNat 32 text.length, 0) :: stores
          else if 0 < large then (str + large, 0) :: stores else stores).lookup address = stores.lookup address := by
      intro stores
      split
      · rw [List.lookup_cons, apart _ behind]
      · split
        · rw [List.lookup_cons, apart _ (by omega)]
        · rfl
    rw [left, right]
    exact stored

theorem bufferAfter_text (buffer : Buffer str size) (short : text.length < 2 ^ 32) {index : Nat}
    (within : index < text.length) (fits : index < size.toNat) :
    (bufferAfter str size text).content (str + BitVec.ofNat 32 index) = some text[index] := by
  have room := offset_room buffer fits
  have place := offset_toNat buffer fits.le
  have stop := buffer.stop
  have content := Sink.emit_content (fun position => decide (position < str + size)) str ⟨str, []⟩ short.le within
    (by simpa using room)
  have other : (str + BitVec.ofNat 32 index == str + BitVec.ofNat 32 text.length) = false := by
    rw [beq_eq_false_iff_ne]
    intro same
    have offsets := congrArg BitVec.toNat (BitVec.add_right_inj str |>.mp same)
    rw [BitVec.toNat_ofNat, BitVec.toNat_ofNat, Nat.mod_eq_of_lt (by omega), Nat.mod_eq_of_lt short] at offsets
    omega
  have last : (str + BitVec.ofNat 32 index == str + size) = false := by
    rw [beq_eq_false_iff_ne]
    intro same
    rw [same] at place
    omega
  unfold bufferAfter vsnprintfEnd Sink.content
  simp only [emit_stop]
  split
  · rw [List.lookup_cons, other]
    exact content
  · split
    · rw [List.lookup_cons, last]
      exact content
    · exact content

/-- A text that does not come around the address space ends at the buffer. -/
theorem bufferAfter_stores (buffer : Buffer str size) (positive : 0 < size) (whole : str.toNat + text.length < 2 ^ 32) :
    (bufferAfter str size text).stores = (str + BitVec.ofNat 32 (min text.length size.toNat), 0) ::
      ((Sink.cursor (fun position => decide (position < str + size)) str).emit text ⟨str, []⟩).stores := by
  have place : (str + BitVec.ofNat 32 text.length).toNat = str.toNat + text.length := by
    rw [BitVec.toNat_add, BitVec.toNat_ofNat, Nat.mod_eq_of_lt (by omega : text.length < 2 ^ 32), Nat.mod_eq_of_lt whole]
  have stop := buffer.stop
  unfold bufferAfter vsnprintfEnd
  rw [emit_stop]
  rcases Nat.lt_or_ge text.length size.toNat with short | long
  · rw [if_pos (offset_room buffer short), Nat.min_eq_left short.le]
  · have behind : ¬str + BitVec.ofNat 32 text.length < str + size := by
      intro below
      have below : (str + BitVec.ofNat 32 text.length).toNat < (str + size).toNat := below
      omega
    rw [if_neg behind, if_pos positive, Nat.min_eq_right long, BitVec.ofNat_toNat, BitVec.setWidth_eq]

theorem bufferAfter_inside (buffer : Buffer str size) (positive : 0 < size) (whole : str.toNat + text.length < 2 ^ 32)
    {entry : BitVec 32 × BitVec 8} (stored : entry ∈ (bufferAfter str size text).stores) :
    str.toNat ≤ entry.1.toNat ∧ entry.1.toNat ≤ str.toNat + size.toNat := by
  rw [bufferAfter_stores buffer positive whole] at stored
  cases List.mem_cons.mp stored with
  | inl last =>
    rw [last, offset_toNat buffer (Nat.min_le_right _ _)]
    exact ⟨Nat.le_add_right _ _, Nat.add_le_add_left (Nat.min_le_right _ _) _⟩
  | inr stored =>
    cases Sink.emit_stores_index stored with
    | inl none => simp at none
    | inr place =>
      obtain ⟨room, index, below, place⟩ := place
      have room : entry.1.toNat < (str + size).toNat := of_decide_eq_true room
      have place : entry.1 = str + BitVec.ofNat 32 index := place
      have value : entry.1.toNat = str.toNat + index := by
        rw [place, BitVec.toNat_add, BitVec.toNat_ofNat, Nat.mod_eq_of_lt (by omega : index < 2 ^ 32), Nat.mod_eq_of_lt (by omega)]
      have stop := buffer.stop
      omega

theorem bufferAfter_end (buffer : Buffer str size) (positive : 0 < size) (whole : str.toNat + text.length < 2 ^ 32) :
    (bufferAfter str size text).content (str + BitVec.ofNat 32 (min text.length size.toNat)) = some 0 := by
  rw [Sink.content, bufferAfter_stores buffer positive whole, List.lookup_cons_self]

/-- Calls with two sizes return the same, store the same through `%n`, and agree on the
characters that the smaller buffer has room for. -/
theorem vsnprintf_coherent (texts : Memory) (ap : VaList) {small large : BitVec 32} (complete : Complete format)
    (order : small ≤ large) (narrow : Buffer str small) (wide : Buffer str large) :
    ∃ first second, vsnprintf texts str small format ap = some first ∧
      vsnprintf texts str large format ap = some second ∧
      first.length = second.length ∧ first.length = Int32.ofNat (wholeText texts format ap).length ∧
      first.counts = second.counts ∧
      (∀ address, str ≤ address → address < str + small → first.sink.content address = second.sink.content address) ∧
      ((wholeText texts format ap).length < 2 ^ 32 →
        ∀ index (within : index < (wholeText texts format ap).length), index < small.toNat →
          first.sink.content (str + BitVec.ofNat 32 index) = some (wholeText texts format ap)[index] ∧
            second.sink.content (str + BitVec.ofNat 32 index) = some (wholeText texts format ap)[index]) := by
  refine ⟨_, _, vsnprintf_whole complete narrow, vsnprintf_whole complete wide, rfl, rfl, rfl,
    fun address _ below => bufferAfter_agree order narrow wide below, fun short index within fits => ?_⟩
  have order : small.toNat ≤ large.toNat := order
  exact ⟨bufferAfter_text narrow short within fits, bufferAfter_text wide short within (by omega)⟩

/-- A number in buffers of one and of nine bytes. -/
theorem vsnprintf_coherent_example :
    ∃ first second, vsnprintf (fun _ => 0) 0x1000 1 countFormat countArguments = some first ∧
      vsnprintf (fun _ => 0) 0x1000 9 countFormat countArguments = some second ∧
      first.length = 2 ∧ second.length = 2 ∧ first.counts = second.counts ∧
      first.sink.content 0x1000 = some (byte '4') ∧ second.sink.content 0x1000 = some (byte '4') := by
  obtain ⟨first, second, small, large, same, length, counts, -, text⟩ := vsnprintf_coherent (fun _ => 0) countArguments
    countFormat_complete (show (1 : BitVec 32) ≤ 9 by decide) (show Buffer 0x1000 1 from ⟨by decide, by decide⟩)
    ⟨by decide, by decide⟩
  have two : first.length = 2 := length.trans (by
    rw [countFormat_text]
    rfl)
  have start := text (by
    rw [countFormat_text]
    decide) 0 (by
      rw [countFormat_text]
      decide) (by decide)
  simp only [countFormat_text] at start
  exact ⟨first, second, small, large, two, same ▸ two, counts, start.1, start.2⟩

end YuzuOS.Proofs.FormatBuffer
