import YuzuOS.Kernel.Log
import YuzuOS.Proofs.FormatBuffer
import YuzuOS.Proofs.FormatPieces

/-! What a program's line of the log is on the port. The text of the program is the
format of the first formatting, so its directives are read with whatever is on the stack. -/

namespace YuzuOS.Proofs.LogLines
open YuzuOS.Library YuzuOS.Kernel YuzuOS.Proofs.FormatGrammar YuzuOS.Proofs.FormatPieces YuzuOS.Proofs.FormatBuffer

/-- A text in which the character behind a `%` begins no directive that is known. -/
inductive Verbatim : List (BitVec 8) → Prop
  | done : Verbatim []
  | literal {c : BitVec 8} {rest : List (BitVec 8)} (plain : c ≠ byte '%') (tail : Verbatim rest) : Verbatim (c :: rest)
  | unknown {c : BitVec 8} {rest : List (BitVec 8)} (plain : Plain c) (unqualified : [c] ∉ qualifiers) (other : c ∉ conversions)
      (tail : Verbatim rest) : Verbatim (byte '%' :: c :: rest)

variable {texts memory : Memory} {format text string rest : List (BitVec 8)} {ap : VaList} {out : List (BitVec 8)}
  {counts : List (BitVec 32 × BitVec 32)} {turns : Nat} {str size place : BitVec 32}

/-! ### The first formatting -/

theorem vsnprintfLoop_verbatim (verbatim : Verbatim format) (enough : format.length ≤ turns) :
    vsnprintfLoop (Cursor.text 32) texts turns format ⟨ap, out, counts⟩ = some ⟨ap, out ++ format, counts⟩ := by
  induction verbatim generalizing turns out with
  | done =>
    rw [List.append_nil]
    cases turns <;> rfl
  | @literal c rest plain tail ih =>
    obtain ⟨turns, rfl⟩ := Nat.exists_eq_succ_of_ne_zero (Nat.ne_of_gt (Nat.zero_lt_of_lt enough))
    have whole : out ++ c :: rest = out ++ [c] ++ rest := by simp
    rw [vsnprintfLoop, if_pos plain, whole]
    exact ih (Nat.le_of_succ_le_succ enough)
  | @unknown c rest plain unqualified other tail ih =>
    obtain ⟨turns, rfl⟩ := Nat.exists_eq_succ_of_ne_zero (Nat.ne_of_gt (Nat.zero_lt_of_lt enough))
    have head : Head [] (0 + 0) := @Head.intro [] [] [] _ _ (List.forall_mem_nil _) .absent .absent
    obtain ⟨reads, same⟩ := formatHead_read rest ap head plain
    have whole : out ++ byte '%' :: c :: rest = out ++ [byte '%'] ++ [c] ++ rest := by simp
    rw [vsnprintfLoop, if_neg (not_not_intro rfl), whole]
    simp only [List.nil_append] at reads same
    simp only [reads, vsnprintfQualifier_unknown unqualified, vsnprintfConvert_unknown _ other, same]
    refine ih (Nat.le_of_succ_le ?_)
    exact Nat.le_of_succ_le_succ enough

/-! ### The line -/

structure Text (memory : Memory) (place : BitVec 32) (string : List (BitVec 8)) : Prop where
  holds : memory.Holds place.toNat (string ++ [0])
  nonzero : 0 ∉ string
  high : kernelVirtAddr ≤ place.toNat
  inside : place.toNat + string.length < 2 ^ 32

theorem stringLength_text {bytes : Nat → BitVec 8} {first length limit : Nat}
    (nonzero : ∀ i < length, bytes (first + i) ≠ 0) (ends : bytes (first + length) = 0) (fits : length ≤ limit) :
    stringLength bytes limit first = length := by
  induction length generalizing first limit with
  | zero =>
    cases limit with
    | zero => rfl
    | succ limit => exact if_neg (not_not_intro ends)
  | succ length ih =>
    obtain ⟨limit, rfl⟩ := Nat.exists_eq_succ_of_ne_zero (Nat.ne_of_gt (Nat.zero_lt_of_lt fits))
    have here : bytes first ≠ 0 := nonzero 0 (Nat.zero_lt_succ _)
    have onward (i : Nat) : first + 1 + i = first + (i + 1) := by omega
    have rest : stringLength bytes limit (first + 1) = length := by
      refine ih (fun i inside => ?_) ?_ (Nat.le_of_succ_le_succ fits)
      · rw [onward]
        exact nonzero (i + 1) (Nat.succ_lt_succ inside)
      · rw [onward]
        exact ends
    rw [stringLength, if_pos here, rest]

theorem Text.get (stored : Text memory place string) {i : Nat} (inside : i < string.length) :
    memory (place.toNat + i) = string[i] := by
  have whole : i < (string ++ [0]).length := by
    rw [List.length_append]
    exact Nat.lt_add_right _ inside
  rw [stored.holds.get whole, List.getElem_append_left inside]

theorem Text.length (stored : Text memory place string) {limit : Nat} (fits : string.length ≤ limit) :
    stringLength (fun i => memory (place.toNat + i)) limit 0 = string.length := by
  refine stringLength_text (fun i inside => ?_) ?_ fits
  · rw [Nat.zero_add, stored.get inside]
    intro zero
    exact stored.nonzero (zero ▸ List.getElem_mem inside)
  · have last : string.length < (string ++ [0]).length := by simp
    rw [Nat.zero_add, stored.holds.get last, List.getElem_append_right (Nat.le_refl _)]
    simp

theorem Text.short (stored : Text memory place string) : string.length < 2 ^ 30 := by
  have high := stored.high
  have inside := stored.inside
  unfold kernelVirtAddr at high
  omega

theorem Text.map (stored : Text memory place string) :
    (List.range string.length).map (fun i => memory (place.toNat + i)) = string := by
  apply List.ext_getElem
  · simp
  · intro i _ inside
    simp only [List.getElem_map, List.getElem_range]
    exact stored.get inside

theorem toNat_ofNat {length : Nat} (short : length < 2 ^ 31) : (Int32.ofNat length).toInt.toNat = length := by
  rw [Int32.toInt_ofNat_of_lt short]
  exact Int.toNat_natCast length

theorem padWhile_none {σ : Type} (cursor : Cursor 32 σ) (c : BitVec 8) {bound field : Int32} (low : ¬bound < field)
    (out : σ) :
    padWhile cursor c bound field out = (field - 1, out) := by
  rw [padWhile, if_neg low]

theorem putString_text {field : Int32} (flags : FormatFlags) (negative : field = -1) (left : flags.left = false)
    (stored : Text texts place string) :
    putString (Cursor.text 32) flags field (fun i => texts (place.toNat + i)) (Int32.ofNat string.length) out =
      out ++ string := by
  have short := stored.short
  have value : (Int32.ofNat string.length).toInt = string.length := Int32.toInt_ofNat_of_lt (by omega)
  have low : ¬Int32.ofNat string.length < -1 := by
    rw [Int32.lt_iff_toInt_lt, value, show (-1 : Int32).toInt = -1 from rfl]
    omega
  have lower : ¬Int32.ofNat string.length < -1 - 1 := by
    rw [Int32.lt_iff_toInt_lt, value, show (-1 - 1 : Int32).toInt = -2 from rfl]
    omega
  subst negative
  simp only [putString, left, Bool.not_false, if_true, padWhile_none _ _ low, padWhile_none _ _ lower, value, Int.toNat_natCast,
    stored.map, Cursor.emit_text]

theorem vsnprintfLoop_string (stored : Text texts (ap 0) string) :
    vsnprintfLoop (Cursor.text 32) texts (turns + 1) (byte '%' :: byte 's' :: rest) ⟨ap, out, counts⟩ =
      vsnprintfLoop (Cursor.text 32) texts turns rest ⟨ap.skip 1, out ++ string, counts⟩ := by
  have head : formatHead (byte 's' :: rest) ap = ⟨.none, -1, -1, byte 's' :: rest, ap⟩ := rfl
  have short := stored.short
  have high := stored.high
  have pointer : ¬(ap 0).toNat < 4096 := by
    unfold kernelVirtAddr at high
    omega
  have length := stored.length (show string.length ≤ 2 ^ 32 - 1 by omega)
  rw [vsnprintfLoop, if_neg (not_not_intro rfl)]
  simp only [head]
  rw [show vsnprintfQualifier (byte 's' :: rest) = (.none, byte 's' :: rest) from rfl]
  simp only
  congr 1
  rw [vsnprintfConvert, if_neg (by decide), if_pos rfl]
  simp only [if_neg pointer]
  rw [show (-1 : Int32).toBitVec.toNat = 2 ^ 32 - 1 from rfl, length, putString_text .none rfl rfl stored]

theorem padWhile_type (type : LogType) (out : List (BitVec 8)) :
    (padWhile (Cursor.text 32) (byte ' ') (Int32.ofNat type.msg.length) 5 out).2 =
      out ++ List.replicate (5 - type.msg.length) (byte ' ') := by
  have four : padWhile (Cursor.text 32) (byte ' ') 4 5 out = (3, out ++ [byte ' ']) := by
    rw [padWhile, if_pos (by decide), padWhile_none _ _ (by decide)]
    rfl
  have five : padWhile (Cursor.text 32) (byte ' ') 5 5 out = (4, out) := padWhile_none _ _ (by decide) _
  cases type with
  | info => exact congrArg Prod.snd four
  | warn => exact congrArg Prod.snd four
  | error =>
    refine (congrArg Prod.snd five).trans ?_
    exact (List.append_nil _).symm

theorem vsnprintfLoop_type (type : LogType) (stored : Text texts (ap 0) type.msg) :
    vsnprintfLoop (Cursor.text 32) texts (turns + 1) (byte '%' :: byte '-' :: byte '5' :: byte 's' :: rest) ⟨ap, out, counts⟩ =
      vsnprintfLoop (Cursor.text 32) texts turns rest
        ⟨ap.skip 1, out ++ (type.msg ++ List.replicate (5 - type.msg.length) (byte ' ')), counts⟩ := by
  have head : formatHead (byte '-' :: byte '5' :: byte 's' :: rest) ap =
      ⟨{ FormatFlags.none with left := true }, 5, -1, byte 's' :: rest, ap⟩ := rfl
  have short := stored.short
  have high := stored.high
  have pointer : ¬(ap 0).toNat < 4096 := by
    unfold kernelVirtAddr at high
    omega
  have length := stored.length (show type.msg.length ≤ 2 ^ 32 - 1 by omega)
  have value : (Int32.ofNat type.msg.length).toInt = type.msg.length := Int32.toInt_ofNat_of_lt (by omega)
  rw [vsnprintfLoop, if_neg (not_not_intro rfl)]
  simp only [head]
  rw [show vsnprintfQualifier (byte 's' :: rest) = (.none, byte 's' :: rest) from rfl]
  simp only
  congr 1
  rw [vsnprintfConvert, if_neg (by decide), if_pos rfl]
  simp only [if_neg pointer]
  rw [show (-1 : Int32).toBitVec.toNat = 2 ^ 32 - 1 from rfl, length]
  simp only [putString, Bool.not_true, Bool.false_eq_true, if_false, padWhile_type, value, Int.toNat_natCast, stored.map,
    Cursor.emit_text, List.append_assoc]

theorem vsnprintfLoop_literal (plain : ∀ c ∈ text, c ≠ byte '%') :
    vsnprintfLoop (Cursor.text 32) texts (text.length + turns) (text ++ rest) ⟨ap, out, counts⟩ =
      vsnprintfLoop (Cursor.text 32) texts turns rest ⟨ap, out ++ text, counts⟩ := by
  induction text generalizing out with
  | nil => simp
  | cons c text ih =>
    have whole : out ++ c :: text = out ++ [c] ++ text := by simp
    rw [List.length_cons, Nat.add_right_comm, List.cons_append, vsnprintfLoop, if_pos (plain c List.mem_cons_self), whole]
    exact ih fun d member => plain d (List.mem_cons_of_mem _ member)

/-- The strings that a call finds are in memory, in the kernel, and apart from its buffers. -/
structure Framed (frame : LogFrame) (type : LogType) (name : List (BitVec 8)) : Prop where
  named : Text frame.memory frame.name name
  colored : Text frame.memory (frame.color type) type.color
  typed : Text frame.memory (frame.msg type) type.msg
  high : kernelVirtAddr ≤ frame.bufferFormat.toNat
  format : Buffer frame.bufferFormat logBuf
  line : Buffer frame.buffer logBuf
  nameApart : frame.name.toNat + name.length < frame.bufferFormat.toNat ∨ frame.bufferFormat.toNat + logBuf.toNat < frame.name.toNat
  colorApart : (frame.color type).toNat + type.color.length < frame.bufferFormat.toNat ∨
    frame.bufferFormat.toNat + logBuf.toNat < (frame.color type).toNat
  msgApart : (frame.msg type).toNat + type.msg.length < frame.bufferFormat.toNat ∨
    frame.bufferFormat.toNat + logBuf.toNat < (frame.msg type).toNat

/-- What stands in front of the text of a program. -/
def logHeader (type : LogType) (name : List (BitVec 8)) : List (BitVec 8) :=
  logOpening ++ name ++ [byte ']', byte ' '] ++ type.color ++ (type.msg ++ List.replicate (5 - type.msg.length) (byte ' ')) ++ logWhite

theorem line_run {frame : LogFrame} {type : LogType} {name : List (BitVec 8)} (named : Text memory frame.name name)
    (colored : Text memory (frame.color type) type.color) (typed : Text memory (frame.msg type) type.msg)
    (filled : Text memory frame.bufferFormat text) :
    ∃ last, wholeRun memory logLine (logArguments type frame) = some last ∧
      last.out = logHeader type name ++ text ++ logTrailer ∧
      last.counts = [] := by
  have plain : ∀ list ∈ [logOpening, [byte ']', byte ' '], logWhite, logTrailer], ∀ c ∈ list, c ≠ byte '%' := by decide
  have opening := plain logOpening (by simp)
  have space := plain [byte ']', byte ' '] (by simp)
  have white := plain logWhite (by simp)
  have trailer := plain logTrailer (by simp)
  refine ⟨⟨(((logArguments type frame).skip 1).skip 1).skip 1 |>.skip 1, _, []⟩, ?_, rfl, rfl⟩
  change vsnprintfLoop (Cursor.text 32) memory (logOpening.length + 26) (logOpening ++ (byte '%' :: byte 's' ::
    ([byte ']', byte ' '] ++ (byte '%' :: byte 's' :: byte '%' :: byte '-' :: byte '5' :: byte 's' ::
      (logWhite ++ (byte '%' :: byte 's' :: (logTrailer ++ []))))))) ⟨logArguments type frame, [], []⟩ = _
  rw [vsnprintfLoop_literal opening]
  rw [vsnprintfLoop_string named]
  rw [show 25 = [byte ']', byte ' '].length + 23 from rfl, vsnprintfLoop_literal space]
  rw [vsnprintfLoop_string colored]
  rw [vsnprintfLoop_type type typed]
  rw [show 21 = logWhite.length + 11 from rfl, vsnprintfLoop_literal white]
  rw [vsnprintfLoop_string filled]
  rw [show 10 = logTrailer.length + 6 from rfl, vsnprintfLoop_literal trailer]
  simp only [vsnprintfLoop, logHeader, List.nil_append, List.append_assoc]

/-! ### The memory between the calls -/

/-- What `%n` stores does not reach the kernel. -/
def LowCounts (counts : List (BitVec 32 × BitVec 32)) : Prop := ∀ count ∈ counts, count.1.toNat + 4 ≤ kernelVirtAddr

theorem counts_high (low : LowCounts counts) {address : Nat} (high : kernelVirtAddr ≤ address) :
    counts.foldr (fun count memory => memory.store32 count.1.toNat count.2.toNat) memory address = memory address := by
  induction counts with
  | nil => rfl
  | cons count counts ih =>
    have here := low count List.mem_cons_self
    rw [List.foldr_cons, Memory.store32, Memory.write_outside (.inr (here.trans high))]
    exact ih fun other member => low other (List.mem_cons_of_mem _ member)

theorem content_none (buffer : Buffer str size) (positive : 0 < size) (whole : str.toNat + text.length < 2 ^ 32)
    {address : BitVec 32} (outside : ¬(str.toNat ≤ address.toNat ∧ address.toNat ≤ str.toNat + size.toNat)) :
    (bufferAfter str size text).content address = none := by
  rw [Sink.content, List.lookup_eq_none_iff]
  intro entry member
  rw [bne_iff_ne]
  rintro rfl
  exact outside (bufferAfter_inside buffer positive whole member)

/-- A string that is apart from the buffer is still there. -/
theorem leave_other (length : Int32) (stored : Text memory place string) (low : LowCounts counts)
    (buffer : Buffer str size) (positive : 0 < size) (whole : str.toNat + text.length < 2 ^ 32)
    (apart : place.toNat + string.length < str.toNat ∨ str.toNat + size.toNat < place.toNat) :
    Text (Formatted.leave ⟨length, bufferAfter str size text, counts⟩ memory) place string := by
  refine ⟨stored.holds.congr fun address lower upper => ?_, stored.nonzero, stored.high, stored.inside⟩
  have inside := stored.inside
  rw [List.length_append, List.length_singleton] at upper
  have value : (BitVec.ofNat 32 address).toNat = address := by
    rw [BitVec.toNat_ofNat]
    exact Nat.mod_eq_of_lt (by omega)
  have unstored : (bufferAfter str size text).content (BitVec.ofNat 32 address) = none := by
    apply content_none buffer positive whole
    rw [value]
    omega
  simp only [Formatted.leave, unstored, Option.getD_none]
  exact counts_high low (stored.high.trans lower)

theorem leave_text {length : Int32} (buffer : Buffer str size) (positive : 0 < size) (high : kernelVirtAddr ≤ str.toNat)
    (whole : str.toNat + text.length < 2 ^ 32) (nonzero : 0 ∉ text) :
    Text (Formatted.leave ⟨length, bufferAfter str size text, counts⟩ memory) str (text.take size.toNat) := by
  have apart := buffer.apart
  have address (i : Nat) : BitVec.ofNat 32 (str.toNat + i) = str + BitVec.ofNat 32 i := by
    rw [BitVec.ofNat_add, BitVec.ofNat_toNat, BitVec.setWidth_eq]
  have cut : (text.take size.toNat).length = min text.length size.toNat := by rw [List.length_take, Nat.min_comm]
  refine ⟨Memory.holds_of_get fun i bound => ?_, fun zero => nonzero (List.mem_of_mem_take zero), high, by omega⟩
  simp only [Formatted.leave, address]
  by_cases inside : i < (text.take size.toNat).length
  · rw [bufferAfter_text buffer (by omega) (by omega : i < text.length) (by omega), List.getElem_append_left inside, List.getElem_take]
    rfl
  · have last : i = min text.length size.toNat := by
      rw [List.length_append, List.length_singleton] at bound
      omega
    have ends := bufferAfter_end buffer positive whole
    rw [← last] at ends
    rw [ends, List.getElem_append_right (Nat.le_of_not_lt inside)]
    simp

theorem logWrite_length {length : Nat} (short : length < 2 ^ 31) :
    (logWrite str (Int32.ofNat length) memory).length = length := by
  rw [logWrite, List.length_map, List.length_range, toNat_ofNat short]

theorem logWrite_text {length : Int32} (buffer : Buffer str size) (fits : text.length ≤ size.toNat)
    (short : text.length < 2 ^ 31) :
    logWrite str (Int32.ofNat text.length) (Formatted.leave ⟨length, bufferAfter str size text, counts⟩ memory) =
      text := by
  apply List.ext_getElem
  · exact logWrite_length short
  · intro i _ inside
    simp only [logWrite, List.getElem_map, List.getElem_range, Formatted.leave, BitVec.ofNat_toNat, BitVec.setWidth_eq]
    rw [bufferAfter_text buffer (by omega) inside (by omega)]
    rfl

/-! ### A line of the log -/

variable {frame : LogFrame} {type : LogType} {name : List (BitVec 8)} {last : FormatState (List (BitVec 8))}

theorem logHeader_length (type : LogType) (name : List (BitVec 8)) :
    (logHeader type name).length = 32 + name.length := by
  cases type
  all_goals
    simp only [logHeader, List.length_append]
    simp only [LogType.color, LogType.msg, logOpening, logWhite, List.length_cons, List.length_nil, List.length_replicate]
    omega

/-- As much of the text as a buffer has room for is put into the line; the port gets as many bytes as the line has. -/
theorem logFormat_run (framed : Framed frame type name) (run : wholeRun frame.memory format ap = some last)
    (low : LowCounts last.counts) (nonzero : 0 ∉ last.out)
    (whole : frame.bufferFormat.toNat + last.out.length < 2 ^ 32) :
    ∃ bytes, logFormat type format ap frame = some bytes ∧
      bytes.length = (logHeader type name ++ last.out.take logBuf.toNat ++ logTrailer).length ∧
      ((logHeader type name ++ last.out.take logBuf.toNat ++ logTrailer).length ≤ logBuf.toNat →
        bytes = logHeader type name ++ last.out.take logBuf.toNat ++ logTrailer) := by
  have positive : 0 < logBuf := by decide
  have leaves {place : BitVec 32} {string : List (BitVec 8)} (stored : Text frame.memory place string)
      (apart : place.toNat + string.length < frame.bufferFormat.toNat ∨ frame.bufferFormat.toNat + logBuf.toNat < place.toNat) :=
    leave_other (Int32.ofNat last.out.length) stored low framed.format positive whole apart
  obtain ⟨line, second, shown, none⟩ := line_run (leaves framed.named framed.nameApart) (leaves framed.colored framed.colorApart)
    (leaves framed.typed framed.msgApart) (leave_text framed.format positive framed.high whole nonzero)
  have few : (logHeader type name ++ last.out.take logBuf.toNat ++ logTrailer).length < 2 ^ 31 := by
    have names := framed.named.short
    have cut := List.length_take_le logBuf.toNat last.out
    have size : logBuf.toNat = 4096 := rfl
    have rear : logTrailer.length = 4 := rfl
    rw [List.length_append, List.length_append, logHeader_length]
    omega
  rw [← shown] at few ⊢
  refine ⟨logWrite frame.buffer (Int32.ofNat line.out.length) (Formatted.leave ⟨Int32.ofNat line.out.length,
    bufferAfter frame.buffer logBuf line.out, line.counts⟩ (Formatted.leave ⟨Int32.ofNat last.out.length,
      bufferAfter frame.bufferFormat logBuf last.out, last.counts⟩ frame.memory)), ?_, logWrite_length few, fun fits => ?_⟩
  · rw [logFormat, vsnprintf_run run framed.format, Option.bind_some]
    simp only
    rw [vsnprintf_run second framed.line, Option.map_some]
  · exact logWrite_text framed.line fits few

/-- The header, the text as it stands and the trailer come out, as far as a buffer has room. -/
def Logs (frame : LogFrame) (type : LogType) (name text : List (BitVec 8)) : Prop :=
  ∀ stack, syscallLog type text stack frame = some ((logHeader type name ++ text ++ logTrailer).take logBuf.toNat)

theorem logs_of_verbatim (framed : Framed frame type name) (nonzero : 0 ∉ text) (verbatim : Verbatim text)
    (fits : (logHeader type name ++ text ++ logTrailer).length ≤ logBuf.toNat) : Logs frame type name text := by
  intro stack
  have run : wholeRun frame.memory text stack = some ⟨stack, text, []⟩ := vsnprintfLoop_verbatim verbatim le_rfl
  have short : text.length < logBuf.toNat := by
    have rear : logTrailer.length = 4 := rfl
    rw [List.length_append, List.length_append, rear] at fits
    omega
  have whole : frame.bufferFormat.toNat + text.length < 2 ^ 32 := (Nat.add_lt_add_left short _).trans framed.format.apart
  obtain ⟨bytes, call, -, same⟩ := logFormat_run framed run nofun nonzero whole
  rw [List.take_of_length_le short.le] at same
  rw [syscallLog, call, same fits, List.take_of_length_le fits]

/-! ### The texts that are logged as they stand -/

/-- A format that becomes a text with as many percent signs is no shorter, and is as long only when it is verbatim. -/
theorem verbatim_of_becomes (becomes : Becomes format text)
    (percents : text.count (byte '%') = format.count (byte '%')) :
    text.length ≤ format.length ∧ (text.length = format.length → Verbatim format) := by
  induction becomes with
  | done => exact ⟨le_rfl, fun _ => .done⟩
  | literal plain tail ih =>
    simp only [List.count_cons_of_ne plain] at percents
    obtain ⟨shorter, verbatim⟩ := ih percents
    exact ⟨Nat.succ_le_succ shorter, fun same => .literal plain (verbatim (Nat.succ.inj same))⟩
  | percent inners tail ih =>
    have lost := tail.percents
    simp only [List.count_cons_self, List.count_append, inners_count inners percent_outer] at percents
    omega
  | @converted taken piece rest text c inners known other ordinary tail ih =>
    have lost := tail.percents
    have none : piece.count (byte '%') = 0 := List.count_eq_zero_of_not_mem fun member => (ordinary _ member).2 rfl
    simp only [List.count_cons_self, List.count_append, inners_count inners percent_outer, none, List.count_cons_of_ne other] at percents
    omega
  | @unknown taken rest text c inners first other tail ih =>
    simp only [List.count_cons_self, List.count_append, inners_count inners percent_outer, List.count_cons_of_ne (percent_known other)]
      at percents
    obtain ⟨shorter, verbatim⟩ := ih (by omega)
    simp only [List.length_cons, List.length_append]
    refine ⟨by omega, fun same => ?_⟩
    have bare : taken = [] := List.length_eq_zero_iff.mp (by omega)
    have outer := first bare
    subst bare
    exact .unknown (not_not.mp fun plain => outer (.inl plain)) (fun qualifier => outer (.inr qualifier)) other
      (verbatim (by simpa using same))

/-- A line that has lost no escape is the expected one only when nothing was cut off. -/
theorem line_whole {header shown : List (BitVec 8)} {limit : Nat} (escapes : text.count escape ≤ shown.count escape)
    (same : header ++ shown ++ logTrailer = (header ++ text ++ logTrailer).take limit) :
    shown = text ∧ (header ++ text ++ logTrailer).length ≤ limit := by
  have starts : header ++ shown ++ logTrailer <+: header ++ text ++ logTrailer := same ▸ List.take_prefix _ _
  rw [List.append_assoc, List.append_assoc, List.prefix_append_right_inj] at starts
  have below : text.length ≤ shown.length := by
    -- else the trailer begins within the text, which then has an escape more
    by_contra more
    have opening : shown ++ [escape] <+: shown ++ logTrailer := (List.prefix_append_right_inj _).mpr ⟨_, rfl⟩
    have early : shown ++ [escape] <+: text :=
      List.prefix_of_prefix_length_le (opening.trans starts) (List.prefix_append _ _) (by simpa using more)
    have counted := early.sublist.count_le escape
    rw [List.count_append, List.count_singleton_self] at counted
    omega
  have length := starts.length_le
  rw [List.length_append, List.length_append] at length
  have shown_text : shown = text := (List.prefix_of_prefix_length_le ((List.prefix_append _ _).trans starts) (List.prefix_append _ _)
    (by omega)).eq_of_length (by omega)
  subst shown_text
  refine ⟨rfl, ?_⟩
  have cut := congrArg List.length same
  rw [List.length_take] at cut
  omega

/-- A text that is logged as it stands has no directive and fits, unless its own output comes around the address space. -/
theorem verbatim_of_logs (framed : Framed frame type name) (nonzero : 0 ∉ text)
    (whole : frame.bufferFormat.toNat + (wholeText frame.memory text ones).length < 2 ^ 32)
    (logs : Logs frame type name text) :
    Verbatim text ∧ (logHeader type name ++ text ++ logTrailer).length ≤ logBuf.toNat := by
  have expected := logs ones
  rw [syscallLog] at expected
  cases run : wholeRun frame.memory text ones with
  | none =>
    rw [logFormat, vsnprintf_map _ _ _ framed.format, run] at expected
    cases expected
  | some last =>
    have output : wholeText frame.memory text ones = last.out := by rw [wholeText, run, Option.map_some, Option.getD_some]
    rw [output] at whole
    obtain ⟨shown, becomes, out, stored⟩ := vsnprintfLoop_becomes run
    rw [List.nil_append] at out
    have low : LowCounts last.counts := by
      intro count member
      rw [(stored count member).resolve_left List.not_mem_nil]
      decide
    obtain ⟨bytes, call, length, same⟩ := logFormat_run framed run low (out ▸ becomes.nonzero nonzero) whole
    have line := Option.some.inj (call.symm.trans expected)
    have fits : bytes.length ≤ logBuf.toNat := line ▸ List.length_take_le _ _
    have line := (same (length ▸ fits)).symm.trans line
    have short : last.out.length ≤ logBuf.toNat := by
      rw [length] at fits
      simp only [List.length_append, List.length_take, show logTrailer.length = 4 from rfl] at fits
      omega
    rw [List.take_of_length_le short, out] at line
    obtain ⟨rfl, total⟩ := line_whole (becomes.keeps (by decide) (by decide)) line
    exact ⟨(verbatim_of_becomes becomes rfl).2 rfl, total⟩

def exampleStrings : List (BitVec 8) := [byte 'i', 0] ++ LogType.info.color ++ [0] ++ LogType.info.msg ++ [0]

def exampleBase : Nat := 0xD0000000

@[irreducible] def exampleMemory : Memory := fun place => exampleStrings.getD (place - exampleBase) 0

def exampleFrame : LogFrame where
  memory := exampleMemory
  name := 0xD0000000
  color _ := 0xD0000002
  msg _ := 0xD0000008
  bufferFormat := 0xD0010000
  buffer := 0xD0020000

theorem exampleFrame_text (offset : Nat) (value : place.toNat = exampleBase + offset) (nonzero : 0 ∉ string)
    (small : offset + string.length < 100)
    (bytes : ∀ (i : Nat) (bound : i < (string ++ [0]).length), exampleStrings.getD (offset + i) 0 = (string ++ [0])[i]) :
    Text exampleMemory place string := by
  refine ⟨Memory.holds_of_get fun i bound => ?_, nonzero, ?_, ?_⟩
  · have inside : place.toNat + i - exampleBase = offset + i := by rw [value, Nat.add_assoc, Nat.add_sub_cancel_left]
    have read : exampleMemory (place.toNat + i) = exampleStrings.getD (offset + i) 0 := by
      unfold exampleMemory
      rw [inside]
    exact read.trans (bytes i bound)
  · rw [value]
    exact (show kernelVirtAddr ≤ exampleBase by decide).trans (Nat.le_add_right _ _)
  · unfold exampleBase at value
    omega

theorem exampleFrame_memory : exampleFrame.memory = exampleMemory := rfl

theorem exampleFrame_framed : Framed exampleFrame .info [byte 'i'] where
  named := by
    rw [exampleFrame_memory]
    exact exampleFrame_text 0 (by decide) (by decide) (by decide) (by decide)
  colored := by
    rw [exampleFrame_memory]
    exact exampleFrame_text 2 (by decide) (by decide) (by decide) (by decide)
  typed := by
    rw [exampleFrame_memory]
    exact exampleFrame_text 8 (by decide) (by decide) (by decide) (by decide)
  high := by decide
  format := ⟨by decide, by decide⟩
  line := ⟨by decide, by decide⟩
  nameApart := .inl (by decide)
  colorApart := .inl (by decide)
  msgApart := .inl (by decide)

/-- Exactly the texts without a directive that fit are logged as they stand. -/
theorem logs_iff_verbatim (framed : Framed frame type name) (nonzero : 0 ∉ text) :
    (Verbatim text ∧ (logHeader type name ++ text ++ logTrailer).length ≤ logBuf.toNat → Logs frame type name text) ∧
      (frame.bufferFormat.toNat + (wholeText frame.memory text ones).length < 2 ^ 32 → Logs frame type name text →
        Verbatim text ∧ (logHeader type name ++ text ++ logTrailer).length ≤ logBuf.toNat) :=
  ⟨fun holds => logs_of_verbatim framed nonzero holds.1 holds.2, fun whole logs => verbatim_of_logs framed nonzero whole logs⟩

/-- A percent sign that begins no directive, and one that does. -/
theorem logs_iff_verbatim_example : Logs exampleFrame .info [byte 'i'] [byte 'a', byte '%', byte '!'] ∧
    ¬Logs exampleFrame .info [byte 'i'] [byte '%', byte 'n'] := by
  constructor
  · exact (logs_iff_verbatim exampleFrame_framed (by decide)).1
      ⟨.literal (by decide) (.unknown (by decide) (by decide) (by decide) .done), by decide⟩
  · intro logs
    have apart : exampleFrame.bufferFormat.toNat + (wholeText exampleFrame.memory [byte '%', byte 'n'] ones).length < 2 ^ 32 := by
      rw [show wholeText exampleFrame.memory [byte '%', byte 'n'] ones = [] from rfl]
      decide
    cases ((logs_iff_verbatim exampleFrame_framed (by decide)).2 apart logs).1 with
    | literal plain => exact plain rfl
    | unknown plain unqualified other => exact other (by decide)

/-- A text of two percent signs loses one of them. -/
theorem syscall_log_interprets : ¬Logs exampleFrame .info [byte 'i'] [byte '%', byte '%'] := by
  intro logs
  have run : wholeRun exampleFrame.memory [byte '%', byte '%'] (fun _ => 0) = some ⟨fun _ => 0, [byte '%'], []⟩ := rfl
  obtain ⟨bytes, call, length, -⟩ := logFormat_run exampleFrame_framed run nofun (by decide) (by decide)
  have expected := logs fun _ => 0
  rw [syscallLog, call] at expected
  rw [Option.some.inj expected] at length
  exact absurd length (by decide)

end YuzuOS.Proofs.LogLines
