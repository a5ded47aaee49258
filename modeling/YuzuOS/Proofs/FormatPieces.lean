import YuzuOS.Proofs.FormatGrammar

/-! What a directive takes from a format and what it puts into the text, whether it is
complete or not. On a stack of ones no conversion puts a percent sign but that of one. -/

namespace YuzuOS.Proofs.FormatPieces
open YuzuOS.Library YuzuOS.Kernel YuzuOS.Proofs.FormatGrammar

/-- A character that is read as a part of the head or of the qualifier. -/
def Inner (c : BitVec 8) : Prop := ¬Plain c ∨ [c] ∈ qualifiers

instance (c : BitVec 8) : Decidable (Inner c) := inferInstanceAs (Decidable (_ ∨ _))

def Takes (format rest : List (BitVec 8)) : Prop := ∃ taken, format = taken ++ rest ∧ ∀ c ∈ taken, Inner c

variable {format middle rest : List (BitVec 8)} {c : BitVec 8} {flags : FormatFlags} {head : FormatHead} {ap : VaList}

theorem Takes.refl (format : List (BitVec 8)) : Takes format format := ⟨[], rfl, nofun⟩

theorem Takes.cons (inner : Inner c) (takes : Takes format rest) : Takes (c :: format) rest := by
  obtain ⟨taken, rfl, inners⟩ := takes
  exact ⟨c :: taken, rfl, List.forall_mem_cons.mpr ⟨inner, inners⟩⟩

theorem Takes.trans (first : Takes format middle) (second : Takes middle rest) : Takes format rest := by
  obtain ⟨taken, rfl, inners⟩ := first
  obtain ⟨more, rfl, others⟩ := second
  exact ⟨taken ++ more, (List.append_assoc _ _ _).symm, List.forall_mem_append.mpr ⟨inners, others⟩⟩

theorem Takes.length (takes : Takes format rest) : rest.length ≤ format.length := by
  obtain ⟨taken, rfl, -⟩ := takes
  rw [List.length_append]
  exact Nat.le_add_left _ _

theorem inner_flag (flag : c ∈ flagBytes) : Inner c := .inl fun plain => plain.1 flag

theorem inner_digit (digit : isdigit c) : Inner c := .inl fun plain => plain.2.1 digit

theorem formatFlags_flag (flags : FormatFlags) (format : List (BitVec 8)) (flag : c ∈ flagBytes) :
    ∃ next, formatFlags flags (c :: format) = formatFlags next format := by
  simp only [flagBytes, List.mem_cons, List.not_mem_nil, or_false] at flag
  rcases flag with rfl | rfl | rfl | rfl | rfl
  · exact ⟨_, rfl⟩
  · exact ⟨_, rfl⟩
  · exact ⟨_, rfl⟩
  · exact ⟨_, rfl⟩
  · exact ⟨_, rfl⟩

theorem formatFlags_plain (flags : FormatFlags) (plain : c ∉ flagBytes) :
    formatFlags flags (c :: format) = (flags, c :: format) := by
  simp only [flagBytes, List.mem_cons, List.not_mem_nil, not_or, or_false] at plain
  simp [formatFlags, plain]

theorem formatFlags_takes (flags : FormatFlags) (format : List (BitVec 8)) :
    Takes format (formatFlags flags format).2 := by
  induction format generalizing flags with
  | nil => exact .refl _
  | cons c format ih =>
    by_cases flag : c ∈ flagBytes
    · obtain ⟨next, reads⟩ := formatFlags_flag flags format flag
      rw [reads]
      exact .cons (inner_flag flag) (ih next)
    · rw [formatFlags_plain flags flag]
      exact .refl _

theorem formatAtoi_takes (i : Int32) (format : List (BitVec 8)) : Takes format (formatAtoi i format).2 := by
  induction format generalizing i with
  | nil => exact .refl _
  | cons c format ih =>
    rw [formatAtoi]
    split
    next digit => exact .cons (inner_digit digit) (ih _)
    next => exact .refl _

theorem formatField_takes (head : FormatHead) : Takes head.format (formatField head).format := by
  unfold formatField
  split
  next empty =>
    rw [empty]
    exact .refl _
  next c format reads =>
    rw [reads]
    split
    next digit => exact formatAtoi_takes 0 (c :: format)
    next =>
      split
      next star =>
        have takes : Takes (c :: format) format := .cons (star ▸ by decide) (.refl _)
        dsimp only
        split
        · exact takes
        · exact takes
      next =>
        rw [reads]
        exact .refl _

theorem formatPrecisionValue_takes (head : FormatHead) : Takes head.format (formatPrecisionValue head).format := by
  unfold formatPrecisionValue
  split
  next empty =>
    rw [empty]
    exact .refl _
  next c format reads =>
    rw [reads]
    split
    next => exact formatAtoi_takes 0 (c :: format)
    next =>
      split
      next star => exact .cons (star ▸ by decide) (.refl _)
      next =>
        rw [reads]
        exact .refl _

theorem formatPrecision_point (head : FormatHead) (reads : head.format = byte '.' :: format) :
    Takes format (formatPrecision head).format := by
  have takes := formatPrecisionValue_takes { head with format }
  unfold formatPrecision
  rw [reads]
  dsimp only
  rw [if_pos rfl]
  split
  · exact takes
  · exact takes

theorem formatPrecision_takes (head : FormatHead) : Takes head.format (formatPrecision head).format := by
  cases reads : head.format with
  | nil =>
    unfold formatPrecision
    rw [reads]
    dsimp only
    rw [reads]
    exact .refl _
  | cons c format =>
    by_cases dot : c = byte '.'
    · exact .cons (dot ▸ by decide) (formatPrecision_point head (dot ▸ reads))
    · unfold formatPrecision
      rw [reads]
      dsimp only
      rw [if_neg dot, reads]
      exact .refl _

theorem vsnprintfQualifier_unknown {c : BitVec 8} (unqualified : [c] ∉ qualifiers) (rest : List (BitVec 8)) :
    vsnprintfQualifier (c :: rest) = (.none, c :: rest) := by
  simp only [qualifiers, List.mem_cons, List.cons.injEq, and_true, List.not_mem_nil, or_false, reduceCtorEq, false_or,
    not_or] at unqualified
  obtain ⟨h, l, -, L, Z, z⟩ := unqualified
  simp [vsnprintfQualifier, h, l, L, Z, z]

theorem vsnprintfQualifier_inner (qualifier : [c] ∈ qualifiers) :
    Takes format (vsnprintfQualifier (c :: format)).2 := by
  simp only [qualifiers, List.mem_cons, List.cons.injEq, and_true, List.not_mem_nil, or_false, reduceCtorEq, false_or,
    and_false] at qualifier
  rcases qualifier with rfl | rfl | rfl | rfl | rfl
  · exact .refl _
  · cases format with
    | nil => exact .refl _
    | cons d format =>
      by_cases long : d = byte 'l'
      · subst long
        exact .cons (by decide) (.refl _)
      · have reads : vsnprintfQualifier (byte 'l' :: d :: format) = (.long, d :: format) := by
          simp [vsnprintfQualifier, long, show byte 'l' ≠ byte 'h' by decide]
        rw [reads]
        exact .refl _
  · exact .refl _
  · exact .refl _
  · exact .refl _

theorem vsnprintfQualifier_takes (format : List (BitVec 8)) : Takes format (vsnprintfQualifier format).2 := by
  cases format with
  | nil => exact .refl _
  | cons c format =>
    by_cases qualifier : [c] ∈ qualifiers
    · exact .cons (.inr qualifier) (vsnprintfQualifier_inner qualifier)
    · rw [vsnprintfQualifier_unknown qualifier]
      exact .refl _

theorem directive_takes (format : List (BitVec 8)) (ap : VaList) :
    Takes format (vsnprintfQualifier (formatHead format ap).format).2 := by
  have flags := formatFlags_takes .none format
  have field := formatField_takes ⟨(formatFlags .none format).1, -1, -1, (formatFlags .none format).2, ap⟩
  exact flags.trans (field.trans ((formatPrecision_takes _).trans (vsnprintfQualifier_takes _)))

theorem directive_inner (format : List (BitVec 8)) (inner : Inner c) (ap : VaList) :
    Takes format (vsnprintfQualifier (formatHead (c :: format) ap).format).2 := by
  have later (head : FormatHead) (takes : Takes format head.format) :
      Takes format (vsnprintfQualifier (formatPrecision head).format).2 :=
    takes.trans ((formatPrecision_takes head).trans (vsnprintfQualifier_takes _))
  unfold formatHead
  by_cases flag : c ∈ flagBytes
  · obtain ⟨next, reads⟩ := formatFlags_flag .none format flag
    rw [reads]
    exact later _ ((formatFlags_takes next format).trans (formatField_takes ⟨_, -1, -1, _, ap⟩))
  rw [formatFlags_plain _ flag]
  by_cases digit : isdigit c
  · refine later _ ?_
    simp only [formatField, digit, if_true]
    rw [formatAtoi, if_pos digit]
    exact formatAtoi_takes _ format
  by_cases star : c = byte '*'
  · refine later _ ?_
    simp only [formatField, star, if_true]
    rw [if_neg (by decide)]
    split
    · exact .refl _
    · exact .refl _
  have field : formatField ⟨.none, -1, -1, c :: format, ap⟩ = ⟨.none, -1, -1, c :: format, ap⟩ := by simp [formatField, digit, star]
  simp only [field]
  by_cases dot : c = byte '.'
  · exact (formatPrecision_point _ (dot ▸ rfl)).trans (vsnprintfQualifier_takes _)
  have precision : formatPrecision ⟨.none, -1, -1, c :: format, ap⟩ = ⟨.none, -1, -1, c :: format, ap⟩ := by simp [formatPrecision, dot]
  rw [precision]
  have qualifier : [c] ∈ qualifiers := inner.resolve_left (not_not_intro ⟨flag, digit, star, dot⟩)
  exact vsnprintfQualifier_inner qualifier

/-! ### What is put -/

/-- A character that is neither the end of a text nor the beginning of a directive. -/
def Ordinary (c : BitVec 8) : Prop := c ≠ 0 ∧ c ≠ byte '%'

instance (c : BitVec 8) : Decidable (Ordinary c) := inferInstanceAs (Decidable (_ ∧ _))

theorem numberSign_ordinary {negative : Bool} (sign : c ∈ numberSign flags negative) : Ordinary c := by
  rw [Option.mem_def, numberSign] at sign
  split_ifs at sign
  · exact Option.some.inj sign ▸ by decide
  · exact Option.some.inj sign ▸ by decide
  · exact Option.some.inj sign ▸ by decide

section
variable {σ : Type} {cursor : Cursor 32 σ} {holds : σ → Prop} {out : σ}

/-- A property of a writer that ordinary characters keep. -/
def Kept (cursor : Cursor 32 σ) (holds : σ → Prop) : Prop :=
  ∀ c, Ordinary c → ∀ out, holds out → holds (cursor.put c out)

variable (kept : Kept cursor holds)
include kept

theorem emit_kept {text : List (BitVec 8)} (ordinary : ∀ c ∈ text, Ordinary c) (held : holds out) :
    holds (cursor.emit text out) := by
  induction text generalizing out with
  | nil => exact held
  | cons c text ih =>
    have here := ordinary c List.mem_cons_self
    exact ih (fun d member => ordinary d (List.mem_cons_of_mem _ member)) (kept c here out held)

theorem padWhile_kept (ordinary : Ordinary c) (bound field : Int32) (held : holds out) :
    holds (padWhile cursor c bound field out).2 := by
  induction field, out using padWhile.induct cursor c bound with
  | case1 field out above ih =>
    rw [padWhile, if_pos above]
    exact ih (kept c ordinary out held)
  | case2 field out stop =>
    rw [padWhile, if_neg stop]
    exact held

theorem padDown_kept (ordinary : Ordinary c) (field : Int32) (held : holds out) :
    holds (padDown cursor c field out).2 := by
  induction field, out using padDown.induct cursor c with
  | case1 field out above ih =>
    rw [padDown, if_pos above]
    exact ih (kept c ordinary out held)
  | case2 field out stop =>
    rw [padDown, if_neg stop]
    exact held

theorem putChar_kept (ordinary : Ordinary c) (flags : FormatFlags) (field : Int32) (held : holds out) :
    holds (putChar cursor flags field c out) := by
  have space : Ordinary (byte ' ') := by decide
  unfold putChar
  cases flags.left with
  | true => exact padDown_kept kept space _ (kept c ordinary _ held)
  | false => exact padDown_kept kept space _ (kept c ordinary _ (padDown_kept kept space _ held))

theorem putString_kept {string : Nat → BitVec 8} {length : Int32}
    (ordinary : ∀ i < length.toInt.toNat, Ordinary (string i)) (flags : FormatFlags) (field : Int32)
    (held : holds out) : holds (putString cursor flags field string length out) := by
  have space : Ordinary (byte ' ') := by decide
  have characters : ∀ c ∈ (List.range length.toInt.toNat).map string, Ordinary c := by
    intro c member
    obtain ⟨i, inside, rfl⟩ := List.mem_map.mp member
    exact ordinary i (List.mem_range.mp inside)
  unfold putString
  cases flags.left with
  | true => exact padWhile_kept kept space _ _ (emit_kept kept characters held)
  | false => exact padWhile_kept kept space _ _ (emit_kept kept characters (padWhile_kept kept space _ _ held))

theorem numberLayout_kept {sign : Option (BitVec 8)} {mark : BitVec 8} {tmp : List (BitVec 8)}
    (signed : ∀ c ∈ sign, Ordinary c) (marked : Ordinary mark) (digits : ∀ c ∈ tmp, Ordinary c) (base : Nat)
    (field precision : Int32) (flags : FormatFlags) (held : holds out) :
    holds (numberLayout cursor sign mark tmp base field precision flags out) := by
  have space : Ordinary (byte ' ') := by decide
  have zero : Ordinary (byte '0') := by decide
  have padded : Ordinary (if flags.zeropad then byte '0' else byte ' ') := by
    split
    · exact zero
    · exact space
  have reversed : ∀ c ∈ tmp.reverse, Ordinary c := fun c member => digits c (List.mem_reverse.mp member)
  have marking (out : σ) (held : holds out) : holds (if flags.special then
      if base = 8 then cursor.put (byte '0') out
      else if base = 16 then cursor.put mark (cursor.put (byte '0') out)
      else out
    else out) := by
    split
    · split
      · exact kept _ zero out held
      · split
        · exact kept mark marked _ (kept _ zero out held)
        · exact held
    · exact held
  have padding (wanted : Bool) {c : BitVec 8} (ordinary : Ordinary c) (field : Int32) (out : σ) (held : holds out) :
      holds (if wanted then padWhile cursor c 0 field out else (field, out)).2 := by
    split
    · exact padWhile_kept kept ordinary 0 field held
    · exact held
  unfold numberLayout
  refine padWhile_kept kept space _ _ (emit_kept kept reversed (padWhile_kept kept zero _ _ (padding _ padded _ _ (marking _ ?_))))
  cases sign with
  | none => exact padding _ space _ _ held
  | some c => exact kept c (signed c rfl) _ (padding _ space _ _ held)

theorem vsnprintfNumber_kept (number : BitVec 64) {base : Nat} (positive : 0 < base) (small : base ≤ 16)
    (field precision : Int32) (flags : FormatFlags) (held : holds out) :
    holds (vsnprintfNumber cursor number base field precision flags out) := by
  have digit : ∀ large : Bool, ∀ i < 36, Ordinary (vsnprintfDigit large i) := by decide
  have digits (large : Bool) (turns number : Nat) : ∀ c ∈ numberDigits (vsnprintfDigit large) base turns number, Ordinary c := by
    induction turns generalizing number with
    | zero => exact nofun
    | succ turns ih =>
      rw [numberDigits]
      split
      · exact nofun
      · have below : number % base < 36 := (Nat.mod_lt number positive).trans_le (small.trans (by decide))
        exact List.forall_mem_cons.mpr ⟨digit large _ below, ih _⟩
  have shown (large : Bool) (number : BitVec 64) :
      ∀ c ∈ if number = 0 then [byte '0'] else numberDigits (vsnprintfDigit large) base 64 number.toNat, Ordinary c := by
    split
    · decide
    · exact digits large 64 number.toNat
  exact numberLayout_kept kept (fun c sign => numberSign_ordinary sign) (digit _ 33 (by decide)) (shown _ _) base _ _ _ held

end

theorem stringLength_null (maxlen : Nat) {place : Nat} (inside : place ≤ 6) :
    stringLength nullString maxlen place ≤ 6 - place := by
  induction maxlen generalizing place with
  | zero => exact Nat.zero_le _
  | succ maxlen ih =>
    rw [stringLength]
    split
    next more =>
      have below : place < 6 := by
        refine lt_of_le_of_ne inside fun last => more ?_
        rw [last]
        rfl
      have later : stringLength nullString maxlen (place + 1) ≤ 6 - (place + 1) := ih below
      omega
    next => exact Nat.zero_le _

def ones : VaList := fun _ => 1

theorem vsnprintfBase_small {kind : Nat × FormatFlags} (known : vsnprintfBase flags c = some kind) :
    0 < kind.1 ∧ kind.1 ≤ 16 := by
  unfold vsnprintfBase at known
  split_ifs at known
  · exact Option.some.inj known ▸ ⟨Nat.succ_pos 7, Nat.le_add_right 8 8⟩
  · exact Option.some.inj known ▸ ⟨Nat.succ_pos 15, le_rfl⟩
  · exact Option.some.inj known ▸ ⟨Nat.succ_pos 15, le_rfl⟩
  · exact Option.some.inj known ▸ ⟨Nat.succ_pos 9, Nat.le_add_right 10 6⟩
  · exact Option.some.inj known ▸ ⟨Nat.succ_pos 9, Nat.le_add_right 10 6⟩

/-- On a stack of ones what a conversion puts is ordinary, but for that of a percent sign. -/
theorem vsnprintfConvert_kept (texts : Memory) (qualifier : Qualifier) (ap : VaList) {out : List (BitVec 8)}
    {counts : List (BitVec 32 × BitVec 32)} {holds : List (BitVec 8) → Prop} (kept : Kept (Cursor.text 32) holds)
    (stack : head.ap = ones) (known : c ∈ conversions) (other : c ≠ byte '%') (held : holds out) :
    ∃ after more, vsnprintfConvert (Cursor.text 32) texts head qualifier c ⟨ap, out, counts⟩ = ⟨ones, after, more⟩ ∧
      holds after ∧
      (more = counts ∨ ∃ written, more = (1, written) :: counts) := by
  have skips (words : Nat) : ones.skip words = ones := rfl
  unfold vsnprintfConvert
  simp only [stack, skips]
  by_cases isC : c = byte 'c'
  · rw [if_pos isC]
    exact ⟨_, _, rfl, putChar_kept kept (show Ordinary ((ones 0).setWidth 8) by decide) _ _ held, .inl rfl⟩
  rw [if_neg isC]
  by_cases isS : c = byte 's'
  · rw [if_pos isS]
    refine ⟨_, _, rfl, putString_kept kept (fun i inside => ?_) _ _ held, .inl rfl⟩
    have letters : ∀ i < 6, Ordinary (nullString i) := by decide
    have low : (ones 0).toNat < 4096 := by decide
    simp only [if_pos low] at inside ⊢
    have short := stringLength_null head.precision.toBitVec.toNat (Nat.zero_le 6)
    rw [Int32.toInt_ofNat_of_lt (by omega), Int.toNat_natCast] at inside
    exact letters i (inside.trans_le short)
  rw [if_neg isS]
  by_cases isP : c = byte 'p'
  · rw [if_pos isP]
    exact ⟨_, _, rfl, vsnprintfNumber_kept kept _ (by decide) (by decide) _ _ _ held, .inl rfl⟩
  rw [if_neg isP]
  by_cases isN : c = byte 'n'
  · rw [if_pos isN]
    exact ⟨_, _, rfl, held, .inr ⟨_, rfl⟩⟩
  rw [if_neg isN, if_neg other]
  cases kind : vsnprintfBase head.flags c with
  | some kind =>
    obtain ⟨positive, small⟩ := vsnprintfBase_small kind
    exact ⟨_, _, rfl, vsnprintfNumber_kept kept _ positive small _ _ _ held, .inl rfl⟩
  | none =>
    simp only [conversions, List.mem_cons, List.not_mem_nil, or_false, isC, isS, isP, isN, other, false_or] at known
    rcases known with rfl | rfl | rfl | rfl | rfl | rfl
    · exact absurd kind (Option.some_ne_none _)
    · exact absurd kind (Option.some_ne_none _)
    · exact absurd kind (Option.some_ne_none _)
    · exact absurd kind (Option.some_ne_none _)
    · exact absurd kind (Option.some_ne_none _)
    · exact absurd kind (Option.some_ne_none _)

theorem vsnprintfConvert_unknown {σ : Type} {texts : Memory} (cursor : Cursor 32 σ) (other : c ∉ conversions)
    (head : FormatHead) (qualifier : Qualifier) (state : FormatState σ) :
    vsnprintfConvert cursor texts head qualifier c state =
      { state with ap := head.ap, out := cursor.put c (cursor.put (byte '%') state.out) } := by
  simp only [conversions, List.mem_cons, List.not_mem_nil, or_false, not_or] at other
  obtain ⟨isC, isS, isP, isN, percent, octal, large, small, signed, integer, unsigned⟩ := other
  have base : vsnprintfBase head.flags c = none := by simp [vsnprintfBase, octal, large, small, signed, integer, unsigned]
  simp [vsnprintfConvert, isC, isS, isP, isN, percent, base]

theorem vsnprintfConvert_percent {σ : Type} {texts : Memory} (cursor : Cursor 32 σ) (head : FormatHead)
    (qualifier : Qualifier) (state : FormatState σ) : vsnprintfConvert cursor texts head qualifier (byte '%') state =
      { state with ap := head.ap, out := cursor.put (byte '%') state.out } := rfl

/-! ### A format on a stack of ones -/

theorem formatHead_ones (format : List (BitVec 8)) : (formatHead format ones).ap = ones := by
  have skips : ones.skip 1 = ones := rfl
  have field (head : FormatHead) (stack : head.ap = ones) : (formatField head).ap = ones := by
    unfold formatField
    split
    · exact stack
    · split
      · exact stack
      · split
        · simp only [stack, skips]
          split
          · rfl
          · rfl
        · exact stack
  have value (head : FormatHead) (stack : head.ap = ones) : (formatPrecisionValue head).ap = ones := by
    unfold formatPrecisionValue
    split
    · exact stack
    · split
      · exact stack
      · split
        · rw [stack, skips]
        · exact stack
  have precision (head : FormatHead) (stack : head.ap = ones) : (formatPrecision head).ap = ones := by
    unfold formatPrecision
    split
    · exact stack
    · split
      · dsimp only
        split
        · exact value _ stack
        · exact value _ stack
      · exact stack
  exact precision _ (field _ rfl)

inductive Becomes : List (BitVec 8) → List (BitVec 8) → Prop
  | done : Becomes [] []
  | literal {c : BitVec 8} {rest text : List (BitVec 8)} (plain : c ≠ byte '%') (tail : Becomes rest text) :
    Becomes (c :: rest) (c :: text)
  | percent {taken rest text : List (BitVec 8)} (inners : ∀ d ∈ taken, Inner d) (tail : Becomes rest text) :
      Becomes (byte '%' :: (taken ++ byte '%' :: rest)) (byte '%' :: text)
  | converted {taken piece rest text : List (BitVec 8)} {c : BitVec 8} (inners : ∀ d ∈ taken, Inner d) (known : c ∈ conversions)
      (other : c ≠ byte '%') (ordinary : ∀ d ∈ piece, Ordinary d) (tail : Becomes rest text) :
      Becomes (byte '%' :: (taken ++ c :: rest)) (piece ++ text)
  | unknown {taken rest text : List (BitVec 8)} {c : BitVec 8} (inners : ∀ d ∈ taken, Inner d) (first : taken = [] → ¬Inner c)
      (other : c ∉ conversions) (tail : Becomes rest text) : Becomes (byte '%' :: (taken ++ c :: rest)) (byte '%' :: c :: text)

theorem text_kept (out : List (BitVec 8)) :
    Kept (Cursor.text 32) fun after => ∃ piece, after = out ++ piece ∧ ∀ c ∈ piece, Ordinary c := by
  rintro c here _ ⟨piece, rfl, ordinary⟩
  refine ⟨piece ++ [c], List.append_assoc _ _ _, ?_⟩
  exact List.forall_mem_append.mpr ⟨ordinary, List.forall_mem_singleton.mpr here⟩

theorem directive_becomes {texts : Memory} {qualifier : Qualifier}
    (read : vsnprintfQualifier (formatHead format ones).format = (qualifier, c :: rest)) (out : List (BitVec 8))
    (counts : List (BitVec 32 × BitVec 32)) :
    ∃ piece more, vsnprintfConvert (Cursor.text 32) texts (formatHead format ones) qualifier c ⟨ones, out, counts⟩ =
        ⟨ones, out ++ piece, more⟩ ∧
      (∀ text, Becomes rest text → Becomes (byte '%' :: format) (piece ++ text)) ∧ ∀ count ∈ more, count ∈ counts ∨
        count.1 = 1 := by
  have stack := formatHead_ones format
  obtain ⟨taken, shape, inners⟩ := directive_takes format ones
  rw [read] at shape
  have first : taken = [] → ¬Inner c := by
    rintro rfl inner
    have shorter := (directive_inner rest inner ones).length
    rw [show c :: rest = format from shape.symm, read] at shorter
    exact Nat.not_succ_le_self _ shorter
  rw [shape] at stack ⊢
  by_cases known : c ∈ conversions
  · by_cases percent : c = byte '%'
    · subst percent
      rw [vsnprintfConvert_percent, stack]
      exact ⟨_, _, rfl, fun text becomes => .percent inners becomes, fun count member => .inl member⟩
    · obtain ⟨_, more, converts, ⟨piece, rfl, ordinary⟩, stored⟩ := vsnprintfConvert_kept texts qualifier ones
        (text_kept out) stack known percent ⟨[], (List.append_nil _).symm, nofun⟩
      refine ⟨piece, more, converts, fun text becomes => .converted inners known percent ordinary becomes, fun count member => ?_⟩
      cases stored with
      | inl same => exact .inl (same ▸ member)
      | inr stored =>
        obtain ⟨written, rfl⟩ := stored
        cases List.mem_cons.mp member with
        | inl here => exact .inr (congrArg Prod.fst here)
        | inr earlier => exact .inl earlier
  · rw [vsnprintfConvert_unknown _ known, stack]
    refine ⟨[byte '%', c], counts, ?_, fun text becomes => .unknown inners first known becomes, fun count member => .inl member⟩
    exact congrArg (fun out => FormatState.mk ones out counts) (List.append_assoc _ _ _)

theorem vsnprintfLoop_becomes {texts : Memory} {turns : Nat} {out : List (BitVec 8)}
    {counts : List (BitVec 32 × BitVec 32)} {last : FormatState (List (BitVec 8))}
    (run : vsnprintfLoop (Cursor.text 32) texts turns format ⟨ones, out, counts⟩ = some last) :
    ∃ text, Becomes format text ∧ last.out = out ++ text ∧ ∀ count ∈ last.counts, count ∈ counts ∨ count.1 = 1 := by
  induction turns generalizing format out counts with
  | zero =>
    cases format with
    | nil =>
      cases run
      exact ⟨[], .done, (List.append_nil _).symm, fun count member => .inl member⟩
    | cons c format => cases run
  | succ turns ih =>
    cases format with
    | nil =>
      cases run
      exact ⟨[], .done, (List.append_nil _).symm, fun count member => .inl member⟩
    | cons c format =>
      rw [vsnprintfLoop] at run
      by_cases literal : c ≠ byte '%'
      · rw [if_pos literal] at run
        obtain ⟨text, becomes, whole, stored⟩ := ih run
        exact ⟨c :: text, .literal literal becomes, whole.trans (List.append_assoc _ _ _), stored⟩
      · rw [if_neg literal] at run
        obtain rfl := not_not.mp literal
        dsimp only at run
        cases read : vsnprintfQualifier (formatHead format ones).format with
        | mk qualifier rest =>
          rw [read] at run
          cases rest with
          | nil => cases run
          | cons c rest =>
            obtain ⟨piece, more, converts, becomes, stored⟩ := directive_becomes read out counts
            dsimp only at run
            rw [converts] at run
            obtain ⟨text, tail, whole, later⟩ := ih run
            refine ⟨piece ++ text, becomes text tail, whole.trans (List.append_assoc _ _ _), fun count member => ?_⟩
            exact (later count member).elim (stored count) .inr

/-! ### What the text has of its format -/

variable {text : List (BitVec 8)}

theorem inners_count {taken : List (BitVec 8)} {d : BitVec 8} (inners : ∀ c ∈ taken, Inner c) (outer : ¬Inner d) :
    taken.count d = 0 :=
  List.count_eq_zero_of_not_mem fun member => outer (inners d member)

theorem Becomes.nonzero (becomes : Becomes format text) (nonzero : 0 ∉ format) : 0 ∉ text := by
  have sign : (0 : BitVec 8) ≠ byte '%' := by decide
  induction becomes with
  | done => exact nonzero
  | literal plain tail ih =>
    have here := List.ne_of_not_mem_cons nonzero
    exact List.not_mem_cons_of_ne_of_not_mem here (ih (List.not_mem_of_not_mem_cons nonzero))
  | percent inners tail ih =>
    simp only [List.mem_cons, List.mem_append, not_or] at nonzero
    exact List.not_mem_cons_of_ne_of_not_mem sign (ih nonzero.2.2.2)
  | converted inners known other ordinary tail ih =>
    simp only [List.mem_cons, List.mem_append, not_or] at nonzero
    exact List.not_mem_append (fun member => (ordinary 0 member).1 rfl) (ih nonzero.2.2.2)
  | unknown inners first other tail ih =>
    simp only [List.mem_cons, List.mem_append, not_or] at nonzero
    exact List.not_mem_cons_of_ne_of_not_mem sign (List.not_mem_cons_of_ne_of_not_mem nonzero.2.2.1 (ih nonzero.2.2.2))

theorem percent_outer : ¬Inner (byte '%') := by decide

theorem percent_known {c : BitVec 8} (other : c ∉ conversions) : c ≠ byte '%' := by
  rintro rfl
  exact other (by decide)

/-- Percent signs are lost only. -/
theorem Becomes.percents (becomes : Becomes format text) : text.count (byte '%') ≤ format.count (byte '%') := by
  induction becomes with
  | done => exact le_rfl
  | literal plain tail ih => simpa [List.count_cons] using ih
  | percent inners tail ih =>
    simp only [List.count_cons_self, List.count_append, inners_count inners percent_outer]
    omega
  | @converted taken piece rest text c inners known other ordinary tail ih =>
    have none : piece.count (byte '%') = 0 := List.count_eq_zero_of_not_mem fun member => (ordinary _ member).2 rfl
    simp only [List.count_cons_self, List.count_append, inners_count inners percent_outer, none, List.count_cons_of_ne other]
    omega
  | unknown inners first other tail ih =>
    simp only [List.count_cons_self, List.count_append, inners_count inners percent_outer, List.count_cons_of_ne (percent_known other)]
    omega

/-- A character that means nothing in a directive is not lost. -/
theorem Becomes.keeps {d : BitVec 8} (becomes : Becomes format text) (outer : ¬Inner d)
    (meaningless : d ∉ conversions) :
    format.count d ≤ text.count d := by
  have sign : byte '%' ≠ d := (percent_known meaningless).symm
  induction becomes with
  | done => exact le_rfl
  | literal plain tail ih => simpa [List.count_cons] using ih
  | percent inners tail ih =>
    simpa only [List.count_cons_of_ne sign, List.count_append, inners_count inners outer, Nat.zero_add] using ih
  | @converted taken piece rest text c inners known other ordinary tail ih =>
    have other : c ≠ d := fun same => meaningless (same ▸ known)
    simp only [List.count_cons_of_ne sign, List.count_append, inners_count inners outer, List.count_cons_of_ne other]
    omega
  | unknown inners first other tail ih =>
    simp only [List.count_cons_of_ne sign, List.count_append, inners_count inners outer, List.count_cons]
    omega

end YuzuOS.Proofs.FormatPieces
