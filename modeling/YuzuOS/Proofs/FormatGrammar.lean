import YuzuOS.Kernel.Stdio
import YuzuOS.Kernel.Serial

/-! The grammar of the directives `%[flags][width][.precision][qualifier]conversion`. The
formatters read a directive exactly to its conversion, with an argument for each star. -/

namespace YuzuOS.Proofs.FormatGrammar
open YuzuOS.Library YuzuOS.Kernel

def flagBytes : List (BitVec 8) := [byte '-', byte '+', byte ' ', byte '#', byte '0']

inductive Width : List (BitVec 8) → Nat → Prop
  | absent : Width [] 0
  | digits {c : BitVec 8} {rest : List (BitVec 8)} (first : isdigit c) (nonzero : c ≠ byte '0')
      (others : ∀ d ∈ rest, isdigit d) : Width (c :: rest) 0
  | argument : Width [byte '*'] 1

inductive Precision : List (BitVec 8) → Nat → Prop
  | absent : Precision [] 0
  | bare : Precision [byte '.'] 0
  | digits {c : BitVec 8} {rest : List (BitVec 8)} (first : isdigit c) (others : ∀ d ∈ rest, isdigit d) :
      Precision (byte '.' :: c :: rest) 0
  | argument : Precision [byte '.', byte '*'] 1

inductive Head : List (BitVec 8) → Nat → Prop
  | intro {flags width precision : List (BitVec 8)} {wide exact : Nat} (allowed : ∀ c ∈ flags, c ∈ flagBytes)
      (field : Width width wide) (point : Precision precision exact) :
      Head (flags ++ (width ++ precision)) (wide + exact)

/-- A character that ends the head of a directive. -/
def Plain (c : BitVec 8) : Prop := c ∉ flagBytes ∧ ¬isdigit c ∧ c ≠ byte '*' ∧ c ≠ byte '.'

instance (c : BitVec 8) : Decidable (Plain c) := inferInstanceAs (Decidable (_ ∧ _))

variable {format rest text : List (BitVec 8)} {c : BitVec 8} {words : Nat}

@[simp] theorem skip_zero (ap : VaList) : ap.skip 0 = ap := rfl

theorem skip_skip (ap : VaList) (first second : Nat) : (ap.skip first).skip second = ap.skip (first + second) := by
  funext index
  exact congrArg ap (by omega)

theorem formatFlags_read (rest : List (BitVec 8)) (flags : FormatFlags) (allowed : ∀ d ∈ text, d ∈ flagBytes)
    (ends : c ∉ flagBytes) :
    (formatFlags flags (text ++ c :: rest)).2 = c :: rest := by
  induction text generalizing flags with
  | nil =>
    simp only [flagBytes, List.mem_cons, List.not_mem_nil, not_or, or_false] at ends
    simp [formatFlags, ends]
  | cons d text ih =>
    have others : ∀ d ∈ text, d ∈ flagBytes := fun e member => allowed e (List.mem_cons_of_mem _ member)
    have here := allowed d List.mem_cons_self
    simp only [flagBytes, List.mem_cons, List.not_mem_nil, or_false] at here
    rw [List.cons_append, formatFlags]
    rcases here with rfl | rfl | rfl | rfl | rfl
    · exact ih _ others
    · exact ih _ others
    · exact ih _ others
    · exact ih _ others
    · exact ih _ others

theorem formatAtoi_read (text : List (BitVec 8)) (i : Int32) (digits : ∀ d ∈ text, isdigit d) (ends : ¬isdigit c) :
    (formatAtoi i (text ++ c :: rest)).2 = c :: rest := by
  induction text generalizing i with
  | nil => simp [formatAtoi, ends]
  | cons d text ih =>
    rw [List.cons_append, formatAtoi, if_pos (digits d List.mem_cons_self)]
    exact ih _ fun e member => digits e (List.mem_cons_of_mem _ member)

theorem formatField_read (head : FormatHead) (field : Width text words) (reads : head.format = text ++ c :: rest)
    (digit : ¬isdigit c) (star : c ≠ byte '*') :
    (formatField head).format = c :: rest ∧ (formatField head).ap = head.ap.skip words := by
  unfold formatField
  rw [reads]
  cases field with
  | absent => simp [digit, star, reads]
  | digits first nonzero others =>
    have read : ∀ e rest', (∀ d ∈ rest', isdigit d) → isdigit e →
        (formatAtoi 0 (e :: (rest' ++ c :: rest))).2 = c :: rest := by
      intro e rest' others first
      refine formatAtoi_read (e :: rest') 0 ?_ digit
      intro d member
      cases List.mem_cons.mp member with
      | inl same => exact same ▸ first
      | inr later => exact others d later
    simp only [List.cons_append, first, if_true]
    exact ⟨read _ _ others first, rfl⟩
  | argument =>
    have plain : ¬isdigit (byte '*') := by decide
    simp only [List.cons_append, List.nil_append, plain, Bool.false_eq_true, if_false, if_true]
    split
    · exact ⟨rfl, rfl⟩
    · exact ⟨rfl, rfl⟩

theorem formatPrecisionValue_digits (head : FormatHead) (first : isdigit c) (others : ∀ d ∈ text, isdigit d)
    {e : BitVec 8} (reads : head.format = c :: (text ++ e :: rest)) (digit : ¬isdigit e) :
    (formatPrecisionValue head).format = e :: rest ∧ (formatPrecisionValue head).ap = head.ap := by
  unfold formatPrecisionValue
  rw [reads]
  simp only [first, if_true]
  refine ⟨formatAtoi_read (c :: text) 0 ?_ digit, trivial⟩
  intro d member
  cases List.mem_cons.mp member with
  | inl same => exact same ▸ first
  | inr later => exact others d later

theorem formatPrecision_read (head : FormatHead) (point : Precision text words)
    (reads : head.format = text ++ c :: rest) (plain : Plain c) :
    (formatPrecision head).format = c :: rest ∧ (formatPrecision head).ap = head.ap.skip words := by
  obtain ⟨-, digit, star, dot⟩ := plain
  -- setting a negative precision to zero leaves what is still to read
  have settled : ∀ value : FormatHead,
      (if value.precision < 0 then { value with precision := 0 } else value).format = value.format ∧
        (if value.precision < 0 then { value with precision := 0 } else value).ap = value.ap := by
    intro value
    split
    · exact ⟨rfl, rfl⟩
    · exact ⟨rfl, rfl⟩
  unfold formatPrecision
  rw [reads]
  cases point with
  | absent => simp [dot, reads]
  | bare =>
    simp only [List.cons_append, List.nil_append, if_true]
    have value : formatPrecisionValue { head with format := c :: rest } = { head with format := c :: rest } := by
      simp [formatPrecisionValue, digit, star]
    rw [value]
    exact settled _
  | digits first others =>
    simp only [List.cons_append, if_true]
    have value := formatPrecisionValue_digits ⟨head.flags, head.field, head.precision, _, head.ap⟩ first others
      (Eq.refl (_ :: (_ ++ c :: rest))) digit
    exact ⟨(settled _).1.trans value.1, (settled _).2.trans value.2⟩
  | argument =>
    have star : ¬isdigit (byte '*') := by decide
    simp only [List.cons_append, List.nil_append, if_true]
    have value : formatPrecisionValue { head with format := byte '*' :: c :: rest } =
        { head with precision := head.ap.int, format := c :: rest, ap := head.ap.skip 1 } := by
      simp [formatPrecisionValue, star]
    rw [value]
    exact settled _

theorem precision_starts (rest : List (BitVec 8)) (point : Precision text words) (plain : Plain c) :
    ∃ d more, text ++ c :: rest = d :: more ∧ d ∉ flagBytes ∧ ¬isdigit d ∧ d ≠ byte '*' := by
  obtain ⟨flag, digit, star, -⟩ := plain
  have dot : byte '.' ∉ flagBytes ∧ ¬isdigit (byte '.') ∧ byte '.' ≠ byte '*' := by decide
  cases point with
  | absent => exact ⟨c, rest, rfl, flag, digit, star⟩
  | bare => exact ⟨_, _, rfl, dot⟩
  | digits => exact ⟨_, _, rfl, dot⟩
  | argument => exact ⟨_, _, rfl, dot⟩

theorem width_starts (rest : List (BitVec 8)) {d : BitVec 8} (field : Width text words) (plain : d ∉ flagBytes) :
    ∃ e more, text ++ d :: rest = e :: more ∧ e ∉ flagBytes := by
  cases field with
  | absent => exact ⟨d, rest, rfl, plain⟩
  | digits first nonzero others =>
    refine ⟨_, _, rfl, fun flag => ?_⟩
    simp only [flagBytes, List.mem_cons, List.not_mem_nil, or_false] at flag
    rcases flag with rfl | rfl | rfl | rfl | rfl
    · exact absurd first (by decide)
    · exact absurd first (by decide)
    · exact absurd first (by decide)
    · exact absurd first (by decide)
    · exact nonzero rfl
  | argument => exact ⟨_, _, rfl, by decide⟩

theorem formatHead_read (rest : List (BitVec 8)) (ap : VaList) (head : Head text words) (plain : Plain c) :
    (formatHead (text ++ c :: rest) ap).format = c :: rest ∧
      (formatHead (text ++ c :: rest) ap).ap = ap.skip words := by
  cases head with
  | @intro flags width precision wide exact allowed field point =>
    obtain ⟨d, more, follows, flag, digit, star⟩ := precision_starts rest point plain
    obtain ⟨e, others, starts, ends⟩ := width_starts more field flag
    have text : flags ++ (width ++ precision) ++ c :: rest = flags ++ e :: others := by
      rw [List.append_assoc, List.append_assoc, follows, starts]
    have read := formatFlags_read others .none allowed ends
    have fields := formatField_read ⟨(formatFlags .none (flags ++ e :: others)).1, -1, -1, e :: others, ap⟩ field starts.symm
      digit star
    have points := formatPrecision_read _ point (fields.1.trans follows.symm) plain
    unfold formatHead
    rw [text]
    simp only [read]
    exact ⟨points.1, by rw [points.2, fields.2, skip_skip]⟩

def qualifiers : List (List (BitVec 8)) :=
  [[], [byte 'h'], [byte 'l'], [byte 'l', byte 'l'], [byte 'L'], [byte 'Z'], [byte 'z']]

def conversions : List (BitVec 8) :=
  [byte 'c', byte 's', byte 'p', byte 'n', byte '%', byte 'o', byte 'X', byte 'x', byte 'd', byte 'i', byte 'u']

inductive Complete : List (BitVec 8) → Prop
  | done : Complete []
  | literal {c : BitVec 8} {rest : List (BitVec 8)} (plain : c ≠ byte '%') (tail : Complete rest) : Complete (c :: rest)
  | directive {head qualifier rest : List (BitVec 8)} {words : Nat} {c : BitVec 8} (opening : Head head words)
      (qualified : qualifier ∈ qualifiers) (converts : c ∈ conversions) (tail : Complete rest) :
      Complete (byte '%' :: (head ++ (qualifier ++ c :: rest)))

theorem qualifier_starts (rest : List (BitVec 8)) {qualifier : List (BitVec 8)} (qualified : qualifier ∈ qualifiers)
    (converts : c ∈ conversions) :
    ∃ d more, qualifier ++ c :: rest = d :: more ∧ Plain d := by
  have plain : ∀ d ∈ conversions, Plain d := by decide
  cases qualifier with
  | nil => exact ⟨c, rest, rfl, plain c converts⟩
  | cons d more =>
    have first : ∀ qualifier ∈ qualifiers, ∀ d ∈ qualifier.head?, Plain d := by decide
    exact ⟨d, more ++ c :: rest, rfl, first _ qualified d rfl⟩

theorem vsnprintfQualifier_read (rest : List (BitVec 8)) {qualifier : List (BitVec 8)}
    (qualified : qualifier ∈ qualifiers) (converts : c ∈ conversions) :
    ∃ kind, vsnprintfQualifier (qualifier ++ c :: rest) = (kind, c :: rest) := by
  have other : ∀ d ∈ conversions, d ≠ byte 'h' ∧ d ≠ byte 'l' ∧ d ≠ byte 'L' ∧ d ≠ byte 'Z' ∧ d ≠ byte 'z' := by decide
  obtain ⟨h, l, L, Z, z⟩ := other c converts
  simp only [qualifiers, List.mem_cons, List.not_mem_nil, or_false] at qualified
  rcases qualified with rfl | rfl | rfl | rfl | rfl | rfl | rfl
  · exact ⟨.none, by simp [vsnprintfQualifier, h, l, L, Z, z]⟩
  · exact ⟨.short, rfl⟩
  · exact ⟨.long, by simp [vsnprintfQualifier, l, show byte 'l' ≠ byte 'h' by decide]⟩
  · exact ⟨.longLong, rfl⟩
  · exact ⟨.longLong, rfl⟩
  · exact ⟨.size, rfl⟩
  · exact ⟨.size, rfl⟩

/-- A format of complete directives is read to its end. -/
theorem vsnprintfLoop_complete {σ : Type} (cursor : Cursor 32 σ) (texts : Memory) (complete : Complete format)
    {turns : Nat} (enough : format.length ≤ turns) (state : FormatState σ) :
    ∃ last, vsnprintfLoop cursor texts turns format state = some last := by
  induction complete generalizing turns state with
  | done => exact ⟨state, by cases turns <;> rfl⟩
  | @literal c rest plain tail ih =>
    cases turns with
    | zero => simp at enough
    | succ turns =>
      rw [vsnprintfLoop, if_pos plain]
      exact ih (by simpa using enough) _
  | @directive head qualifier rest words c opening qualified converts tail ih =>
    cases turns with
    | zero => simp at enough
    | succ turns =>
      obtain ⟨d, more, starts, plain⟩ := qualifier_starts rest qualified converts
      obtain ⟨kind, read⟩ := vsnprintfQualifier_read rest qualified converts
      have opened := (formatHead_read more state.ap opening plain).1
      rw [vsnprintfLoop, if_neg (by simp), starts]
      simp only [opened]
      rw [← starts, read]
      refine ih ?_ _
      simp only [List.length_cons, List.length_append] at enough
      omega

end YuzuOS.Proofs.FormatGrammar
