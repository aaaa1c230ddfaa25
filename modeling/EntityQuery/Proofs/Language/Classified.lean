import EntityQuery.Proofs.Decimal.Overflow
import EntityQuery.Proofs.Language.Literal
import EntityQuery.Proofs.Language.Numeral

/-! # Literals are classified as the grammar has them

The grammar tells four kinds of literal apart while it reads a text; the value of a literal is found by
another route, from the text of the word alone. Both agree on every literal (`ofLiteral?_classified`). A
number stands for an exact decimal (`Exact`), and it has no value only when the double nearest to that
is infinite. -/

namespace EntityQuery.Language
open Grammar Decimal

/-! ### Exact decimals -/

/-- The exponent that an exponent part stands for; without one it is zero. -/
inductive ExponentIs : List Char → Int → Prop
  | absent : ExponentIs [] 0
  | positive {mark : Char} {sign ds : List Char} : mark = 'e' ∨ mark = 'E' → sign = [] ∨ sign = ['+'] →
      isDigits ds = true → ExponentIs (mark :: (sign ++ ds)) (Nat.ofDigitChars 10 ds 0)
  | negative {mark : Char} {ds : List Char} : mark = 'e' ∨ mark = 'E' → isDigits ds = true →
      ExponentIs (mark :: '-' :: ds) (-(Nat.ofDigitChars 10 ds 0 : Int))

/-- The number that the text of a number stands for, before any rounding. -/
inductive Exact : List Char → ℚ → Prop
  | parts {sign whole fraction mark : List Char} {e : Int} : sign = [] ∨ sign = ['-'] →
      isDigits whole = true → IsFraction fraction → ExponentIs mark e →
      Exact (sign ++ whole ++ fraction ++ mark)
        ((if sign = [] then 1 else -1) *
          (Nat.ofDigitChars 10 (whole ++ fraction.tail) 0 * 10 ^ (e - fraction.tail.length)))

section Exact
variable {cs mark : List Char} {e : Int} {q : ℚ}

theorem exists_exponentIs (h : IsExponent mark) : ∃ e, ExponentIs mark e := by
  cases h with
  | absent => exact ⟨0, .absent⟩
  | @digits mark sign ds hmark hsign hds =>
    rcases hsign with rfl | rfl | rfl
    · exact ⟨_, .positive hmark (Or.inl rfl : [] = [] ∨ _) hds⟩
    · exact ⟨_, .positive hmark (Or.inr rfl : ['+'] = [] ∨ _) hds⟩
    · exact ⟨_, .negative hmark hds⟩

theorem exists_exact (h : IsNumber cs) : ∃ q, Exact cs q := by
  obtain ⟨hsign, hwhole, hfraction, hmark⟩ := h
  obtain ⟨e, he⟩ := exists_exponentIs hmark
  exact ⟨_, .parts hsign hwhole hfraction he⟩

theorem Exact.isNumber (h : Exact cs q) : IsNumber cs := by
  obtain ⟨hsign, hwhole, hfraction, hmark⟩ := h
  refine .parts hsign hwhole hfraction ?_
  cases hmark with
  | absent => exact .absent
  | positive hmark hs hds => exact .digits hmark (hs.imp_right Or.inl) hds
  | negative hmark hds => exact .digits hmark (Or.inr (Or.inr rfl) : ['-'] = [] ∨ _) hds

theorem exact_of_whole {n : Int} (h : Whole cs n) : Exact cs n := by
  cases h with
  | positive hds =>
    have h := Exact.parts (Or.inl rfl : [] = [] ∨ _) hds .absent .absent
    simpa using h
  | @negative ds hds =>
    have h := Exact.parts (Or.inr rfl : ['-'] = [] ∨ _) hds .absent .absent
    simpa using h

theorem ExponentIs.head (h : ExponentIs mark e) :
    (∀ c ∈ mark.head?, c.isDigit = false) ∧ mark.head? ≠ some '.' := by
  have of_mark : ∀ {c : Char} {tail : List Char}, c = 'e' ∨ c = 'E' →
      (∀ d ∈ (c :: tail).head?, d.isDigit = false) ∧ (c :: tail).head? ≠ some '.' := by
    rintro c tail hc
    rw [List.head?_cons, Ne, Option.some_inj]
    refine ⟨fun d hd => ?_, ?_⟩
    · obtain rfl := Option.some.inj hd
      rcases hc with rfl | rfl <;> decide
    · rcases hc with rfl | rfl <;> decide
  cases h with
  | absent => simp
  | positive hmark => exact of_mark hmark
  | negative hmark => exact of_mark hmark

theorem readExponent_eq (h : ExponentIs mark e) : readExponent mark = some e := by
  cases h with
  | absent => rfl
  | @positive mark sign ds hmark hsign hds =>
    rcases hsign with rfl | rfl
    · exact readExponent_digits hmark hds
    · show readExponent (mark :: '+' :: ds) = _
      rw [readExponent, if_pos hmark]
      exact if_pos hds
  | negative hmark hds =>
    rw [readExponent, if_pos hmark]
    exact if_pos hds

theorem readUnsigned_exact {whole fraction : List Char} (hwhole : isDigits whole = true)
    (hfraction : IsFraction fraction) (hmark : ExponentIs mark e) : readUnsigned (whole ++ (fraction ++ mark)) =
      some (Nat.ofDigitChars 10 (whole ++ fraction.tail) 0, e - fraction.tail.length) := by
  obtain ⟨hdigit, hpoint⟩ := hmark.head
  rw [← digitsValue_eq]
  cases hfraction with
  | absent =>
    rw [List.nil_append, readUnsigned_plain hwhole hdigit hpoint (readExponent_eq hmark)]
    simp
  | digits hds => exact readUnsigned_point hwhole (isDigits_iff.mp hds).2 hdigit (readExponent_eq hmark)

theorem readDecimal_parts {sign whole fraction : List Char} (hsign : sign = [] ∨ sign = ['-'])
    (hwhole : isDigits whole = true) (hfraction : IsFraction fraction) (hmark : ExponentIs mark e) :
    readDecimal (sign ++ whole ++ fraction ++ mark) = some (nearest (sign == ['-'])
      (Nat.ofDigitChars 10 (whole ++ fraction.tail) 0) (e - fraction.tail.length)) := by
  have hread := readUnsigned_exact hwhole hfraction hmark
  rw [List.append_assoc, List.append_assoc]
  rcases hsign with rfl | rfl
  · rw [List.nil_append, readDecimal, takeMinus_of_head (head?_ne_of_isDigits hwhole (by decide))]
    show (readUnsigned (whole ++ (fraction ++ mark))).map _ = _
    rw [hread]
    rfl
  · show (readUnsigned (whole ++ (fraction ++ mark))).map _ = _
    rw [hread]
    rfl

/-- The text of a number is read as a double of the right size. -/
theorem readDecimal_exact (h : Exact cs q) : ∃ negative digits e,
    readDecimal cs = some (nearest negative digits e) ∧ |q| = digits * 10 ^ e := by
  obtain ⟨hsign, hwhole, hfraction, hmark⟩ := h
  rename_i sign whole fraction mark e
  have hsize : (0 : ℚ) ≤ Nat.ofDigitChars 10 (whole ++ fraction.tail) 0 * 10 ^ (e - fraction.tail.length) := by positivity
  refine ⟨_, _, _, readDecimal_parts hsign hwhole hfraction hmark, ?_⟩
  split
  · rw [one_mul, abs_of_nonneg hsize]
  · rw [neg_one_mul, abs_neg, abs_of_nonneg hsize]

/-- A number is read as infinite exactly when it is out of the range of doubles, and else as a finite
    double. -/
theorem isInf_readDecimal_iff (h : Exact cs q) : ∃ x, readDecimal cs = some x ∧
    (x.isInf = true ↔ overflow ≤ |q|) ∧ (x.isFinite = true ↔ ¬x.isInf = true) := by
  obtain ⟨negative, digits, e, hread, hq⟩ := readDecimal_exact h
  refine ⟨_, hread, ?_, isFinite_nearest_iff ..⟩
  rw [isInf_nearest_iff, decimalMagnitude_eq_infinity_iff, hq]

theorem abs_lt_overflow {n : Int} (h : FitsInt64 n) : |(n : ℚ)| < overflow := by
  have hle : |n| ≤ 2 ^ 63 := abs_le.mpr ⟨h.1, Int.le_trans h.2 (by decide)⟩
  have hcast : |(n : ℚ)| ≤ 2 ^ 63 := by exact_mod_cast hle
  refine lt_of_le_of_lt hcast ?_
  rw [overflow_eq]
  calc (2 : ℚ) ^ 63 < 2 ^ 970 := pow_lt_pow_right₀ (by norm_num) (by norm_num)
    _ ≤ (2 ^ 54 - 1) * 2 ^ 970 := le_mul_of_one_le_left (by positivity) (by norm_num)

/-- Whole numbers of 64 bits are in the range of doubles. -/
theorem isFinite_of_whole {n : Int} {x : Float} (hw : Whole cs n) (hfits : FitsInt64 n)
    (hx : readDecimal cs = some x) : x.isInf = false := by
  obtain ⟨y, hy, hinf, -⟩ := isInf_readDecimal_iff (exact_of_whole hw)
  obtain rfl := Option.some.inj (hx.symm.trans hy)
  rw [Bool.eq_false_iff, Ne, hinf, not_le]
  exact abs_lt_overflow hfits

end Exact

/-! ### Kinds -/

/-- The pattern takes the text from its front to its end. -/
def Spans {α : Type} (p : Pattern α) (text : String) : Prop :=
  ∃ a d, (p.run (Cursor.start text) Attempts.none).1 = some (a, d) ∧ d.rest = []

/-- The kinds of literal in the order in which the grammar tries them. -/
def literalKinds : List Lexeme :=
  [.quoted, .number, .boolean, .null]

section Kinds
variable {w : String}

theorem spans_word_iff {l : Lexeme} : Spans (.word l) w ↔ l.scan w.toList = some (w.toList, []) := by
  simp only [Spans, Pattern.run_fst]
  constructor
  · rintro ⟨t, d, hm, hd⟩
    obtain ⟨text, hscan, -, -⟩ := Cursor.word?_eq_some_iff.mp hm
    rw [hd] at hscan
    have hw : w.toList = text := by rw [← List.append_nil text]; exact (scan_append hscan).1
    rw [← hw] at hscan
    exact hscan
  · intro h
    obtain ⟨t, d, hm, -, hd⟩ := word?_of_scan (c := Cursor.start w) (List.append_nil _).symm
      (by rw [List.append_nil]; exact h)
    exact ⟨t, d, hm, hd⟩

theorem spans_quoted_iff : Spans (.word .quoted) w ↔ ∃ quote body, Text.isQuote quote = true ∧
    IsQuotedBody quote body ∧ w.toList = quote :: (body ++ [quote]) := by
  rw [spans_word_iff]
  refine scanQuoted_eq_some_iff.trans ?_
  simp only [List.append_nil, and_true]

theorem spans_number_iff : Spans (.word .number) w ↔ IsNumber w.toList := by
  rw [spans_word_iff]
  constructor
  · intro h
    exact (scanNumber_sound h).2.1
  · intro h
    have hscan := @scanNumber_complete _ [] h rfl (by simp)
    rwa [List.append_nil] at hscan

theorem scanWord_whole_iff {word cs : List Char} (hword : word ∈ valueWords) :
    scanWord word cs = some (cs, []) ↔ cs.map Char.toLower = word := by
  rw [scanWord_eq_some_iff (isPlain_valueWord hword)]
  simp [startsWord]

theorem spans_boolean_iff : Spans (.word .boolean) w ↔
    w.toList.map Char.toLower = "true".toList ∨ w.toList.map Char.toLower = "false".toList := by
  rw [spans_word_iff]
  refine Option.or_eq_some_iff.trans ?_
  rw [scanWord_whole_iff (by simp [valueWords]), scanWord_whole_iff (by simp [valueWords])]
  refine or_congr_right (and_iff_right_of_imp fun hfalse => ?_)
  -- A text cannot begin with one of the two words and be the other.
  rw [Option.eq_none_iff_forall_ne_some]
  rintro ⟨front, rest⟩ h
  obtain ⟨hcs, htrue, -⟩ := (scanWord_eq_some_iff (isPlain_valueWord (by simp [valueWords]))).mp h
  rw [hcs, List.map_append, htrue] at hfalse
  exact absurd (List.cons.inj hfalse).1 (by decide)

theorem spans_null_iff : Spans (.word .null) w ↔ w.toList.map Char.toLower = "null".toList :=
  spans_word_iff.trans (scanWord_whole_iff (by simp [valueWords]))

theorem spans_value_iff : Spans value w ↔ IsLiteral w.toList := by
  constructor
  · rintro ⟨t, d, hm, hd⟩
    rw [Pattern.run_fst] at hm
    obtain ⟨hrest, -, -, hl, -⟩ := value_taken hm
    rw [hd, List.append_nil] at hrest
    rw [show w.toList = t.text.toList from hrest]
    exact hl
  · intro hl
    have hcut : Cut (Cursor.start w).rest [.literal w.toList] := by
      have hcut := cut_append (w := .literal w.toList) ⟨hl, rfl⟩ (Or.inr rfl : (Word.literal w.toList).EndsBefore [])
        (.done fun _ h => by cases h)
      rwa [List.append_nil] at hcut
    have hskip : skip w.toList = w.toList := by
      have h := @skip_spelled (.literal w.toList) _ [] ⟨hl, rfl⟩
      rwa [List.append_nil] at h
    obtain ⟨t, d, hm, ht, -⟩ := value_complete hcut
    rw [(Cursor.start w).reaches_skipLayout.eq (.refl _) hskip] at hm
    obtain ⟨hrest, -⟩ := value_taken hm
    rw [ht] at hrest
    exact ⟨t, d, (Pattern.run_fst ..).trans hm, List.self_eq_append_right.mp hrest⟩

/-- The kind of the literals that begin with a character. -/
def kindAt (c : Char) : Lexeme :=
  if Text.isQuote c then .quoted
  else if c = '-' ∨ c.isDigit = true then .number
  else if c.toLower = 'n' then .null
  else .boolean

/-- The words that are values begin with letters. -/
theorem valueLetter {c d : Char} (hc : c.toLower = d) (hd : d ∈ ['t', 'f', 'n']) :
    Text.isQuote c = false ∧ c.isDigit = false ∧ c ≠ '-' ∧ c ≠ '.' := by
  have hne : ∀ c' : Char, c'.toLower = c' → c' ∉ ['t', 'f', 'n'] → c ≠ c' := by
    rintro c' hlower hnot rfl
    rw [hlower] at hc
    exact hnot (hc ▸ hd)
  refine ⟨?_, ?_, hne '-' rfl (by decide), hne '.' rfl (by decide)⟩
  · rw [Text.isQuote, Bool.or_eq_false_iff, beq_eq_false_iff_ne, beq_eq_false_iff_ne]
    exact ⟨hne _ rfl (by decide), hne _ rfl (by decide)⟩
  · rw [Bool.eq_false_iff]
    intro h
    rw [toLower_of_isDigit h] at hc
    subst hc
    simp only [List.mem_cons, List.not_mem_nil, or_false] at hd
    rcases hd with rfl | rfl | rfl <;> exact absurd h (by decide)

theorem kindAt_letter {c d : Char} (hc : c.toLower = d) (hd : d ∈ ['t', 'f', 'n']) :
    kindAt c = if d = 'n' then .null else .boolean := by
  obtain ⟨hquote, hdigit, hminus, -⟩ := valueLetter hc hd
  simp [kindAt, hquote, hdigit, hminus, hc]

/-- The first character of a literal tells its kind. -/
theorem kind_head {l : Lexeme} (hl : l ∈ literalKinds) (h : Spans (.word l) w) :
    ∃ c ∈ w.toList.head?, l = kindAt c := by
  simp only [literalKinds, List.mem_cons, List.not_mem_nil, or_false] at hl
  rcases hl with rfl | rfl | rfl | rfl
  · obtain ⟨quote, body, hq, -, hw⟩ := spans_quoted_iff.mp h
    exact ⟨quote, by simp [hw], (if_pos hq).symm⟩
  · obtain ⟨c, tail, hw, hc⟩ := isNumber_head (spans_number_iff.mp h)
    have hq : Text.isQuote c = false := by
      rcases hc with rfl | hc
      · rfl
      · exact isQuote_of_isWordChar (isWordChar_of_isDigit hc)
    exact ⟨c, by simp [hw], by simp [kindAt, hq, hc]⟩
  · rcases spans_boolean_iff.mp h with h | h
    all_goals
      obtain ⟨c, tail, hw, hc, -⟩ := List.map_eq_cons_iff.mp h
      exact ⟨c, by simp [hw], (kindAt_letter hc (by decide)).symm⟩
  · obtain ⟨c, tail, hw, hc, -⟩ := List.map_eq_cons_iff.mp (spans_null_iff.mp h)
    exact ⟨c, by simp [hw], (kindAt_letter hc (by decide)).symm⟩

/-- A literal is of exactly one kind. -/
theorem existsUnique_kind (h : IsLiteral w.toList) : ∃! l, l ∈ literalKinds ∧ Spans (.word l) w := by
  refine existsUnique_of_exists_of_unique ?_ ?_
  · generalize hw : w.toList = cs at h
    cases h with
    | @quoted quote body hq hbody =>
      exact ⟨.quoted, by simp [literalKinds], spans_quoted_iff.mpr ⟨quote, body, hq, hbody, hw⟩⟩
    | number hn => exact ⟨.number, by simp [literalKinds], spans_number_iff.mpr (hw ▸ hn)⟩
    | word hword =>
      simp only [valueWords, List.mem_cons, List.not_mem_nil, or_false, ← or_assoc] at hword
      rcases hword with h | h
      · exact ⟨.boolean, by simp [literalKinds], spans_boolean_iff.mpr (hw ▸ h)⟩
      · exact ⟨.null, by simp [literalKinds], spans_null_iff.mpr (hw ▸ h)⟩
  · rintro l l' ⟨hl, hs⟩ ⟨hl', hs'⟩
    obtain ⟨c, hc, rfl⟩ := kind_head hl hs
    obtain ⟨c', hc', rfl⟩ := kind_head hl' hs'
    rw [Option.mem_unique hc hc']

end Kinds

/-! ### Values -/

theorem trim_blanks {front back cs : List Char} (hfront : ∀ c ∈ front, Text.isBlank c = true)
    (hback : ∀ c ∈ back, Text.isBlank c = true) : Text.trim (front ++ cs ++ back) = Text.trim cs := by
  rw [Text.trim, List.append_assoc, List.dropWhile_append_of_pos hfront, List.dropWhile_append]
  split
  · rename_i h
    have hcs : List.dropWhile Text.isBlank cs = [] := List.isEmpty_iff.mp h
    have hnil : List.dropWhile Text.isBlank back = [] := List.dropWhile_eq_nil_iff.mpr hback
    rw [Text.trim, hcs, hnil]
  · rw [List.reverse_append, List.dropWhile_append_of_pos fun c hc => hback c (List.mem_reverse.mp hc), Text.trim]

section Values
variable {w : String} {v : Option Value}

/-- What a literal is read as, by the kind that the grammar finds it to be. -/
structure Classified (w : String) (v : Option Value) : Prop where
  kind : ∃! l, l ∈ literalKinds ∧ Spans (.word l) w
  quoted : Spans (.word .quoted) w → ∃ quote body text, Text.isQuote quote = true ∧
    w.toList = quote :: (body ++ [quote]) ∧ Unescaped quote body text ∧ v = some (.string (String.ofList text))
  boolean : Spans (.word .boolean) w → ∃ b : Bool,
    w.toList.map Char.toLower = (if b then "true" else "false").toList ∧ v = some (.boolean b)
  null : Spans (.word .null) w → v = some .null
  integer : Spans (.word .number) w → ∀ i : Int64, v = some (.number (.integer i)) ↔
    ∃ n, Whole w.toList n ∧ FitsInt64 n ∧ i = Int64.ofInt n
  float : Spans (.word .number) w → ∀ x : Float, v = some (.number (.float x)) ↔
    (∀ n, Whole w.toList n → ¬FitsInt64 n) ∧ readDecimal w.toList = some x ∧ x.isFinite = true
  infinite : Spans (.word .number) w →
    (v = none ↔ ∃ x, readDecimal w.toList = some x ∧ x.isInf = true)
  overflow : ∀ q, Exact w.toList q → (v = none ↔ overflow ≤ |q|)

theorem denotes_integer_iff {cs : List Char} {i : Int64} : Denotes cs (.number (.integer i)) ↔
    ∃ n, Whole cs n ∧ FitsInt64 n ∧ i = Int64.ofInt n := by
  constructor
  · intro h
    cases h with
    | integer hn hfits => exact ⟨_, hn, hfits, rfl⟩
  · rintro ⟨n, hn, hfits, rfl⟩
    exact .integer hn hfits

theorem denotes_float_iff {cs : List Char} (hnumber : IsNumber cs) {x : Float} :
    Denotes cs (.number (.float x)) ↔
      (∀ n, Whole cs n → ¬FitsInt64 n) ∧ readDecimal cs = some x ∧ x.isFinite = true := by
  constructor
  · intro h
    cases h with
    | float _ hwhole hx hfinite => exact ⟨hwhole, hx, hfinite⟩
  · rintro ⟨hwhole, hx, hfinite⟩
    exact .float hnumber hwhole hx hfinite

/-- A number has no value exactly when the double that is read is infinite. -/
theorem ofLiteral?_number_eq_none_iff {cs : List Char} (h : IsNumber cs) :
    Value.ofLiteral? (String.ofList cs) = none ↔ ∃ x, readDecimal cs = some x ∧ x.isInf = true := by
  obtain ⟨q, hq⟩ := exists_exact h
  obtain ⟨x, hx, -, hfinite⟩ := isInf_readDecimal_iff hq
  rw [Value.ofLiteral?, String.toList_ofList, trim_literal (.number h), ofTrimmed?_number h,
    Option.map_eq_none_iff, ofLiteral?_number h, hx]
  cases hi : readInt64 cs with
  | some i =>
    obtain ⟨n, hn, hfits, -⟩ := readInt64_eq_some_iff.mp hi
    simp [isFinite_of_whole hn hfits hx]
  | none => simp [Option.filter_some, hfinite]

theorem classified_literal (h : IsLiteral w.toList) : Classified w (Value.ofLiteral? w) := by
  have hvalue : Value.ofLiteral? w = Value.ofTrimmed? w.toList := by
    rw [Value.ofLiteral?, trim_literal h]
  have hdenotes : ∀ v, Value.ofLiteral? w = some v ↔ Denotes w.toList v := by
    intro v
    rw [← ofLiteral?_eq_some_iff h, String.ofList_toList]
  have hnone : IsNumber w.toList →
      (Value.ofLiteral? w = none ↔ ∃ x, readDecimal w.toList = some x ∧ x.isInf = true) := by
    intro hn
    rw [← ofLiteral?_number_eq_none_iff hn, String.ofList_toList]
  exact {
    kind := existsUnique_kind h
    quoted := by
      intro hs
      obtain ⟨quote, body, hq, hbody, hw⟩ := spans_quoted_iff.mp hs
      refine ⟨quote, body, _, hq, hw, unescaped_unescape hbody, ?_⟩
      rw [hvalue, hw, Value.ofTrimmed?, unquote_quoted hq]
    boolean := by
      intro hs
      rcases spans_boolean_iff.mp hs with hw | hw
      · exact ⟨true, hw, (hdenotes _).mpr (.yes hw)⟩
      · exact ⟨false, hw, (hdenotes _).mpr (.no hw)⟩
    null := fun hs => (hdenotes _).mpr (.null (spans_null_iff.mp hs))
    integer := fun _ i => (hdenotes _).trans denotes_integer_iff
    float := fun hs x => (hdenotes _).trans (denotes_float_iff (spans_number_iff.mp hs))
    infinite := fun hs => hnone (spans_number_iff.mp hs)
    overflow := by
      intro q hq
      obtain ⟨x, hx, hinf, -⟩ := isInf_readDecimal_iff hq
      rw [hnone hq.isNumber, ← hinf]
      simp [hx] }

/-- Only numbers are without a value. -/
theorem Classified.number_of_none (h : Classified w v) (hv : v = none) : Spans (.word .number) w := by
  subst hv
  obtain ⟨l, ⟨hl, hs⟩, -⟩ := h.kind
  simp only [literalKinds, List.mem_cons, List.not_mem_nil, or_false] at hl
  rcases hl with rfl | rfl | rfl | rfl
  · obtain ⟨_, _, _, _, _, _, hv⟩ := h.quoted hs
    cases hv
  · exact hs
  · obtain ⟨_, _, hv⟩ := h.boolean hs
    cases hv
  · cases h.null hs

/-- The value of a literal, with blanks around it or without, is the one that the kind found by the grammar
    gives; and the only literals without a value are numbers that are read as infinite. -/
theorem ofLiteral?_classified (h : Spans value w) {front back : List Char}
    (hfront : ∀ c ∈ front, Text.isBlank c = true) (hback : ∀ c ∈ back, Text.isBlank c = true) :
    Classified w (Value.ofLiteral? (String.ofList (front ++ w.toList ++ back))) ∧
      ∀ offset f, (Token.mk offset w).value = .error f ↔
        Spans (.word .number) w ∧ (∃ x, readDecimal w.toList = some x ∧ x.isInf = true) ∧
          f = { offset, cause := .unrecognizedLiteral w } := by
  have hl := spans_value_iff.mp h
  have hclassified := classified_literal hl
  refine ⟨?_, fun offset f => ?_⟩
  · rw [Value.ofLiteral?, String.toList_ofList, trim_blanks hfront hback]
    exact hclassified
  · have herror : (Token.mk offset w).value = .error f ↔
        Value.ofLiteral? w = none ∧ f = { offset, cause := .unrecognizedLiteral w } := by
      rw [Token.value]
      cases Value.ofLiteral? w with
      | some v => simp
      | none => simp [eq_comm]
    rw [herror]
    constructor
    · rintro ⟨hnone, hf⟩
      have hs := hclassified.number_of_none hnone
      exact ⟨hs, (hclassified.infinite hs).mp hnone, hf⟩
    · rintro ⟨hs, hx, hf⟩
      exact ⟨(hclassified.infinite hs).mpr hx, hf⟩

/-- Zeros in front do not count, and a number with an exponent may be too large to have a value. -/
theorem ofLiteral?_classified_zeros :
    (Spans value "-00042" ∧ Text.isBlank ' ' = true ∧ Text.isBlank '\t' = true ∧
      Value.ofLiteral? " -00042\t" = some (.number (.integer (-42)))) ∧
    Spans value "1e400" ∧ (Token.mk 7 "1e400").value =
      .error { offset := 7, cause := .unrecognizedLiteral "1e400" } := by
  have hsmall : Spans value "-00042" := ⟨⟨0, "-00042"⟩, ⟨6, []⟩, by decide +kernel, rfl⟩
  have hlarge : Spans value "1e400" := ⟨⟨0, "1e400"⟩, ⟨5, []⟩, by decide +kernel, rfl⟩
  have hinteger := (@ofLiteral?_classified _ hsmall [' '] ['\t'] (List.forall_mem_singleton.mpr (by decide))
    (List.forall_mem_singleton.mpr (by decide))).1.integer ⟨⟨0, "-00042"⟩, ⟨6, []⟩, by decide +kernel, rfl⟩ (-42)
  have hreport := (@ofLiteral?_classified _ hlarge [] [] (by simp) (by simp)).2 7
    { offset := 7, cause := .unrecognizedLiteral "1e400" }
  exact ⟨⟨hsmall, by decide, by decide, hinteger.mpr ⟨-42, .negative (by decide), ⟨by decide, by decide⟩, by decide⟩⟩,
    hlarge, hreport.mpr ⟨⟨⟨0, "1e400"⟩, ⟨5, []⟩, by decide +kernel, rfl⟩, ⟨_, rfl, by decide +kernel⟩, rfl⟩⟩

end Values

end EntityQuery.Language
