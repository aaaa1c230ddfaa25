import EntityQuery.Proofs.Language.Cut
import EntityQuery.Value.Literal

/-! # The value of a literal

Reading the text of a literal gives the value that it stands for and no other (`ofLiteral?_eq_some_iff`).
No literal has a blank at its ends, so nothing is trimmed, and its first character tells quoted texts,
numbers and words apart. -/

namespace EntityQuery.Language
open Grammar

/-! ### Quoted texts -/

theorem unescaped_unescape {quote : Char} {body : List Char} (h : IsQuotedBody quote body) :
    Unescaped quote body (Text.unescape quote body) := by
  induction h with
  | nil => exact .nil
  | plain hq hb _ ih =>
    rw [Text.unescape_cons_of_ne hb]
    exact .plain hq hb ih
  | @escaped c cs _ ih =>
    rw [Text.unescape]
    split
    · exact .dropped ‹_› ih
    · exact .kept ‹_› ih

theorem Unescaped.eq_unescape {quote : Char} {body text : List Char} (h : Unescaped quote body text) :
    text = Text.unescape quote body := by
  induction h with
  | nil => rfl
  | plain hq hb _ ih => rw [Text.unescape_cons_of_ne hb, ih]
  | dropped hc _ ih => rw [Text.unescape, if_pos hc, ih]
  | kept hc _ ih => rw [Text.unescape, if_neg hc, ih]

theorem unquote_quoted {quote : Char} {body : List Char} (h : Text.isQuote quote = true) :
    Text.unquote (quote :: (body ++ [quote])) = some (Text.unescape quote body) := by
  simp [Text.unquote, h]

theorem unquote_eq_some_iff {cs text : List Char} : Text.unquote cs = some text ↔ ∃ quote body,
    Text.isQuote quote = true ∧ cs = quote :: (body ++ [quote]) ∧ text = Text.unescape quote body := by
  constructor
  · intro h
    unfold Text.unquote at h
    split at h
    · cases h
    · rename_i quote rest
      obtain ⟨hends, htext⟩ := Option.ite_none_right_eq_some.mp h
      rw [Bool.and_eq_true, beq_iff_eq] at hends
      obtain ⟨hq, hlast⟩ := hends
      obtain ⟨body, rfl⟩ := List.getLast?_eq_some_iff.mp hlast
      rw [List.dropLast_concat] at htext
      exact ⟨quote, body, hq, rfl, (Option.some.inj htext).symm⟩
  · rintro ⟨quote, body, hq, rfl, rfl⟩
    exact unquote_quoted hq

/-! ### Blanks -/

theorem isBlank_of_isWordChar {c : Char} (h : isWordChar c = true) : Text.isBlank c = false := by
  rw [isWordChar_iff] at h
  simp only [Text.isBlank, Text.blankRuns, List.any_cons, List.any_nil, Bool.or_false,
    Bool.or_eq_false_iff, Bool.and_eq_false_iff, decide_eq_false_iff_not]
  omega

theorem isBlank_of_isQuote {c : Char} (h : Text.isQuote c = true) : Text.isBlank c = false := by
  simp only [Text.isQuote, Bool.or_eq_true, beq_iff_eq] at h
  rcases h with rfl | rfl <;> decide

theorem mem_isDigits {ds : List Char} (h : Decimal.isDigits ds = true) {c : Char} (hc : c ∈ ds) :
    isWordChar c = true :=
  isWordChar_of_isDigit ((isDigits_iff.mp h).2 c hc)

theorem isBlank_of_mem_number {cs : List Char} (h : IsNumber cs) {c : Char} (hc : c ∈ cs) :
    Text.isBlank c = false := by
  have blank : c ∈ ['-', '+', '.', 'e', 'E'] → Text.isBlank c = false := by
    intro h
    simp only [List.mem_cons, List.not_mem_nil, or_false] at h
    rcases h with rfl | rfl | rfl | rfl | rfl <;> decide
  obtain ⟨hs, hw, hf, he⟩ := h
  simp only [List.mem_append] at hc
  rcases hc with ((hc | hc) | hc) | hc
  · rcases hs with rfl | rfl
    · cases hc
    · exact blank (by simp_all)
  · exact isBlank_of_isWordChar (mem_isDigits hw hc)
  · cases hf with
    | absent => cases hc
    | digits hds =>
      rcases List.mem_cons.mp hc with rfl | hc
      · exact blank (by simp)
      · exact isBlank_of_isWordChar (mem_isDigits hds hc)
  · cases he with
    | absent => cases hc
    | @digits mark sign ds hm hs hds =>
      rcases List.mem_cons.mp hc with rfl | hc
      · exact blank (by rcases hm with rfl | rfl <;> simp)
      · rcases List.mem_append.mp hc with hc | hc
        · exact blank (by rcases hs with rfl | rfl | rfl <;> simp_all)
        · exact isBlank_of_isWordChar (mem_isDigits hds hc)

theorem trim_of_not_blank {cs : List Char} (h : ∀ c ∈ cs, Text.isBlank c = false) : Text.trim cs = cs :=
  Text.trim_eq_self (fun c hc => h c (List.mem_of_head? hc)) fun c hc => h c (List.mem_of_getLast? hc)

theorem trim_literal {cs : List Char} (h : IsLiteral cs) : Text.trim cs = cs := by
  cases h with
  | @quoted quote body hq hbody =>
    refine Text.trim_eq_self (fun c hc => ?_) fun c hc => ?_
    · obtain rfl := Option.some.inj hc
      exact isBlank_of_isQuote hq
    · rw [← List.cons_append, List.getLast?_append, List.getLast?_singleton, Option.some_or] at hc
      obtain rfl := Option.some.inj hc
      exact isBlank_of_isQuote hq
  | number hn => exact trim_of_not_blank fun _ hc => isBlank_of_mem_number hn hc
  | word hw =>
    exact trim_of_not_blank fun c hc =>
      isBlank_of_isWordChar (chars_of_map_toLower (isPlain_valueWord hw) rfl c hc)

/-! ### Numbers -/

theorem takeMinus_of_head {cs : List Char} (h : cs.head? ≠ some '-') : Decimal.takeMinus cs = (false, cs) := by
  rw [Decimal.takeMinus.eq_def]
  split
  · exact absurd rfl h
  · rfl

theorem takeMinus_digits {ds : List Char} (h : Decimal.isDigits ds = true) : Decimal.takeMinus ds = (false, ds) :=
  takeMinus_of_head (List.append_nil ds ▸ head?_ne_of_isDigits h (by decide))

theorem readInteger_eq_some_iff {cs : List Char} {n : Int} :
    Decimal.readInteger cs = some n ↔ Whole cs n := by
  constructor
  · intro h
    by_cases hc : cs.head? = some '-'
    · obtain ⟨tail, rfl⟩ := List.head?_eq_some_iff.mp hc
      obtain ⟨hds, heq⟩ := Option.ite_none_right_eq_some.mp h
      rw [← Option.some.inj heq]
      exact .negative hds
    · rw [Decimal.readInteger, takeMinus_of_head hc] at h
      obtain ⟨hds, heq⟩ := Option.ite_none_right_eq_some.mp h
      rw [← Option.some.inj heq]
      exact .positive hds
  · intro h
    cases h with
    | positive hds =>
      rw [Decimal.readInteger, takeMinus_digits hds]
      exact if_pos hds
    | negative hds => exact if_pos hds

theorem readInt64_eq_some_iff {cs : List Char} {i : Int64} :
    Decimal.readInt64 cs = some i ↔ ∃ n, Whole cs n ∧ FitsInt64 n ∧ Int64.ofInt n = i := by
  simp only [Decimal.readInt64, Option.bind_eq_some_iff, readInteger_eq_some_iff,
    Option.ite_none_right_eq_some, Option.some_inj, FitsInt64]

theorem readInt64_eq_none_iff {cs : List Char} :
    Decimal.readInt64 cs = none ↔ ∀ n, Whole cs n → ¬FitsInt64 n := by
  rw [Option.eq_none_iff_forall_ne_some]
  constructor
  · intro h n hn hfits
    exact h _ (readInt64_eq_some_iff.mpr ⟨n, hn, hfits, rfl⟩)
  · intro h i hi
    obtain ⟨n, hn, hfits, -⟩ := readInt64_eq_some_iff.mp hi
    exact h n hn hfits

theorem isNumber_of_whole {cs : List Char} {n : Int} (h : Whole cs n) : IsNumber cs := by
  cases h with
  | positive hds =>
    rw [← List.append_nil cs, ← List.append_nil cs]
    exact .parts (Or.inl rfl) hds .absent .absent
  | @negative ds hds =>
    rw [← List.append_nil (_ :: _), ← List.append_nil (_ :: _)]
    exact .parts (Or.inr rfl) hds .absent .absent

theorem takeMinus_sign {sign ds rest : List Char} (hsign : sign = [] ∨ sign = ['-'])
    (hds : Decimal.isDigits ds = true) : (Decimal.takeMinus (sign ++ (ds ++ rest))).2 = ds ++ rest := by
  rcases hsign with rfl | rfl
  · rw [List.nil_append, takeMinus_of_head (head?_ne_of_isDigits hds (by decide))]
  · rfl

/-- What begins with a digit is read as a whole number of 64 bits if it can be, and else as a double. -/
theorem ofLiteral?_of_digit {cs ds rest : List Char} (hcs : (Decimal.takeMinus cs).2 = ds ++ rest)
    (hds : Decimal.isDigits ds = true) : Number.ofLiteral? cs =
      match Decimal.readInt64 cs with
      | some n => some (.integer n)
      | none => ((Decimal.readDecimal cs).filter Float.isFinite).map .float := by
  obtain ⟨hne, hchars⟩ := isDigits_iff.mp hds
  obtain ⟨d, ds, rfl⟩ := List.exists_cons_of_ne_nil hne
  rw [Number.ofLiteral?, hcs]
  exact if_pos (hchars d List.mem_cons_self)

theorem ofLiteral?_number {cs : List Char} (h : IsNumber cs) : Number.ofLiteral? cs =
    match Decimal.readInt64 cs with
    | some n => some (.integer n)
    | none => ((Decimal.readDecimal cs).filter Float.isFinite).map .float := by
  obtain ⟨hsign, hwhole, -, -⟩ := h
  rw [List.append_assoc, List.append_assoc]
  exact ofLiteral?_of_digit (takeMinus_sign hsign hwhole) hwhole

theorem unquote_of_head {c : Char} {cs : List Char} (h : Text.isQuote c = false) :
    Text.unquote (c :: cs) = none := by
  rw [Text.unquote, h, Bool.false_and]
  rfl

theorem not_wordValue_of_number {c : Char} {tail word : List Char} (hc : c = '-' ∨ c.isDigit = true)
    (hw : word ∈ valueWords) : Text.equalIgnoringCase (c :: tail) word = false := by
  rw [Text.equalIgnoringCase, (isPlain_valueWord hw).lower, List.map_cons, beq_eq_false_iff_ne]
  rintro rfl
  have hlower : c.toLower = c := by
    rcases hc with rfl | hc
    · rfl
    · exact toLower_of_isDigit hc
  rw [hlower] at hw
  simp only [valueWords, List.mem_cons, List.not_mem_nil, or_false] at hw
  rcases hw with hw | hw | hw <;> obtain ⟨rfl, -⟩ := List.cons.inj hw <;>
    exact absurd hc (by decide)

theorem ofTrimmed?_of_head {c : Char} {tail : List Char} (hc : c = '-' ∨ c.isDigit = true) :
    Value.ofTrimmed? (c :: tail) = (Number.ofLiteral? (c :: tail)).map .number := by
  have hq : Text.isQuote c = false := by
    rcases hc with rfl | hc
    · rfl
    · exact isQuote_of_isWordChar (isWordChar_of_isDigit hc)
  rw [Value.ofTrimmed?, unquote_of_head hq]
  have htrue : "true".toList ∈ valueWords := by simp [valueWords]
  have hfalse : "false".toList ∈ valueWords := by simp [valueWords]
  have hnull : "null".toList ∈ valueWords := by simp [valueWords]
  simp only [not_wordValue_of_number hc htrue, not_wordValue_of_number hc hfalse,
    not_wordValue_of_number hc hnull, Bool.false_eq_true, if_false]

theorem ofTrimmed?_number {cs : List Char} (h : IsNumber cs) :
    Value.ofTrimmed? cs = (Number.ofLiteral? cs).map .number := by
  obtain ⟨c, tail, rfl, hc⟩ := isNumber_head h
  exact ofTrimmed?_of_head hc

/-! ### Words -/

theorem ofTrimmed?_word {cs word : List Char} (h : cs.map Char.toLower = word) (hw : word ∈ valueWords) :
    Value.ofTrimmed? cs =
      if word = "true".toList then some (.boolean true)
      else if word = "false".toList then some (.boolean false)
      else some .null := by
  have hplain := isPlain_valueWord hw
  have hne : word ≠ [] := by
    rintro rfl
    exact absurd hw (by decide)
  obtain ⟨c, tail, rfl, hc⟩ := head_of_map_toLower hplain hne h
  rw [Value.ofTrimmed?, unquote_of_head (isQuote_of_isWordChar hc)]
  simp only [Text.equalIgnoringCase, h]
  simp only [valueWords, List.mem_cons, List.not_mem_nil, or_false] at hw
  rcases hw with rfl | rfl | rfl <;> rfl

/-! ### Literals -/

theorem denotes_of_ofTrimmed? {cs : List Char} {v : Value} (h : IsLiteral cs)
    (hv : Value.ofTrimmed? cs = some v) : Denotes cs v := by
  cases h with
  | @quoted quote body hq hbody =>
    rw [Value.ofTrimmed?, unquote_quoted hq] at hv
    obtain rfl := Option.some.inj hv
    exact .quoted hq (unescaped_unescape hbody)
  | number hn =>
    rw [ofTrimmed?_number hn, ofLiteral?_number hn] at hv
    obtain ⟨n, hn', rfl⟩ := Option.map_eq_some_iff.mp hv
    split at hn'
    · rename_i i hi
      obtain ⟨m, hm, hfits, rfl⟩ := readInt64_eq_some_iff.mp hi
      obtain rfl := Option.some.inj hn'
      exact .integer hm hfits
    · rename_i hnone
      obtain ⟨x, hx, rfl⟩ := Option.map_eq_some_iff.mp hn'
      obtain ⟨hx, hfinite⟩ := Option.filter_eq_some_iff.mp hx
      exact .float hn (readInt64_eq_none_iff.mp hnone) hx hfinite
  | word hw =>
    rw [ofTrimmed?_word rfl hw] at hv
    simp only [valueWords, List.mem_cons, List.not_mem_nil, or_false] at hw
    rcases hw with hw | hw | hw <;> rw [hw] at hv <;> obtain rfl := Option.some.inj hv
    · exact .yes hw
    · exact .no hw
    · exact .null hw

theorem ofTrimmed?_of_denotes {cs : List Char} {v : Value} (h : Denotes cs v) :
    Value.ofTrimmed? cs = some v := by
  cases h with
  | quoted hq hbody => rw [Value.ofTrimmed?, unquote_quoted hq, hbody.eq_unescape]
  | @integer _ n hn hfits =>
    have hnumber := isNumber_of_whole hn
    rw [ofTrimmed?_number hnumber, ofLiteral?_number hnumber,
      readInt64_eq_some_iff.mpr ⟨n, hn, hfits, rfl⟩]
    rfl
  | float hn hwhole hx hfinite =>
    rw [ofTrimmed?_number hn, ofLiteral?_number hn, readInt64_eq_none_iff.mpr hwhole, hx]
    simp only [Option.filter_some, hfinite, if_true]
    rfl
  | yes h => rw [ofTrimmed?_word h (by simp [valueWords]), if_pos rfl]
  | no h =>
    rw [ofTrimmed?_word h (by simp [valueWords])]
    rfl
  | null h =>
    rw [ofTrimmed?_word h (by simp [valueWords])]
    rfl

/-- What is read from the text of a literal is the value that it stands for. -/
theorem ofLiteral?_eq_some_iff {cs : List Char} {v : Value} (h : IsLiteral cs) :
    Value.ofLiteral? (String.ofList cs) = some v ↔ Denotes cs v := by
  rw [Value.ofLiteral?, String.toList_ofList, trim_literal h]
  exact ⟨denotes_of_ofTrimmed? h, ofTrimmed?_of_denotes⟩

end EntityQuery.Language
