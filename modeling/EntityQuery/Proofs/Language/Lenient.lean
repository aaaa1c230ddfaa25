import EntityQuery.Proofs.Language.Classified

/-! # What is read beyond the grammar

Reading a word looks at less of it than the grammar does: of a quoted text only at its two ends, and behind the
point of a number it takes no digit as well as some. So two kinds of words that are no literals have a value all
the same (`Lenient`). Every word with a value is a literal or one of these (`ofLiteral?_accepts_iff`). -/

namespace EntityQuery.Language
open Grammar Decimal

/-- The text of a number with nothing behind its point. -/
inductive EndsAtPoint : List Char → Prop
  | parts {sign whole exponent : List Char} : sign = [] ∨ sign = ['-'] → isDigits whole = true →
      IsExponent exponent → EndsAtPoint (sign ++ (whole ++ '.' :: exponent))

/-- The values of the words that are read although they are no literals: a text between equal quotes in which a
    quote has no backslash, or a backslash takes the last quote along, and a number that ends at its point. -/
inductive Lenient : List Char → Value → Prop
  | quoted {quote : Char} {body : List Char} : Text.isQuote quote = true → ¬IsQuotedBody quote body →
      Lenient (quote :: (body ++ [quote])) (.string (String.ofList (Text.unescape quote body)))
  | number {cs : List Char} {x : Float} : EndsAtPoint cs → readDecimal cs = some x → x.isFinite = true →
      Lenient cs (.number (.float x))

/-! ### Numbers -/

section Numbers
variable {cs : List Char} {x : Float}

theorem isExponent_of_readExponent {e : Int} (h : readExponent cs = some e) : IsExponent cs := by
  unfold readExponent at h
  split at h
  · exact .absent
  · rename_i mark rest
    obtain ⟨hmark, h⟩ := Option.ite_none_right_eq_some.mp h
    split at h <;> obtain ⟨hds, -⟩ := Option.ite_none_right_eq_some.mp h
    · exact .digits hmark (Or.inr (Or.inl rfl) : ['+'] = [] ∨ _) hds
    · exact .digits hmark (Or.inr (Or.inr rfl) : ['-'] = [] ∨ _) hds
    · exact .digits hmark (Or.inl rfl : [] = [] ∨ _) hds

theorem digitEnd_of_isExponent {exponent : List Char} (h : IsExponent exponent) :
    ∀ c ∈ exponent.head?, c.isDigit = false := by
  intro c hc
  rw [← List.append_nil exponent] at hc
  rcases head?_exponent h hc with (rfl | rfl) | hc
  · decide
  · decide
  · cases hc

theorem EndsAtPoint.head (h : EndsAtPoint cs) : ∃ c tail, cs = c :: tail ∧ (c = '-' ∨ c.isDigit = true) := by
  obtain ⟨hsign, hwhole, -⟩ := h
  obtain ⟨hne, hchars⟩ := isDigits_iff.mp hwhole
  obtain ⟨d, ds, rfl⟩ := List.exists_cons_of_ne_nil hne
  rcases hsign with rfl | rfl
  · exact ⟨d, _, rfl, Or.inr (hchars d List.mem_cons_self)⟩
  · exact ⟨'-', _, rfl, Or.inl rfl⟩

/-- The scanner of numbers stops at the point. -/
theorem EndsAtPoint.not_isNumber (h : EndsAtPoint cs) : ¬IsNumber cs := by
  obtain ⟨hsign, hwhole, hexponent⟩ := h
  rename_i sign whole exponent
  intro hn
  have hscan := @scanNumber_complete _ [] hn rfl (by simp)
  have hsign' : takeSign (sign ++ (whole ++ '.' :: exponent)) = (sign, whole ++ '.' :: exponent) :=
    takeSign_complete hsign (head?_ne_of_isDigits hwhole (by decide))
  have hwhole' : scanDigits (whole ++ '.' :: exponent) = some (whole, '.' :: exponent) := by
    refine scanDigits_eq_some_iff.mpr ⟨rfl, hwhole, fun c hc => ?_⟩
    obtain rfl := Option.some.inj hc
    decide
  have hnone : scanDigits exponent = none := by
    rw [scanDigits, ← List.nil_append exponent, takeWhile_append_of_head (digitEnd_of_isExponent hexponent)]
    rfl
  rw [List.append_nil, scanNumber, hsign'] at hscan
  simp [hwhole', takeFraction, hnone, takeExponent, startsWord] at hscan

theorem takeMinus_sound (cs : List Char) : ∃ sign, (sign = [] ∨ sign = ['-']) ∧ cs = sign ++ (takeMinus cs).2 := by
  unfold takeMinus
  split
  · exact ⟨['-'], Or.inr rfl, rfl⟩
  · exact ⟨[], Or.inl rfl, rfl⟩

/-- Behind the digits of a decimal stands a fraction, or a point alone, and then an exponent. -/
theorem readUnsigned_sound {ds : List Char} {parts : Nat × Int} (hhead : ∃ c ∈ ds.head?, c.isDigit = true)
    (h : readUnsigned ds = some parts) : ∃ whole fraction exponent, isDigits whole = true ∧
      (IsFraction fraction ∨ fraction = ['.']) ∧ IsExponent exponent ∧ ds = whole ++ (fraction ++ exponent) := by
  obtain ⟨c, hc, hdigit⟩ := hhead
  obtain ⟨tail, rfl⟩ := List.head?_eq_some_iff.mp hc
  have hwhole : isDigits ((c :: tail).takeWhile Char.isDigit) = true := by
    refine isDigits_iff.mpr ⟨?_, fun d => List.mem_takeWhile_imp⟩
    rw [List.takeWhile_cons_of_pos hdigit]
    exact List.cons_ne_nil _ _
  have hsplit := @List.takeWhile_append_dropWhile _ Char.isDigit (c :: tail)
  obtain ⟨-, h⟩ := Option.ite_none_left_eq_some.mp h
  obtain ⟨e, he, -⟩ := Option.map_eq_some_iff.mp h
  have hexponent := isExponent_of_readExponent he
  split at hexponent
  · rename_i after heq
    rw [heq] at hsplit
    have hafter := @List.takeWhile_append_dropWhile _ Char.isDigit after
    by_cases hnil : after.takeWhile Char.isDigit = []
    · rw [hnil, List.nil_append] at hafter
      refine ⟨_, ['.'], _, hwhole, Or.inr rfl, hexponent, hsplit.symm.trans ?_⟩
      rw [hafter]
      rfl
    · have hdigits := isDigits_iff.mpr ⟨hnil, fun d => List.mem_takeWhile_imp⟩
      refine ⟨_, _, _, hwhole, Or.inl (.digits hdigits), hexponent, hsplit.symm.trans ?_⟩
      rw [List.cons_append, hafter]
  · exact ⟨_, [], _, hwhole, Or.inl .absent, hexponent, hsplit.symm⟩

/-- A decimal that begins with a digit is a number, or it ends at its point. -/
theorem readDecimal_sound {c : Char} {tail : List Char} (hhead : (takeMinus cs).2 = c :: tail)
    (hc : c.isDigit = true) (h : readDecimal cs = some x) : IsNumber cs ∨ EndsAtPoint cs := by
  obtain ⟨sign, hsign, hcs⟩ := takeMinus_sound cs
  have hread : ∃ parts, readUnsigned (takeMinus cs).2 = some parts := by
    obtain ⟨parts, hparts, -⟩ := Option.map_eq_some_iff.mp h
    exact ⟨parts, hparts⟩
  obtain ⟨parts, hparts⟩ := hread
  obtain ⟨whole, fraction, exponent, hwhole, hfraction, hexponent, hrest⟩ :=
    readUnsigned_sound ⟨c, by rw [hhead]; rfl, hc⟩ hparts
  rw [hcs, hrest]
  rcases hfraction with hfraction | rfl
  · rw [← List.append_assoc, ← List.append_assoc]
    exact Or.inl (.parts hsign hwhole hfraction hexponent)
  · exact Or.inr (.parts hsign hwhole hexponent)

theorem endsAtPoint_of_ofLiteral? {n : Number} (hnumber : ¬IsNumber cs) (h : Number.ofLiteral? cs = some n) :
    ∃ x, EndsAtPoint cs ∧ readDecimal cs = some x ∧ x.isFinite = true ∧ n = .float x := by
  unfold Number.ofLiteral? at h
  split at h
  · cases h
  · rename_i hhead
    obtain ⟨hc, h⟩ := Option.ite_none_right_eq_some.mp h
    split at h
    · rename_i i hi
      obtain ⟨m, hm, -, -⟩ := readInt64_eq_some_iff.mp hi
      exact absurd (isNumber_of_whole hm) hnumber
    · obtain ⟨x, hx, rfl⟩ := Option.map_eq_some_iff.mp h
      obtain ⟨hx, hfinite⟩ := Option.filter_eq_some_iff.mp hx
      exact ⟨x, (readDecimal_sound hhead hc hx).resolve_left hnumber, hx, hfinite, rfl⟩

/-- A number that ends at its point is never whole, so it is read as a double. -/
theorem ofTrimmed?_endsAtPoint (h : EndsAtPoint cs) :
    Value.ofTrimmed? cs = ((readDecimal cs).filter Float.isFinite).map fun x => .number (.float x) := by
  have hnone : readInt64 cs = none :=
    readInt64_eq_none_iff.mpr fun n hn => absurd (isNumber_of_whole hn) h.not_isNumber
  have hread : Number.ofLiteral? cs = ((readDecimal cs).filter Float.isFinite).map .float := by
    obtain ⟨hsign, hwhole, -⟩ := h
    rw [ofLiteral?_of_digit (takeMinus_sign hsign hwhole) hwhole, hnone]
  obtain ⟨c, tail, rfl, hc⟩ := h.head
  rw [ofTrimmed?_of_head hc, hread, Option.map_map]
  rfl

end Numbers

/-! ### Words -/

section Words
variable {cs : List Char} {v : Value}

/-- A literal is a word of the kind that its first character tells. -/
theorem spans_kindAt {c : Char} {tail : List Char} (h : IsLiteral (c :: tail)) :
    Spans (.word (kindAt c)) (String.ofList (c :: tail)) := by
  rw [← String.toList_ofList (l := c :: tail)] at h
  obtain ⟨l, ⟨hl, hs⟩, -⟩ := existsUnique_kind h
  obtain ⟨c', hc', rfl⟩ := kind_head hl hs
  rw [String.toList_ofList] at hc'
  obtain rfl := Option.some.inj hc'
  exact hs

theorem Lenient.not_isLiteral (h : Lenient cs v) : ¬IsLiteral cs := by
  intro hl
  cases h with
  | @quoted quote body hq hbody =>
    have hs := spans_kindAt hl
    rw [kindAt, if_pos hq, spans_quoted_iff, String.toList_ofList] at hs
    obtain ⟨quote', body', -, hbody', heq⟩ := hs
    obtain ⟨rfl, heq⟩ := List.cons.inj heq
    exact hbody ((List.append_inj_left' heq rfl) ▸ hbody')
  | number hpoint =>
    obtain ⟨c, tail, rfl, hc⟩ := hpoint.head
    have hq : Text.isQuote c = false := by
      rcases hc with rfl | hc
      · rfl
      · exact isQuote_of_isWordChar (isWordChar_of_isDigit hc)
    have hs := spans_kindAt hl
    rw [kindAt, if_neg (by rw [hq]; exact Bool.false_ne_true), if_pos hc, spans_number_iff, String.toList_ofList] at hs
    exact hpoint.not_isNumber hs

theorem ofTrimmed?_of_lenient (h : Lenient cs v) : Value.ofTrimmed? cs = some v := by
  cases h with
  | quoted hq _ => rw [Value.ofTrimmed?, unquote_quoted hq]
  | number hpoint hx hfinite =>
    rw [ofTrimmed?_endsAtPoint hpoint, hx, Option.filter_some, if_pos hfinite]
    rfl

/-- A word that is read and is no literal is one of the two kinds of lenient words. -/
theorem lenient_of_ofTrimmed? (hl : ¬IsLiteral cs) (h : Value.ofTrimmed? cs = some v) : Lenient cs v := by
  have hword : ∀ word ∈ valueWords, Text.equalIgnoringCase cs word = false := by
    intro word hword
    rw [Text.equalIgnoringCase, (isPlain_valueWord hword).lower, beq_eq_false_iff_ne]
    rintro rfl
    exact hl (.word hword)
  rw [Value.ofTrimmed?] at h
  split at h
  · rename_i text htext
    obtain ⟨quote, body, hq, rfl, rfl⟩ := unquote_eq_some_iff.mp htext
    obtain rfl := Option.some.inj h
    exact .quoted hq fun hbody => hl (.quoted hq hbody)
  · rw [hword _ (by simp [valueWords]), hword _ (by simp [valueWords]), hword _ (by simp [valueWords])] at h
    obtain ⟨n, hn, rfl⟩ := Option.map_eq_some_iff.mp h
    obtain ⟨x, hpoint, hx, hfinite, rfl⟩ := endsAtPoint_of_ofLiteral? (fun hn => hl (.number hn)) hn
    exact .number hpoint hx hfinite

/-- A word has a value exactly when it is a literal that stands for this value, or a text between equal quotes or a
    number with a bare point that no literal is. -/
theorem ofLiteral?_accepts_iff (token : String) (v : Value) :
    (Value.ofLiteral? token = some v ↔
      Spans value (String.ofList (Text.trim token.toList)) ∧ Denotes (Text.trim token.toList) v ∨
        Lenient (Text.trim token.toList) v) ∧
    (Lenient (Text.trim token.toList) v → ¬Spans value (String.ofList (Text.trim token.toList))) := by
  rw [Value.ofLiteral?, spans_value_iff, String.toList_ofList]
  refine ⟨⟨fun h => ?_, ?_⟩, Lenient.not_isLiteral⟩
  · by_cases hl : IsLiteral (Text.trim token.toList)
    · exact Or.inl ⟨hl, denotes_of_ofTrimmed? hl h⟩
    · exact Or.inr (lenient_of_ofTrimmed? hl h)
  · rintro (⟨-, h⟩ | h)
    · exact ofTrimmed?_of_denotes h
    · exact ofTrimmed?_of_lenient h

/-- The bounds of a range of texts are read as one text, and the point of a number may be bare. -/
theorem ofLiteral?_accepts_iff_bounds :
    let bounds := (Value.pair (.string "a") (.string "b")).render
    (Lenient (Text.trim bounds.toList) (.string "a' AND 'b") ∧ Value.ofLiteral? bounds = some (.string "a' AND 'b") ∧
      ¬Spans value bounds) ∧
    Lenient (Text.trim " -1.e2".toList) (.number (.float (-100))) ∧
      Value.ofLiteral? " -1.e2" = some (.number (.float (-100))) ∧ ¬Spans value "-1.e2" := by
  have hbounds : ¬IsQuotedBody '\'' "a' AND 'b".toList := by
    intro h
    cases h with
    | plain _ _ h =>
      cases h with
      | plain hquote => exact hquote rfl
  have hquoted : Lenient "'a' AND 'b'".toList (.string "a' AND 'b") := .quoted rfl hbounds
  have hpoint : EndsAtPoint "-1.e2".toList :=
    @EndsAtPoint.parts ['-'] ['1'] ['e', '2'] (Or.inr rfl) rfl
      (@IsExponent.digits 'e' [] ['2'] (Or.inl rfl) (Or.inl rfl) rfl)
  have hnumber : Lenient "-1.e2".toList (.number (.float (-100))) :=
    .number hpoint (by decide +kernel) (by decide +kernel)
  obtain ⟨hread, hnot⟩ := ofLiteral?_accepts_iff "'a' AND 'b'" (.string "a' AND 'b")
  obtain ⟨hread', hnot'⟩ := ofLiteral?_accepts_iff " -1.e2" (.number (.float (-100)))
  exact ⟨⟨hquoted, hread.mpr (Or.inr hquoted), hnot hquoted⟩, hnumber, hread'.mpr (Or.inr hnumber), hnot' hnumber⟩

/-- A text with a bare quote in it is read. -/
theorem not_spans_of_read : ¬∀ token v, Value.ofLiteral? token = some v →
    Spans value (String.ofList (Text.trim token.toList)) := by
  have hread : Value.ofLiteral? "'a'b'" = some (.string "a'b") := by decide +kernel
  have hstop : (value.run (Cursor.start "'a'b'") Attempts.none).1 = some (⟨0, "'a'"⟩, ⟨3, ['b', '\'']⟩) := by
    decide +kernel
  intro h
  obtain ⟨t, d, hrun, hd⟩ := h _ _ hread
  obtain ⟨-, rfl⟩ := Prod.mk.inj (Option.some.inj (hstop.symm.trans hrun))
  cases hd

end Words

end EntityQuery.Language
