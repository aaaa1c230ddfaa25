import EntityQuery.Proofs.Language.Recognise

/-! # Literals and signs are recognised

The four kinds of literal begin with different characters, so the order in which they are tried does not
matter. A sign that begins another one is only taken alone because no literal begins with `=`. -/

namespace EntityQuery.Language
open Grammar

/-! ### Literals -/

theorem word?_eq_none_iff {l : Lexeme} {c : Cursor} :
    (Pattern.word l).match? c = none ↔ l.scan c.rest = none := by
  show c.word? l = none ↔ _
  rw [Cursor.word?, Option.map_eq_none_iff]

theorem mayBegin_point (w : Word) : w.mayBegin '.' = false := by
  cases w <;> dsimp only [Word.mayBegin] <;> decide

theorem startsWord_of_literalEnd {l rest : List Char} (he : (Word.literal l).EndsBefore rest)
    (hq : ∀ c ∈ l.head?, Text.isQuote c = false) : startsWord rest = false := by
  rcases he with ⟨c, hc, hquote⟩ | he
  · rw [hq c hc] at hquote
    cases hquote
  · exact he

theorem scanLiteral_sound {cs text rest : List Char}
    (h : ∃ l ∈ [Lexeme.quoted, .number, .boolean, .null], l.scan cs = some (text, rest)) :
    IsLiteral text ∧ (Word.literal text).EndsBefore rest := by
  have word : ∀ {w : List Char}, w ∈ valueWords → scanWord w cs = some (text, rest) →
      IsLiteral text ∧ (Word.literal text).EndsBefore rest := by
    intro w hw h
    obtain ⟨-, htext, hend⟩ := (scanWord_eq_some_iff (isPlain_valueWord hw)).mp h
    exact ⟨.word (htext ▸ hw), Or.inr hend⟩
  obtain ⟨l, hl, h⟩ := h
  simp only [List.mem_cons, List.not_mem_nil, or_false] at hl
  rcases hl with rfl | rfl | rfl | rfl
  · obtain ⟨quote, body, hq, hbody, rfl, -⟩ := scanQuoted_eq_some_iff.mp h
    exact ⟨.quoted hq hbody, Or.inl ⟨quote, rfl, hq⟩⟩
  · obtain ⟨-, hn, hend⟩ := scanNumber_sound h
    exact ⟨.number hn, Or.inr hend⟩
  · rcases Option.or_eq_some_iff.mp h with h | ⟨-, h⟩
    · exact word (by simp [valueWords]) h
    · exact word (by simp [valueWords]) h
  · exact word (by simp [valueWords]) h

theorem value_taken {c d : Cursor} {t : Token} (h : value.match? c = some (t, d)) :
    c.rest = t.text.toList ++ d.rest ∧ t.offset = c.offset ∧
      d.offset = c.offset + Text.byteLength t.text.toList ∧ IsLiteral t.text.toList ∧
      (Word.literal t.text.toList).EndsBefore d.rest := by
  have hword : ∃ l ∈ [Lexeme.quoted, .number, .boolean, .null],
      (Pattern.word l).match? c = some (t, d) := by
    rw [value, Pattern.match?_named] at h
    rcases Pattern.match?_orElse_eq_some_iff.mp h with h | ⟨-, h⟩
    · exact ⟨.quoted, by simp, h⟩
    rcases Pattern.match?_orElse_eq_some_iff.mp h with h | ⟨-, h⟩
    · exact ⟨.number, by simp, h⟩
    rcases Pattern.match?_orElse_eq_some_iff.mp h with h | ⟨-, h⟩
    · exact ⟨.boolean, by simp, h⟩
    · exact ⟨.null, by simp, h⟩
  obtain ⟨l, hl, hm⟩ := hword
  obtain ⟨text, hscan, rfl, hoffset⟩ := Cursor.word?_eq_some_iff.mp hm
  rw [String.toList_ofList]
  exact ⟨(scan_append hscan).1, rfl, hoffset, scanLiteral_sound ⟨l, hl, hscan⟩⟩

/-- Where a literal stands, the scanner of its kind takes it and the scanners tried before fail. -/
theorem scanLiteral_complete {l rest : List Char} (hl : IsLiteral l) (he : (Word.literal l).EndsBefore rest)
    (hpoint : rest.head? ≠ some '.') :
    scanQuoted (l ++ rest) = some (l, rest) ∨
    scanQuoted (l ++ rest) = none ∧ scanNumber (l ++ rest) = some (l, rest) ∨
    scanQuoted (l ++ rest) = none ∧ scanNumber (l ++ rest) = none ∧
      ((Lexeme.boolean.scan (l ++ rest) = some (l, rest)) ∨
        Lexeme.boolean.scan (l ++ rest) = none ∧ Lexeme.null.scan (l ++ rest) = some (l, rest)) := by
  cases hl with
  | @quoted quote body hq hbody =>
    exact Or.inl (scanQuoted_eq_some_iff.mpr ⟨quote, body, hq, hbody, rfl, rfl⟩)
  | number hn =>
    obtain ⟨c, tail, rfl, hc⟩ := isNumber_head hn
    have hq : Text.isQuote c = false := by
      rcases hc with rfl | hc
      · rfl
      · exact isQuote_of_isWordChar (isWordChar_of_isDigit hc)
    have hend := startsWord_of_literalEnd he fun d hd => Option.some.inj hd ▸ hq
    exact Or.inr (Or.inl ⟨scanQuoted_eq_none hq, scanNumber_complete hn hend hpoint⟩)
  | word hw =>
    have hplain := isPlain_valueWord hw
    have hne : l.map Char.toLower ≠ [] := by
      intro hnil
      rw [hnil] at hw
      exact absurd hw (by decide)
    have hchars := chars_of_map_toLower hplain rfl
    obtain ⟨c, tail, rfl, hc⟩ := head_of_map_toLower hplain hne rfl
    have hend := startsWord_of_literalEnd he fun d hd => Option.some.inj hd ▸ isQuote_of_isWordChar hc
    -- The word is spelled with letters, so the number scanner stops at the first of them.
    have hdigit : c.isDigit = false := by
      rw [Bool.eq_false_iff]
      intro hd
      rw [List.map_cons, toLower_of_isDigit hd] at hw
      simp only [valueWords, List.mem_cons, List.not_mem_nil, or_false] at hw
      rcases hw with hw | hw | hw <;> obtain ⟨rfl, -⟩ := List.cons.inj hw <;> exact absurd hd (by decide)
    have hminus : c ≠ '-' := by
      rintro rfl
      exact absurd hc (by decide)
    have hscan : ∀ {w : List Char}, (c :: tail).map Char.toLower = w → w ∈ valueWords →
        scanWord w (c :: tail ++ rest) = some (c :: tail, rest) :=
      fun h hw => (scanWord_eq_some_iff (isPlain_valueWord hw)).mpr ⟨rfl, h, hend⟩
    have hnone : ∀ {w : List Char}, (c :: tail).map Char.toLower ≠ w → w ∈ valueWords →
        scanWord w (c :: tail ++ rest) = none :=
      fun h hw => scanWord_eq_none (isPlain_valueWord hw) (by rwa [leadingWord_append hchars hend])
    refine Or.inr (Or.inr ⟨scanQuoted_eq_none (isQuote_of_isWordChar hc), scanNumber_eq_none hdigit hminus, ?_⟩)
    simp only [valueWords, List.mem_cons, List.not_mem_nil, or_false] at hw
    rcases hw with hw | hw | hw
    · left
      exact Option.or_eq_some_iff.mpr (Or.inl (hscan hw (by simp [valueWords])))
    · left
      refine Option.or_eq_some_iff.mpr (Or.inr ⟨hnone ?_ (by simp [valueWords]), hscan hw (by simp [valueWords])⟩)
      rw [hw]
      decide
    · right
      refine ⟨Option.or_eq_none_iff.mpr ⟨hnone ?_ (by simp [valueWords]), hnone ?_ (by simp [valueWords])⟩,
        hscan hw (by simp [valueWords])⟩ <;>
      · rw [hw]
        decide

theorem value_complete {c : Cursor} {l : List Char} {ws : List Word} (h : Cut c.rest (.literal l :: ws)) :
    ∃ t d, value.match? c.skipLayout = some (t, d) ∧ t.text.toList = l ∧ Cut d.rest ws := by
  obtain ⟨text, rest, hskip, ⟨hl, rfl⟩, he, hrest⟩ := cut_cons_iff.mp h
  have hpoint : rest.head? ≠ some '.' := head?_ne_of_cut hrest rfl fun w _ => mayBegin_point w
  have none_of : ∀ {k : Lexeme}, k.scan (text ++ rest) = none →
      (Pattern.word k).match? c.skipLayout = none := by
    intro k hk
    rw [word?_eq_none_iff, skipLayout_rest, hskip]
    exact hk
  have some_of : ∀ {k : Lexeme}, k.scan (text ++ rest) = some (text, rest) →
      ∃ t d, (Pattern.word k).match? c.skipLayout = some (t, d) ∧ t.text.toList = text ∧ Cut d.rest ws := by
    intro k hk
    obtain ⟨t, d, hm, ht, rfl⟩ := word?_of_scan (c := c.skipLayout) hskip hk
    exact ⟨t, d, hm, ht, hrest⟩
  rw [value]
  simp only [Pattern.match?_named, Pattern.match?_orElse_eq_some_iff]
  rcases scanLiteral_complete hl he hpoint with h | ⟨hq, h⟩ | ⟨hq, hn, h | ⟨hb, h⟩⟩
  · obtain ⟨t, d, hm, ht, hd⟩ := some_of (k := .quoted) h
    exact ⟨t, d, Or.inl hm, ht, hd⟩
  · obtain ⟨t, d, hm, ht, hd⟩ := some_of (k := .number) h
    exact ⟨t, d, Or.inr ⟨none_of hq, Or.inl hm⟩, ht, hd⟩
  · obtain ⟨t, d, hm, ht, hd⟩ := some_of h
    exact ⟨t, d, Or.inr ⟨none_of hq, Or.inr ⟨none_of hn, Or.inl hm⟩⟩, ht, hd⟩
  · obtain ⟨t, d, hm, ht, hd⟩ := some_of h
    exact ⟨t, d, Or.inr ⟨none_of hq, Or.inr ⟨none_of hn, Or.inr ⟨none_of hb, hm⟩⟩⟩, ht, hd⟩

theorem isNumber_zero : IsNumber "0".toList :=
  (.parts (Or.inl rfl) rfl .absent .absent : IsNumber ([] ++ ['0'] ++ [] ++ []))

theorem isLiteral_quotes : IsLiteral "''".toList :=
  (.quoted rfl .nil : IsLiteral ('\'' :: ([] ++ ['\''])))

theorem scan_sample_literals {rest : List Char} (hfree : Free rest) :
    (scanQuoted ("''".toList ++ rest)).isSome = true ∧
    (scanQuoted ("0".toList ++ rest) = none ∧ (scanNumber ("0".toList ++ rest)).isSome = true) ∧
    (scanQuoted ("true".toList ++ rest) = none ∧ scanNumber ("true".toList ++ rest) = none ∧
      (Lexeme.boolean.scan ("true".toList ++ rest)).isSome = true) ∧
    (scanQuoted ("null".toList ++ rest) = none ∧ scanNumber ("null".toList ++ rest) = none ∧
      Lexeme.boolean.scan ("null".toList ++ rest) = none ∧ (Lexeme.null.scan ("null".toList ++ rest)).isSome = true) := by
  have hend := hfree.startsWord
  have hpoint : rest.head? ≠ some '.' := fun h => absurd (hfree '.' h) (by decide)
  have hplain : ∀ {word : List Char}, word ∈ valueWords → IsPlain word := isPlain_valueWord
  have hword : ∀ {word : List Char}, word ∈ valueWords → scanWord word (word ++ rest) = some (word, rest) :=
    fun hw => (scanWord_eq_some_iff (hplain hw)).mpr ⟨rfl, (hplain hw).lower, hend⟩
  have hother : ∀ {word word' : List Char}, word ∈ valueWords → word' ∈ valueWords → word' ≠ word →
      scanWord word (word' ++ rest) = none := by
    intro word word' hw hw' hne
    refine scanWord_eq_none (hplain hw) ?_
    rw [leadingWord_append (hplain hw').chars hend, (hplain hw').lower]
    exact hne
  have htrue : "true".toList ∈ valueWords := by decide
  have hfalse : "false".toList ∈ valueWords := by decide
  have hnull : "null".toList ∈ valueWords := by decide
  refine ⟨?_, ⟨scanQuoted_eq_none rfl, ?_⟩, ⟨scanQuoted_eq_none rfl, scanNumber_eq_none rfl (by decide), ?_⟩,
    scanQuoted_eq_none rfl, scanNumber_eq_none rfl (by decide), ?_, ?_⟩
  · exact Option.isSome_of_eq_some (scanQuoted_eq_some_iff.mpr ⟨'\'', [], rfl, .nil, rfl, rfl⟩)
  · exact Option.isSome_of_eq_some (scanNumber_complete isNumber_zero hend hpoint)
  · exact Option.isSome_of_eq_some (Option.or_eq_some_iff.mpr (Or.inl (hword htrue)))
  · exact Option.or_eq_none_iff.mpr ⟨hother htrue hnull (by decide), hother hfalse hnull (by decide)⟩
  · exact Option.isSome_of_eq_some (hword hnull)

theorem word?_isSome {l : Lexeme} {c : Cursor} {cs : List Char} (hc : c.rest = cs)
    (h : (l.scan cs).isSome = true) : (c.word? l).isSome = true := by
  rw [Cursor.word?, hc, Option.isSome_map]
  exact h

theorem prints_value {text : List Char} (h : IsLiteral text) : Prints text [.literal text] :=
  prints_word ⟨h, rfl⟩

theorem resumes_value {c d : Cursor} {rule : Rule} (h : value.Tries rule d c.skipLayout) :
    Resumes value (fun l => [.literal l]) anyWords rule c d := by
  have hskip : ∀ {c : Cursor} {text rest : List Char}, IsLiteral text → c.rest = ' ' :: (text ++ rest) →
      c.skipLayout.rest = text ++ rest := by
    intro c text rest hl hc
    rw [skipLayout_rest, hc]
    exact skip_spelled (w := .literal text) ⟨hl, rfl⟩
  have hquoted := isLiteral_quotes
  rcases h with ⟨rfl, rfl⟩ | ⟨rfl, rfl⟩ | ⟨-, ⟨rfl, rfl⟩ | ⟨-, ⟨rfl, rfl⟩ | ⟨-, rfl, rfl⟩⟩⟩
  · refine resumes_here ⟨_, _, prints_value hquoted⟩ (fun hcut _ => ?_) fun hm => Or.inl ⟨⟨rfl, rfl⟩, hm⟩
    obtain ⟨t, d, hm, -, -⟩ := value_complete hcut
    exact Option.isSome_of_eq_some hm
  · refine resumes_at (prints_value hquoted) fun hfree _ _ hc => ?_
    have hc := hskip hquoted hc
    exact Or.inr (Or.inl ⟨⟨rfl, rfl⟩, word?_isSome hc (scan_sample_literals hfree).1⟩)
  · have hl : IsLiteral "0".toList := .number isNumber_zero
    refine resumes_at (prints_value hl) fun hfree _ _ hc => ?_
    have hc := hskip hl hc
    obtain ⟨-, ⟨hq, hn⟩, -⟩ := scan_sample_literals hfree
    exact Or.inr (Or.inr ⟨word?_eq_none_iff.mpr (hc ▸ hq), Or.inl ⟨⟨rfl, rfl⟩, word?_isSome hc hn⟩⟩)
  · have hl : IsLiteral "true".toList := .word (by decide)
    refine resumes_at (prints_value hl) fun hfree _ _ hc => ?_
    have hc := hskip hl hc
    obtain ⟨-, -, ⟨hq, hn, hb⟩, -⟩ := scan_sample_literals hfree
    exact Or.inr (Or.inr ⟨word?_eq_none_iff.mpr (hc ▸ hq), Or.inr ⟨word?_eq_none_iff.mpr (hc ▸ hn),
      Or.inl ⟨⟨rfl, rfl⟩, word?_isSome hc hb⟩⟩⟩)
  · have hl : IsLiteral "null".toList := .word (by decide)
    refine resumes_at (prints_value hl) fun hfree _ _ hc => ?_
    have hc := hskip hl hc
    obtain ⟨-, -, -, hq, hn, hb, h⟩ := scan_sample_literals hfree
    exact Or.inr (Or.inr ⟨word?_eq_none_iff.mpr (hc ▸ hq), Or.inr ⟨word?_eq_none_iff.mpr (hc ▸ hn),
      Or.inr ⟨word?_eq_none_iff.mpr (hc ▸ hb), ⟨rfl, rfl⟩, word?_isSome hc h⟩⟩⟩)

theorem recognises_value :
    Recognises value (fun l t => t.text.toList = l) (fun l => [.literal l]) anyWords where
  taken := by
    intro c d t h
    obtain ⟨hrest, -, hoffset, hl, he⟩ := value_taken h
    exact ⟨_, rfl, reads_word hrest hoffset ⟨hl, rfl⟩ he⟩
  complete := fun _ _ _ h _ => value_complete h
  sample := ⟨_, _, prints_value isLiteral_quotes⟩
  resume := fun _ _ _ h => resumes_value h

/-! ### Signs -/

theorem match?_symbol_eq_none {s : String} {c : Cursor} (h : ∀ rest, c.rest ≠ s.toList ++ rest) :
    (Pattern.symbol s).match? c = none := by
  rw [Option.eq_none_iff_forall_ne_some]
  rintro ⟨t, d⟩ hm
  exact h d.rest (match?_symbol_eq_some_iff.mp hm).2.1

theorem sign_taken {c d : Cursor} {t : Token} (h : comparisonSign.match? c = some (t, d)) :
    ∃ o, Operator.ofSymbol? t.text = some o ∧ (Pattern.symbol o.symbol).match? c = some (t, d) := by
  have known : ∀ {s : String} {o : Operator}, Operator.ofSymbol? s = some o →
      (Pattern.symbol s).match? c = some (t, d) →
      ∃ o, Operator.ofSymbol? t.text = some o ∧ (Pattern.symbol o.symbol).match? c = some (t, d) := by
    intro s o hs hm
    obtain ⟨-, rfl⟩ := Operator.ofSymbol?_eq_some_iff.mp hs
    obtain ⟨rfl, -⟩ := match?_symbol_eq_some_iff.mp hm
    exact ⟨o, hs, hm⟩
  rw [comparisonSign, Pattern.match?_named] at h
  simp only [Pattern.match?_orElse_eq_some_iff] at h
  rcases h with hm | ⟨-, hm | ⟨-, hm | ⟨-, hm | ⟨-, hm⟩⟩⟩⟩ <;> exact known rfl hm

/-- The sign `<` is not taken for a part of `<=`, because no word behind it begins with `=`. -/
theorem sign_complete {c : Cursor} {o : Operator} {ws : List Word} (h : Cut c.rest (.sign o :: ws))
    (hws : ∀ w ∈ ws.head?, w.mayBegin '=' = false) :
    ∃ t d, comparisonSign.match? c.skipLayout = some (t, d) ∧ Operator.ofSymbol? t.text = some o ∧ Cut d.rest ws := by
  obtain ⟨text, rest, hskip, ⟨ho, rfl⟩, -, hrest⟩ := cut_cons_iff.mp h
  have heq : rest.head? ≠ some '=' := head?_ne_of_cut hrest rfl hws
  obtain ⟨t, d, rfl, ht, hm⟩ : ∃ t, ∃ d : Cursor, d.rest = rest ∧ Operator.ofSymbol? t.text = some o ∧
      (Pattern.symbol o.symbol).match? c.skipLayout = some (t, d) :=
    ⟨_, { offset := _, rest }, rfl, Operator.ofSymbol?_eq_some_iff.mpr ⟨ho, rfl⟩,
      match?_symbol_eq_some_iff.mpr ⟨rfl, hskip, rfl⟩⟩
  have other : ∀ s : String, (∀ rest', o.symbol.toList ++ d.rest ≠ s.toList ++ rest') →
      (Pattern.symbol s).match? c.skipLayout = none := by
    intro s hne
    refine match?_symbol_eq_none fun rest' => ?_
    rw [skipLayout_rest, hskip]
    exact hne rest'
  refine ⟨t, d, ?_, ht, hrest⟩
  rw [comparisonSign, Pattern.match?_named]
  simp only [Pattern.match?_orElse_eq_some_iff]
  cases o with
  | lessOrEqual => exact Or.inl hm
  | greaterOrEqual =>
    exact Or.inr ⟨other _ fun _ => by simp [Operator.symbol], Or.inl hm⟩
  -- `<=` is tried before `<`, and would need a word that begins with `=` behind the sign.
  | less =>
    refine Or.inr ⟨other _ ?_, Or.inr ⟨other _ fun _ => by simp [Operator.symbol], Or.inl hm⟩⟩
    intro rest' h
    exact heq (congrArg List.head? (List.cons.inj h).2)
  | greater =>
    refine Or.inr ⟨other _ fun _ => by simp [Operator.symbol], Or.inr ⟨other _ ?_,
      Or.inr ⟨other _ fun _ => by simp [Operator.symbol], Or.inl hm⟩⟩⟩
    intro rest' h
    exact heq (congrArg List.head? (List.cons.inj h).2)
  | equal =>
    exact Or.inr ⟨other _ fun _ => by simp [Operator.symbol], Or.inr ⟨other _ fun _ => by simp [Operator.symbol],
      Or.inr ⟨other _ fun _ => by simp [Operator.symbol], Or.inr ⟨other _ fun _ => by simp [Operator.symbol], hm⟩⟩⟩⟩
  | between => cases ho

/-- Every sign that is read is known. -/
theorem recognises_comparisonSign :
    Recognises comparisonSign (fun o t => Operator.ofSymbol? t.text = some o) (fun o => [.sign o])
      (fun ws => ∀ w ∈ ws.head?, w.mayBegin '=' = false) where
  taken := by
    intro c d t h
    obtain ⟨o, ho, hm⟩ := sign_taken h
    obtain ⟨-, hrest, hoffset⟩ := match?_symbol_eq_some_iff.mp hm
    exact ⟨o, ho, reads_word (w := .sign o) hrest hoffset ⟨(Operator.ofSymbol?_eq_some_iff.mp ho).1, rfl⟩ trivial⟩
  complete := fun _ _ _ h hws => sign_complete h hws
  sample := ⟨.equal, _, prints_word (w := .sign .equal) ⟨rfl, rfl⟩⟩
  resume := by
    -- The signs have no names of their own.
    rintro c d rule (⟨rfl, rfl⟩ | h | ⟨-, h | ⟨-, h | ⟨-, h | ⟨-, h⟩⟩⟩⟩)
    · refine resumes_here ⟨.equal, _, prints_word (w := .sign .equal) ⟨rfl, rfl⟩⟩ (fun hcut hws => ?_)
        fun hm => Or.inl ⟨⟨rfl, rfl⟩, hm⟩
      obtain ⟨t, d, hm, -, -⟩ := sign_complete hcut hws
      exact Option.isSome_of_eq_some hm
    all_goals exact h.elim

end EntityQuery.Language
