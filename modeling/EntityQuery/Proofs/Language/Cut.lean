import EntityQuery.Proofs.Language.Match
import EntityQuery.Proofs.Language.Phrase

/-! # Cut texts and the smallest patterns

The first word of a cut text begins with the first character behind the layout, and that character
tells the marks and the kinds of word apart; keywords are told apart by the leading word. So a pattern
for one word takes that word where the cut has it (`_complete`), and fails where the cut has another
word or none (`_fails`). -/

namespace EntityQuery.Language
open Grammar

/-- A text without the layout in front. -/
def skip (cs : List Char) : List Char :=
  cs.dropWhile isLayout

theorem skipLayout_rest (c : Cursor) : c.skipLayout.rest = skip c.rest := rfl

theorem layout_nil : Layout [] :=
  fun _ h => absurd h List.not_mem_nil

/-! ### First characters -/

/-- What a word of each kind can begin with. -/
def Word.mayBegin : Word → Char → Bool
  | .keyword _, c => isWordChar c
  | .star, c => c == '*'
  | .comma, c => c == ','
  | .sign _, c => c == '<' || c == '>' || c == '='
  | .name _, c => isNameStart c
  | .count _, c => c.isDigit
  | .literal _, c => Text.isQuote c || c == '-' || isWordChar c

theorem isNumber_head {cs : List Char} (h : IsNumber cs) :
    ∃ c tail, cs = c :: tail ∧ (c = '-' ∨ c.isDigit = true) := by
  obtain ⟨hsign, hds, -, -⟩ := h
  rename_i sign whole fraction exponent
  obtain ⟨hne, hchars⟩ := isDigits_iff.mp hds
  obtain ⟨d, ds, rfl⟩ := List.exists_cons_of_ne_nil hne
  rcases hsign with rfl | rfl
  · exact ⟨d, _, rfl, Or.inr (hchars d List.mem_cons_self)⟩
  · exact ⟨'-', _, rfl, Or.inl rfl⟩

theorem head_of_map_toLower {word text : List Char} (hw : IsPlain word) (hne : word ≠ [])
    (h : text.map Char.toLower = word) : ∃ c tail, text = c :: tail ∧ isWordChar c = true := by
  cases text with
  | nil => exact absurd h.symm hne
  | cons c tail => exact ⟨c, tail, rfl, chars_of_map_toLower hw h c List.mem_cons_self⟩

theorem mayBegin_of_spelledAs {w : Word} {text : List Char} (h : w.SpelledAs text) :
    ∃ c tail, text = c :: tail ∧ w.mayBegin c = true := by
  cases w with
  | keyword k => exact head_of_map_toLower (isPlain_keyword k) (keyword_ne_nil k) h
  | star => exact ⟨'*', [], h, rfl⟩
  | comma => exact ⟨',', [], h, rfl⟩
  | sign o =>
    obtain ⟨ho, rfl⟩ := h
    cases o with
    | between => cases ho
    | _ => exact ⟨_, _, rfl, rfl⟩
  | name n =>
    obtain ⟨hn, rfl⟩ := h
    exact hn.start
  | count ds =>
    obtain ⟨hds, rfl⟩ := h
    obtain ⟨hne, hchars⟩ := isDigits_iff.mp hds
    obtain ⟨d, tail, rfl⟩ := List.exists_cons_of_ne_nil hne
    exact ⟨d, tail, rfl, hchars d List.mem_cons_self⟩
  | literal l =>
    obtain ⟨hl, rfl⟩ := h
    cases hl with
    | quoted hq hbody => exact ⟨_, _, rfl, by simp [Word.mayBegin, hq]⟩
    | number hn =>
      obtain ⟨c, tail, rfl, hc⟩ := isNumber_head hn
      refine ⟨c, tail, rfl, ?_⟩
      rcases hc with rfl | hc
      · rfl
      · simp [Word.mayBegin, isWordChar_of_isDigit hc]
    | word hw =>
      have hne : text.map Char.toLower ≠ [] := by
        intro hnil
        rw [hnil] at hw
        exact absurd hw (by decide)
      obtain ⟨c, tail, rfl, hc⟩ := head_of_map_toLower (isPlain_valueWord hw) hne rfl
      exact ⟨c, tail, rfl, by simp [Word.mayBegin, hc]⟩

theorem isLayout_of_mayBegin {w : Word} {c : Char} (h : w.mayBegin c = true) : isLayout c = false := by
  rw [Bool.eq_false_iff]
  intro hl
  simp only [isLayout, Bool.or_eq_true, beq_iff_eq] at hl
  rcases hl with ((rfl | rfl) | rfl) | rfl <;> cases w <;> dsimp only [Word.mayBegin] at h <;>
    exact absurd h (by decide)

/-! ### Cut texts -/

theorem skip_append_of_layout {gap cs : List Char} (hg : Layout gap) : skip (gap ++ cs) = skip cs :=
  List.dropWhile_append_of_pos hg

theorem skip_spelled {w : Word} {text rest : List Char} (h : w.SpelledAs text) :
    skip (text ++ rest) = text ++ rest := by
  obtain ⟨c, tail, rfl, hc⟩ := mayBegin_of_spelledAs h
  simp [skip, isLayout_of_mayBegin hc]

theorem layout_takeWhile (cs : List Char) : Layout (cs.takeWhile isLayout) :=
  fun _ hc => List.mem_takeWhile_imp hc

theorem cut_nil_iff {cs : List Char} : Cut cs [] ↔ skip cs = [] := by
  constructor
  · rintro ⟨hg⟩
    rw [← List.append_nil cs, skip_append_of_layout hg]
    rfl
  · intro h
    have hcs : cs = cs.takeWhile isLayout := by
      have := List.takeWhile_append_dropWhile (p := isLayout) (l := cs)
      rw [show cs.dropWhile isLayout = [] from h, List.append_nil] at this
      exact this.symm
    rw [hcs]
    exact .done (layout_takeWhile cs)

theorem cut_cons_iff {cs : List Char} {w : Word} {ws : List Word} :
    Cut cs (w :: ws) ↔ ∃ text rest, skip cs = text ++ rest ∧ w.SpelledAs text ∧ w.EndsBefore rest ∧
      Cut rest ws := by
  constructor
  · intro h
    cases h with
    | @word gap text rest _ _ hg hs he hrest =>
      refine ⟨text, rest, ?_, hs, he, hrest⟩
      rw [List.append_assoc, skip_append_of_layout hg, skip_spelled hs]
  · rintro ⟨text, rest, hskip, hs, he, hrest⟩
    have hcs : cs = cs.takeWhile isLayout ++ text ++ rest := by
      rw [List.append_assoc, ← hskip]
      exact (List.takeWhile_append_dropWhile).symm
    rw [hcs]
    exact .word (layout_takeWhile cs) hs he hrest

theorem skip_skip (cs : List Char) : skip (skip cs) = skip cs :=
  congrArg Cursor.rest (Cursor.skipLayout_skipLayout ⟨0, cs⟩)

theorem cut_skip {cs : List Char} {ws : List Word} : Cut (skip cs) ws ↔ Cut cs ws := by
  cases ws with
  | nil => rw [cut_nil_iff, cut_nil_iff, skip_skip]
  | cons w ws => rw [cut_cons_iff, cut_cons_iff, skip_skip]

theorem head?_skip_ne {cs : List Char} {ws : List Word} {c : Char} (h : Cut cs ws)
    (hc : ∀ w ∈ ws.head?, w.mayBegin c = false) : (skip cs).head? ≠ some c := by
  cases ws with
  | nil =>
    rw [cut_nil_iff.mp h]
    exact Option.some_ne_none _ ∘ Eq.symm
  | cons w ws =>
    obtain ⟨text, rest, hskip, hs, -, -⟩ := cut_cons_iff.mp h
    obtain ⟨d, tail, rfl, hd⟩ := mayBegin_of_spelledAs hs
    rw [hskip]
    intro hh
    obtain rfl := Option.some.inj hh
    rw [hc w rfl] at hd
    cases hd

theorem head?_ne_of_cut {cs : List Char} {ws : List Word} {c : Char} (h : Cut cs ws)
    (hl : isLayout c = false) (hc : ∀ w ∈ ws.head?, w.mayBegin c = false) : cs.head? ≠ some c := by
  intro hh
  obtain ⟨tail, rfl⟩ : ∃ tail, cs = c :: tail := by
    cases cs with
    | nil => cases hh
    | cons d tail =>
      obtain rfl := Option.some.inj hh
      exact ⟨tail, rfl⟩
  refine head?_skip_ne h hc ?_
  simp [skip, hl]

/-! ### Leading words -/

theorem leadingWord_cons {c : Char} {cs : List Char} (hc : isWordChar c = true) :
    leadingWord (c :: cs) = c.toLower :: leadingWord cs := by
  simp [leadingWord, hc]

theorem keyword_head (k : Keyword) : ∃ c tail, k.word.toList = c :: tail ∧ c.isDigit = false := by
  cases k <;> exact ⟨_, _, rfl, by decide⟩

theorem word_injective {j k : Keyword} (h : j.word.toList = k.word.toList) : j = k := by
  have hall : ∀ j ∈ Keyword.all, ∀ k ∈ Keyword.all, j.word.toList = k.word.toList → j = k := by decide
  exact hall j (Keyword.mem_all j) k (Keyword.mem_all k) h

theorem toLower_of_isDigit {c : Char} (h : c.isDigit = true) : c.toLower = c := by
  have hc := Char.isDigit_iff_toNat.mp h
  have h9 : c.toNat ≤ 57 := hc.2
  have htoNat : c.toLower.toNat = c.toNat := by
    rw [toNat_toLower, if_neg (by omega)]
  exact Char.ext (UInt32.toNat_inj.mp htoNat)

theorem leadingWord_ne_of_head {c : Char} {cs : List Char} {k : Keyword}
    (hc : isWordChar c = false ∨ c.isDigit = true) : leadingWord (c :: cs) ≠ k.word.toList := by
  obtain ⟨d, tail, hk, hd⟩ := keyword_head k
  rw [hk]
  rcases hc with hc | hc
  · rw [leadingWord_eq_nil (by simpa [startsWord] using hc)]
    exact List.cons_ne_nil _ _ ∘ Eq.symm
  · rw [leadingWord_cons (isWordChar_of_isDigit hc), toLower_of_isDigit hc]
    intro h
    obtain ⟨rfl, -⟩ := List.cons.inj h
    rw [hc] at hd
    cases hd

theorem leadingWord_literal_ne {l rest : List Char} {k : Keyword} (hl : IsLiteral l)
    (he : (Word.literal l).EndsBefore rest) : leadingWord (l ++ rest) ≠ k.word.toList := by
  cases hl with
  | quoted hq hbody =>
    refine leadingWord_ne_of_head (Or.inl ?_)
    simp only [Text.isQuote, Bool.or_eq_true, beq_iff_eq] at hq
    rcases hq with rfl | rfl <;> decide
  | number hn =>
    obtain ⟨c, tail, rfl, hc⟩ := isNumber_head hn
    refine leadingWord_ne_of_head ?_
    rcases hc with rfl | hc
    · exact Or.inl (by decide)
    · exact Or.inr hc
  | word hw =>
    have hplain := isPlain_valueWord hw
    have hchars := chars_of_map_toLower hplain rfl
    have hend : startsWord rest = false := by
      rcases he with ⟨c, hc, hq⟩ | he
      · cases l with
        | nil => cases hc
        | cons d ds =>
          obtain rfl := Option.some.inj hc
          have hd := hchars d List.mem_cons_self
          simp only [Text.isQuote, Bool.or_eq_true, beq_iff_eq] at hq
          rcases hq with rfl | rfl <;> exact absurd hd (by decide)
      · exact he
    rw [leadingWord_append hchars hend]
    intro h
    exact keyword_notMem_valueWords k (h ▸ hw)

/-- Where the cut has no keyword `k`, the text does not begin with one. -/
theorem leadingWord_ne {cs : List Char} {ws : List Word} {k : Keyword} (h : Cut cs ws)
    (hne : ws.head? ≠ some (.keyword k)) : leadingWord (skip cs) ≠ k.word.toList := by
  cases ws with
  | nil =>
    rw [cut_nil_iff.mp h]
    exact (keyword_ne_nil k).symm
  | cons w ws =>
    obtain ⟨text, rest, hskip, hs, he, -⟩ := cut_cons_iff.mp h
    rw [hskip]
    cases w with
    | keyword j =>
      rw [leadingWord_append (chars_of_map_toLower (isPlain_keyword j) hs) he, hs]
      intro hjk
      exact hne (by rw [word_injective hjk]; rfl)
    | star =>
      obtain rfl := hs
      exact leadingWord_ne_of_head (Or.inl (by decide))
    | comma =>
      obtain rfl := hs
      exact leadingWord_ne_of_head (Or.inl (by decide))
    | sign o =>
      obtain ⟨ho, rfl⟩ := hs
      cases o with
      | between => cases ho
      | _ => exact leadingWord_ne_of_head (Or.inl (by decide))
    | name n =>
      obtain ⟨hn, rfl⟩ := hs
      rw [leadingWord_name he]
      exact hn.free k
    | count ds =>
      obtain ⟨hds, rfl⟩ := hs
      obtain ⟨hne', hchars⟩ := isDigits_iff.mp hds
      obtain ⟨d, tail, rfl⟩ := List.exists_cons_of_ne_nil hne'
      exact leadingWord_ne_of_head (Or.inr (hchars d List.mem_cons_self))
    | literal l =>
      obtain ⟨hl, rfl⟩ := hs
      exact leadingWord_literal_ne hl he

/-! ### Patterns for one word -/

section Words
variable {c d : Cursor} {t : Token} {ws : List Word}

theorem cut_append {text rest : List Char} {w : Word} (hs : w.SpelledAs text) (he : w.EndsBefore rest)
    (hr : Cut rest ws) : Cut (text ++ rest) (w :: ws) :=
  .word layout_nil hs he hr

/-- A scanner that takes the first word of a cut text leaves the rest of the cut. -/
theorem word?_of_scan {l : Lexeme} {text rest : List Char} (hc : c.rest = text ++ rest)
    (h : l.scan (text ++ rest) = some (text, rest)) :
    ∃ t d, (Pattern.word l).match? c = some (t, d) ∧ t.text.toList = text ∧ d.rest = rest := by
  refine ⟨{ offset := c.offset, text := String.ofList text },
    { offset := c.offset + Text.byteLength text, rest }, ?_, String.toList_ofList, rfl⟩
  exact Cursor.word?_eq_some_iff.mpr ⟨text, hc ▸ h, rfl, rfl⟩

theorem keyword_complete {k : Keyword} (h : Cut c.rest (.keyword k :: ws)) :
    ∃ t d, (keyword k).match? c.skipLayout = some (t, d) ∧ Cut d.rest ws := by
  obtain ⟨text, rest, hskip, hs, he, hrest⟩ := cut_cons_iff.mp h
  have hscan := (scanWord_eq_some_iff (isPlain_keyword k)).mpr ⟨rfl, hs, he⟩
  obtain ⟨t, d, hm, -, rfl⟩ := word?_of_scan (l := .keyword k) (c := c.skipLayout) hskip hscan
  exact ⟨t, d, hm, hrest⟩

theorem keyword_fails {k : Keyword} (h : Cut c.rest ws) (hne : ws.head? ≠ some (.keyword k)) :
    (keyword k).match? c.skipLayout = none := by
  have hscan : (Lexeme.keyword k).scan c.skipLayout.rest = none :=
    scanWord_eq_none (isPlain_keyword k) (leadingWord_ne h hne)
  show c.skipLayout.word? (.keyword k) = none
  rw [Cursor.word?, hscan, Option.map_none]

end Words

/-! ### Marks -/

section Marks
variable {c d : Cursor} {s : String} {w : Word} {ws : List Word}

theorem match?_symbol_eq_some_iff {t : Token} : (Pattern.symbol s).match? c = some (t, d) ↔
    t = { offset := c.offset, text := s } ∧ c.rest = s.toList ++ d.rest ∧
      d.offset = c.offset + Text.byteLength s.toList := by
  rw [← Cursor.symbol?_eq_some_iff]
  show (c.symbol? s.toList).map _ = some (t, d) ↔ _
  rw [Option.map_eq_some_iff]
  constructor
  · rintro ⟨e, he, heq⟩
    obtain ⟨rfl, rfl⟩ := Prod.mk.inj heq
    exact ⟨rfl, he⟩
  · rintro ⟨rfl, hd⟩
    exact ⟨d, hd, rfl⟩

theorem symbol_complete (hw : ∀ text, w.SpelledAs text → text = s.toList) (h : Cut c.rest (w :: ws)) :
    ∃ t d, (Pattern.symbol s).match? c.skipLayout = some (t, d) ∧ Cut d.rest ws := by
  obtain ⟨text, rest, hskip, hs, -, hrest⟩ := cut_cons_iff.mp h
  obtain rfl := hw text hs
  exact ⟨_, { offset := _, rest }, match?_symbol_eq_some_iff.mpr ⟨rfl, hskip, rfl⟩, hrest⟩

/-- A mark is not found where no word begins with its first character. -/
theorem symbol_fails {ch : Char} {tail : List Char} (hs : s.toList = ch :: tail) (h : Cut c.rest ws)
    (hw : ∀ w ∈ ws.head?, w.mayBegin ch = false) : (Pattern.symbol s).match? c.skipLayout = none := by
  rw [Option.eq_none_iff_forall_ne_some]
  rintro ⟨t, d⟩ hm
  obtain ⟨-, hrest, -⟩ := match?_symbol_eq_some_iff.mp hm
  refine head?_skip_ne h hw ?_
  rw [← skipLayout_rest, hrest, hs]
  rfl

end Marks

end EntityQuery.Language
