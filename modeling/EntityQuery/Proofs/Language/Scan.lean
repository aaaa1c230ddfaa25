import Mathlib.Data.List.TakeWhile
import EntityQuery.Proofs.Language.Word

/-! # Scanners take words

What each scanner takes from the front of a text is a word of its kind that may end there, and such a
word is taken. Whether a text begins with a keyword is told by its leading word alone
(`scanWord_isSome_iff`), so it never begins with two of them. -/

namespace EntityQuery.Language
open Grammar

/-! ### Characters -/

theorem toNat_toLower (c : Char) :
    c.toLower.toNat = if 65 ≤ c.toNat ∧ c.toNat ≤ 90 then c.toNat + 32 else c.toNat := by
  unfold Char.toLower
  simp only [ge_iff_le, UInt32.le_iff_toNat_le, Char.toNat]
  split <;> rename_i h
  · have h' : 65 ≤ c.val.toNat ∧ c.val.toNat ≤ 90 := h
    rw [if_pos h']
    show (c.val + 32).toNat = _
    rw [UInt32.toNat_add]
    exact Nat.mod_eq_of_lt (Nat.lt_of_le_of_lt (Nat.add_le_add_right h'.2 32) (by decide))
  · have h' : ¬(65 ≤ c.val.toNat ∧ c.val.toNat ≤ 90) := h
    rw [if_neg h']

theorem isAlpha_iff {c : Char} : c.isAlpha = true ↔
    (65 ≤ c.toNat ∧ c.toNat ≤ 90) ∨ (97 ≤ c.toNat ∧ c.toNat ≤ 122) := by
  show (decide (c.val ≥ 'A'.val ∧ c.val ≤ 'Z'.val) || (decide (c.val ≥ 'a'.val) && decide (c.val ≤ 'z'.val))) = true ↔ _
  simp only [Bool.or_eq_true, Bool.and_eq_true, decide_eq_true_eq, ge_iff_le, UInt32.le_iff_toNat_le]
  rfl

theorem isWordChar_iff {c : Char} : isWordChar c = true ↔
    (65 ≤ c.toNat ∧ c.toNat ≤ 90) ∨ (97 ≤ c.toNat ∧ c.toNat ≤ 122) ∨ (48 ≤ c.toNat ∧ c.toNat ≤ 57) ∨
      c.toNat = 95 := by
  have hu : c = '_' ↔ c.toNat = 95 := by
    constructor
    · rintro rfl
      rfl
    · intro h
      exact Char.ext (UInt32.toNat_inj.1 h)
  simp only [isWordChar, Char.isAlphanum, Char.isDigit, Bool.or_eq_true, isAlpha_iff, Bool.and_eq_true,
    decide_eq_true_eq, beq_iff_eq, hu, ge_iff_le, UInt32.le_iff_toNat_le, or_assoc]
  rfl

theorem isWordChar_toLower (c : Char) : isWordChar c.toLower = isWordChar c := by
  rw [Bool.eq_iff_iff, isWordChar_iff, isWordChar_iff, toNat_toLower]
  split <;> omega

theorem isWordChar_of_isDigit {c : Char} (h : c.isDigit = true) : isWordChar c = true := by
  simp [isWordChar, Char.isAlphanum, h]

theorem isNameChar_of_isWordChar {c : Char} (h : isWordChar c = true) : isNameChar c = true := by
  simp [isNameChar, h]

theorem isWordChar_of_isNameStart {c : Char} (h : isNameStart c = true) : isWordChar c = true := by
  rcases Bool.or_eq_true_iff.mp h with h | h
  · simp [isWordChar, Char.isAlphanum, h]
  · simp [isWordChar, h]

theorem isQuote_of_isWordChar {c : Char} (h : isWordChar c = true) : Text.isQuote c = false := by
  rw [Bool.eq_false_iff]
  intro hq
  simp only [Text.isQuote, Bool.or_eq_true, beq_iff_eq] at hq
  rcases hq with rfl | rfl <;> exact absurd h (by decide)

/-! ### Runs of characters -/

section Runs
variable {p : Char → Bool} {cs rest : List Char}

theorem takeWhile_append_of_head (h : ∀ c ∈ rest.head?, p c = false) :
    (cs ++ rest).takeWhile p = cs.takeWhile p := by
  induction cs with
  | nil => cases rest with
    | nil => rfl
    | cons c rest => simp [h c rfl]
  | cons c cs ih =>
    cases hc : p c <;> simp [hc, ih]

theorem takeWhile_exact (hcs : ∀ c ∈ cs, p c = true) (h : ∀ c ∈ rest.head?, p c = false) :
    (cs ++ rest).takeWhile p = cs := by
  rw [takeWhile_append_of_head h, ← List.append_nil cs, List.takeWhile_append_of_pos hcs]
  rfl

theorem dropWhile_exact (hcs : ∀ c ∈ cs, p c = true) (h : ∀ c ∈ rest.head?, p c = false) :
    (cs ++ rest).dropWhile p = rest := by
  rw [List.dropWhile_append_of_pos hcs]
  cases rest with
  | nil => rfl
  | cons c rest => simp [h c rfl]

theorem head?_dropWhile_eq_false (c : Char) (h : c ∈ (cs.dropWhile p).head?) : p c = false := by
  have := List.head?_dropWhile_not p cs
  rw [Option.mem_def.mp h] at this
  simpa using this

end Runs

theorem startsWord_eq_false_iff {rest : List Char} :
    startsWord rest = false ↔ ∀ c ∈ rest.head?, isWordChar c = false := by
  cases rest <;> simp [startsWord]

/-! ### Keywords and value words -/

/-- Letters, digits and underscores in lower case. -/
structure IsPlain (word : List Char) : Prop where
  lower : word.map Char.toLower = word
  chars : ∀ c ∈ word, isWordChar c = true

theorem isPlain_keyword (k : Keyword) : IsPlain k.word.toList := by
  cases k <;> exact ⟨by decide, List.all_eq_true.mp rfl⟩

theorem keyword_ne_nil (k : Keyword) : k.word.toList ≠ [] := by
  cases k <;> decide

theorem isPlain_valueWord {word : List Char} (h : word ∈ valueWords) : IsPlain word := by
  simp only [valueWords, List.mem_cons, List.not_mem_nil, or_false] at h
  rcases h with rfl | rfl | rfl <;> exact ⟨by decide, List.all_eq_true.mp rfl⟩

theorem keyword_notMem_valueWords (k : Keyword) : k.word.toList ∉ valueWords := by
  cases k <;> decide

theorem chars_of_map_toLower {word front : List Char} (hw : IsPlain word)
    (h : front.map Char.toLower = word) : ∀ c ∈ front, isWordChar c = true := by
  intro c hc
  rw [← isWordChar_toLower]
  exact hw.chars _ (h ▸ List.mem_map_of_mem hc)

theorem leadingWord_append {front rest : List Char} (hf : ∀ c ∈ front, isWordChar c = true)
    (hr : startsWord rest = false) : leadingWord (front ++ rest) = front.map Char.toLower := by
  rw [leadingWord, takeWhile_exact hf (startsWord_eq_false_iff.mp hr)]

theorem leadingWord_eq_nil {rest : List Char} (hr : startsWord rest = false) : leadingWord rest = [] :=
  leadingWord_append (by simp : ∀ c ∈ [], isWordChar c = true) hr

theorem scanWord_eq_some_iff {word cs front rest : List Char} (hw : IsPlain word) :
    scanWord word cs = some (front, rest) ↔
      cs = front ++ rest ∧ front.map Char.toLower = word ∧ startsWord rest = false := by
  simp only [scanWord, Text.equalIgnoringCase, hw.lower, Option.ite_none_right_eq_some,
    Bool.and_eq_true, beq_iff_eq, Bool.not_eq_true', Option.some.injEq, Prod.mk.injEq]
  constructor
  · rintro ⟨⟨hfront, hrest⟩, rfl, rfl⟩
    exact ⟨(List.take_append_drop _ _).symm, hfront, hrest⟩
  · rintro ⟨rfl, hfront, hrest⟩
    have hlen : front.length = word.length := by rw [← hfront, List.length_map]
    rw [← hlen, List.take_left, List.drop_left]
    exact ⟨⟨hfront, hrest⟩, rfl, rfl⟩

theorem scanWord_isSome_iff {word cs : List Char} (hw : IsPlain word) :
    (scanWord word cs).isSome = true ↔ leadingWord cs = word := by
  constructor
  · intro h
    obtain ⟨⟨front, rest⟩, h⟩ := Option.isSome_iff_exists.mp h
    obtain ⟨rfl, hfront, hrest⟩ := (scanWord_eq_some_iff hw).mp h
    rw [leadingWord_append (chars_of_map_toLower hw hfront) hrest, hfront]
  · intro h
    refine Option.isSome_iff_exists.mpr ⟨(cs.takeWhile isWordChar, cs.dropWhile isWordChar), ?_⟩
    refine (scanWord_eq_some_iff hw).mpr ⟨(List.takeWhile_append_dropWhile).symm, h, ?_⟩
    exact startsWord_eq_false_iff.mpr head?_dropWhile_eq_false

theorem scanWord_eq_none {word cs : List Char} (hw : IsPlain word) (h : leadingWord cs ≠ word) :
    scanWord word cs = none := by
  rw [← Option.not_isSome_iff_eq_none, scanWord_isSome_iff hw]
  exact h

/-! ### Names and counts -/

theorem startsKeyword_eq_false_iff {cs : List Char} :
    startsKeyword cs = false ↔ ∀ k : Keyword, leadingWord cs ≠ k.word.toList := by
  rw [startsKeyword, List.any_eq_false]
  constructor
  · intro h k hk
    exact h k (Keyword.mem_all k) ((scanWord_isSome_iff (isPlain_keyword k)).mpr hk)
  · intro h k _ hk
    exact h k ((scanWord_isSome_iff (isPlain_keyword k)).mp hk)

theorem leadingWord_append_of_head {cs rest : List Char} (h : ∀ c ∈ rest.head?, isWordChar c = false) :
    leadingWord (cs ++ rest) = leadingWord cs := by
  rw [leadingWord, takeWhile_append_of_head h, leadingWord]

theorem startsWord_of_nameEnd {rest : List Char} (h : ∀ c ∈ rest.head?, isNameChar c = false) :
    startsWord rest = false := by
  refine startsWord_eq_false_iff.mpr fun c hc => ?_
  rw [Bool.eq_false_iff]
  intro hw
  exact absurd (isNameChar_of_isWordChar hw) (by simp [h c hc])

theorem leadingWord_name {n rest : List Char} (h : ∀ c ∈ rest.head?, isNameChar c = false) :
    leadingWord (n ++ rest) = leadingWord n :=
  leadingWord_append_of_head (startsWord_eq_false_iff.mp (startsWord_of_nameEnd h))

theorem scanName_eq_some_iff {cs n rest : List Char} :
    scanName cs = some (n, rest) ↔
      cs = n ++ rest ∧ IsName n ∧ ∀ c ∈ rest.head?, isNameChar c = false := by
  constructor
  · intro h
    rw [scanName.eq_def] at h
    split at h
    · cases h
    · rename_i hfree
      rw [Bool.not_eq_true, startsKeyword_eq_false_iff] at hfree
      split at h
      · cases h
      · rename_i c tail
        split at h
        · rename_i hc
          obtain ⟨rfl, rfl⟩ := Prod.mk.inj (Option.some.inj h)
          have hcs : c :: tail = (c :: tail.takeWhile isNameChar) ++ tail.dropWhile isNameChar := by simp
          have hend : ∀ d ∈ (tail.dropWhile isNameChar).head?, isNameChar d = false := head?_dropWhile_eq_false
          refine ⟨hcs, ⟨⟨c, _, rfl, hc⟩, ?_, ?_⟩, hend⟩
          · intro d hd
            rcases List.mem_cons.mp hd with rfl | hd
            · exact isNameChar_of_isWordChar (isWordChar_of_isNameStart hc)
            · exact List.mem_takeWhile_imp hd
          · intro k hk
            rw [hcs, leadingWord_name hend] at hfree
            exact hfree k hk
        · cases h
  · rintro ⟨rfl, hn, hend⟩
    obtain ⟨c, tail, rfl, hc⟩ := hn.start
    have hchars : ∀ d ∈ tail, isNameChar d = true := fun d hd => hn.chars d (List.mem_cons_of_mem _ hd)
    have hfree : startsKeyword (c :: tail ++ rest) = false := by
      rw [startsKeyword_eq_false_iff, leadingWord_name hend]
      exact hn.free
    rw [scanName.eq_def, if_neg (Bool.eq_false_iff.mp hfree)]
    simp only [List.cons_append, hc, ↓reduceIte]
    rw [takeWhile_exact hchars hend, dropWhile_exact hchars hend]

theorem isDigits_iff {ds : List Char} :
    Decimal.isDigits ds = true ↔ ds ≠ [] ∧ ∀ c ∈ ds, c.isDigit = true := by
  simp [Decimal.isDigits]

theorem scanDigits_eq_some_iff {cs ds rest : List Char} :
    scanDigits cs = some (ds, rest) ↔
      cs = ds ++ rest ∧ Decimal.isDigits ds = true ∧ ∀ c ∈ rest.head?, c.isDigit = false := by
  constructor
  · intro h
    rw [scanDigits] at h
    split at h
    · cases h
    · rename_i hne
      obtain ⟨rfl, rfl⟩ := Prod.mk.inj (Option.some.inj h)
      refine ⟨(List.takeWhile_append_dropWhile).symm, isDigits_iff.mpr ⟨hne, fun c hc => List.mem_takeWhile_imp hc⟩, ?_⟩
      exact head?_dropWhile_eq_false
  · rintro ⟨rfl, hds, hend⟩
    obtain ⟨hne, hchars⟩ := isDigits_iff.mp hds
    rw [scanDigits, takeWhile_exact hchars hend, dropWhile_exact hchars hend]
    split
    · exact absurd rfl hne
    · rfl

theorem digitEnd_of_startsWord {rest : List Char} (h : startsWord rest = false) :
    ∀ c ∈ rest.head?, c.isDigit = false := by
  intro c hc
  rw [Bool.eq_false_iff]
  intro hd
  exact absurd (isWordChar_of_isDigit hd) (by simp [startsWord_eq_false_iff.mp h c hc])

theorem scanCount_eq_some_iff {cs ds rest : List Char} :
    scanCount cs = some (ds, rest) ↔
      cs = ds ++ rest ∧ Decimal.isDigits ds = true ∧ startsWord rest = false := by
  constructor
  · intro h
    rw [scanCount] at h
    split at h
    · rename_i ds' rest' hscan
      obtain ⟨rfl, hds, -⟩ := scanDigits_eq_some_iff.mp hscan
      split at h
      · cases h
      · rename_i hend
        obtain ⟨rfl, rfl⟩ := Prod.mk.inj (Option.some.inj h)
        exact ⟨rfl, hds, by simpa using hend⟩
    · cases h
  · rintro ⟨rfl, hds, hend⟩
    have hscan : scanDigits (ds ++ rest) = some (ds, rest) :=
      scanDigits_eq_some_iff.mpr ⟨rfl, hds, digitEnd_of_startsWord hend⟩
    rw [scanCount, hscan]
    simp [hend]

/-! ### Quoted texts -/

theorem isQuote_ne_backslash {quote : Char} (h : Text.isQuote quote = true) : quote ≠ '\\' := by
  rintro rfl
  exact absurd h (by decide)

theorem scanQuotedRest_sound {quote : Char} {cs taken rest : List Char}
    (h : scanQuotedRest quote cs = some (taken, rest)) :
    ∃ body, IsQuotedBody quote body ∧ taken = body ++ [quote] ∧ cs = taken ++ rest := by
  induction cs using scanQuotedRest.induct quote generalizing taken with
  | case1 => simp [scanQuotedRest] at h
  | case2 c cs ih =>
    rw [scanQuotedRest] at h
    obtain ⟨⟨t, r⟩, ht, heq⟩ := Option.map_eq_some_iff.mp h
    obtain ⟨rfl, rfl⟩ := Prod.mk.inj heq
    obtain ⟨body, hbody, rfl, rfl⟩ := ih ht
    exact ⟨'\\' :: c :: body, .escaped hbody, rfl, rfl⟩
  | case3 cs hno =>
    rw [scanQuotedRest, if_pos rfl] at h
    · obtain ⟨rfl, rfl⟩ := Prod.mk.inj (Option.some.inj h)
      exact ⟨[], .nil, rfl, rfl⟩
    · exact hno
  | case4 c cs hno hne ih =>
    rw [scanQuotedRest, if_neg hne] at h
    · obtain ⟨⟨t, r⟩, ht, heq⟩ := Option.map_eq_some_iff.mp h
      obtain ⟨rfl, rfl⟩ := Prod.mk.inj heq
      obtain ⟨body, hbody, rfl, rfl⟩ := ih ht
      have hback : c ≠ '\\' := by
        rintro rfl
        cases hcs : body ++ [quote] ++ r with
        | nil => simp at hcs
        | cons d ds => exact hno d ds rfl hcs
      exact ⟨c :: body, .plain hne hback hbody, rfl, rfl⟩
    · exact hno

theorem scanQuotedRest_complete {quote : Char} {body rest : List Char} (hq : quote ≠ '\\')
    (h : IsQuotedBody quote body) :
    scanQuotedRest quote (body ++ quote :: rest) = some (body ++ [quote], rest) := by
  induction h with
  | nil =>
    rw [List.nil_append, scanQuotedRest.eq_3 _ _ _ (fun _ _ h _ => hq h), if_pos rfl]
    rfl
  | plain hne hback _ ih =>
    rw [List.cons_append, scanQuotedRest.eq_3 _ _ _ (fun _ _ h _ => hback h), if_neg hne, ih]
    rfl
  | escaped _ ih =>
    rw [List.cons_append, List.cons_append, scanQuotedRest, ih]
    rfl

theorem scanQuoted_eq_some_iff {cs taken rest : List Char} :
    scanQuoted cs = some (taken, rest) ↔ ∃ quote body, Text.isQuote quote = true ∧
      IsQuotedBody quote body ∧ taken = quote :: (body ++ [quote]) ∧ cs = taken ++ rest := by
  constructor
  · intro h
    rw [scanQuoted.eq_def] at h
    split at h
    · obtain ⟨⟨t, r⟩, ht, heq⟩ := Option.map_eq_some_iff.mp h
      obtain ⟨rfl, rfl⟩ := Prod.mk.inj heq
      obtain ⟨body, hbody, rfl, rfl⟩ := scanQuotedRest_sound ht
      exact ⟨'\'', body, rfl, hbody, rfl, rfl⟩
    · obtain ⟨⟨t, r⟩, ht, heq⟩ := Option.map_eq_some_iff.mp h
      obtain ⟨rfl, rfl⟩ := Prod.mk.inj heq
      obtain ⟨body, hbody, rfl, rfl⟩ := scanQuotedRest_sound ht
      exact ⟨'"', body, rfl, hbody, rfl, rfl⟩
    · cases h
  · rintro ⟨quote, body, hq, hbody, rfl, rfl⟩
    have hrest : scanQuotedRest quote (body ++ quote :: rest) = some (body ++ [quote], rest) :=
      scanQuotedRest_complete (isQuote_ne_backslash hq) hbody
    rw [List.cons_append, List.append_assoc, List.singleton_append]
    simp only [Text.isQuote, Bool.or_eq_true, beq_iff_eq] at hq
    rcases hq with rfl | rfl <;> rw [scanQuoted, hrest] <;> rfl

theorem scanQuoted_eq_none {c : Char} {cs : List Char} (h : Text.isQuote c = false) :
    scanQuoted (c :: cs) = none := by
  rw [Option.eq_none_iff_forall_ne_some]
  rintro ⟨taken, rest⟩ hs
  obtain ⟨quote, body, hq, -, rfl, heq⟩ := scanQuoted_eq_some_iff.mp hs
  obtain ⟨rfl, -⟩ := List.cons.inj heq
  rw [h] at hq
  cases hq

/-! ### Numbers -/

theorem takeSign_sound (cs : List Char) :
    cs = (takeSign cs).1 ++ (takeSign cs).2 ∧ ((takeSign cs).1 = [] ∨ (takeSign cs).1 = ['-']) := by
  unfold takeSign
  split <;> simp

theorem takeSign_complete {sign rest : List Char} (hs : sign = [] ∨ sign = ['-'])
    (h : rest.head? ≠ some '-') : takeSign (sign ++ rest) = (sign, rest) := by
  rcases hs with rfl | rfl
  · rw [List.nil_append]
    unfold takeSign
    split
    · exact absurd List.head?_cons h
    · rfl
  · rfl

theorem takeFraction_sound (cs : List Char) :
    cs = (takeFraction cs).1 ++ (takeFraction cs).2 ∧ IsFraction (takeFraction cs).1 := by
  unfold takeFraction
  split
  · split
    · rename_i hscan
      obtain ⟨rfl, hds, -⟩ := scanDigits_eq_some_iff.mp hscan
      exact ⟨rfl, .digits hds⟩
    · exact ⟨rfl, .absent⟩
  · exact ⟨rfl, .absent⟩

theorem takeFraction_complete {fraction rest : List Char} (hf : IsFraction fraction)
    (hpoint : rest.head? ≠ some '.') (hend : ∀ c ∈ rest.head?, c.isDigit = false) :
    takeFraction (fraction ++ rest) = (fraction, rest) := by
  cases hf with
  | absent =>
    rw [List.nil_append]
    unfold takeFraction
    split
    · exact absurd List.head?_cons hpoint
    · rfl
  | digits hds =>
    have hscan := scanDigits_eq_some_iff.mpr ⟨rfl, hds, hend⟩
    rw [List.cons_append, takeFraction, hscan]

theorem takeExponentSign_sound (cs : List Char) :
    cs = (takeExponentSign cs).1 ++ (takeExponentSign cs).2 ∧
      ((takeExponentSign cs).1 = [] ∨ (takeExponentSign cs).1 = ['+'] ∨ (takeExponentSign cs).1 = ['-']) := by
  unfold takeExponentSign
  split <;> simp

theorem takeExponentSign_complete {sign rest : List Char} (hs : sign = [] ∨ sign = ['+'] ∨ sign = ['-'])
    (h : ∃ c ∈ rest.head?, c.isDigit = true) : takeExponentSign (sign ++ rest) = (sign, rest) := by
  obtain ⟨c, hc, hd⟩ := h
  rcases hs with rfl | rfl | rfl
  · rw [List.nil_append]
    unfold takeExponentSign
    split
    · obtain rfl := Option.some.inj hc
      exact absurd hd (by decide)
    · obtain rfl := Option.some.inj hc
      exact absurd hd (by decide)
    · rfl
  · rfl
  · rfl

theorem takeExponent_sound (cs : List Char) :
    cs = (takeExponent cs).1 ++ (takeExponent cs).2 ∧ IsExponent (takeExponent cs).1 := by
  unfold takeExponent
  split
  · exact ⟨rfl, .absent⟩
  · rename_i mark cs
    split
    · rename_i hmark
      obtain ⟨hcs, hsign⟩ := takeExponentSign_sound cs
      dsimp only
      split
      · rename_i hscan
        obtain ⟨hafter, hds, -⟩ := scanDigits_eq_some_iff.mp hscan
        refine ⟨?_, .digits hmark hsign hds⟩
        show mark :: cs = mark :: ((takeExponentSign cs).1 ++ _) ++ _
        rw [List.cons_append, List.append_assoc, ← hafter, ← hcs]
      · exact ⟨rfl, .absent⟩
    · exact ⟨rfl, .absent⟩

theorem takeExponent_complete {exponent rest : List Char} (he : IsExponent exponent)
    (hend : startsWord rest = false) : takeExponent (exponent ++ rest) = (exponent, rest) := by
  cases he with
  | absent =>
    cases rest with
    | nil => rfl
    | cons c rest =>
      have hc : ¬(c = 'e' ∨ c = 'E') := by
        rintro (rfl | rfl) <;> exact absurd hend (by simp [startsWord]; decide)
      simp only [List.nil_append, takeExponent, if_neg hc]
  | @digits mark sign ds hmark hsign hds =>
    obtain ⟨d, ds', rfl⟩ := List.exists_cons_of_ne_nil (isDigits_iff.mp hds).1
    have hscan := scanDigits_eq_some_iff.mpr ⟨rfl, hds, digitEnd_of_startsWord hend⟩
    have hdigit : ∃ e ∈ (d :: ds' ++ rest).head?, e.isDigit = true :=
      ⟨d, rfl, (isDigits_iff.mp hds).2 d List.mem_cons_self⟩
    have hsign' := takeExponentSign_complete hsign hdigit
    rw [List.cons_append, List.append_assoc, takeExponent, if_pos hmark, hsign']
    dsimp only
    rw [hscan]
    rfl

theorem scanNumber_sound {cs taken rest : List Char} (h : scanNumber cs = some (taken, rest)) :
    cs = taken ++ rest ∧ IsNumber taken ∧ startsWord rest = false := by
  rw [scanNumber] at h
  obtain ⟨hcs, hsign⟩ := takeSign_sound cs
  dsimp only at h
  split at h
  · cases h
  · rename_i whole afterWhole hscan
    obtain ⟨hwhole, hds, -⟩ := scanDigits_eq_some_iff.mp hscan
    obtain ⟨hfraction, hf⟩ := takeFraction_sound afterWhole
    obtain ⟨hexponent, he⟩ := takeExponent_sound (takeFraction afterWhole).2
    simp only [Option.ite_none_left_eq_some, Option.some.injEq, Prod.mk.injEq] at h
    obtain ⟨hend, rfl, rfl⟩ := h
    refine ⟨?_, .parts hsign hds hf he, by simpa using hend⟩
    rw [List.append_assoc, ← hexponent, List.append_assoc, ← hfraction, List.append_assoc, ← hwhole, ← hcs]

theorem head?_ne_of_isDigits {ds rest : List Char} {c : Char} (hds : Decimal.isDigits ds = true)
    (hc : c.isDigit = false) : (ds ++ rest).head? ≠ some c := by
  obtain ⟨hne, hchars⟩ := isDigits_iff.mp hds
  obtain ⟨d, ds, rfl⟩ := List.exists_cons_of_ne_nil hne
  intro h
  obtain rfl := Option.some.inj h
  rw [hchars d List.mem_cons_self] at hc
  cases hc

/-- Behind the digits of a fraction stands the mark of the exponent or what follows the number. -/
theorem head?_exponent {exponent rest : List Char} (he : IsExponent exponent) {c : Char}
    (h : c ∈ (exponent ++ rest).head?) : (c = 'e' ∨ c = 'E') ∨ c ∈ rest.head? := by
  cases he with
  | absent => exact Or.inr h
  | digits hmark =>
    cases h
    exact Or.inl hmark

theorem scanNumber_complete {cs rest : List Char} (h : IsNumber cs) (hend : startsWord rest = false)
    (hpoint : rest.head? ≠ some '.') : scanNumber (cs ++ rest) = some (cs, rest) := by
  obtain ⟨hsign, hds, hf, he⟩ := h
  rename_i sign whole fraction exponent
  have hexponent := takeExponent_complete he hend
  have hmark : ∀ c ∈ (exponent ++ rest).head?, c.isDigit = false := by
    intro c hc
    rcases head?_exponent he hc with (rfl | rfl) | hc
    · decide
    · decide
    · exact digitEnd_of_startsWord hend c hc
  have hpoint' : (exponent ++ rest).head? ≠ some '.' := by
    intro hc
    rcases head?_exponent he hc with (h | h) | hc
    · cases h
    · cases h
    · exact hpoint hc
  have hfraction := takeFraction_complete hf hpoint' hmark
  have hwhole : ∀ c ∈ (fraction ++ (exponent ++ rest)).head?, c.isDigit = false := by
    cases hf with
    | absent => exact hmark
    | digits _ =>
      intro c hc
      cases hc
      decide
  have hscan := scanDigits_eq_some_iff.mpr ⟨rfl, hds, hwhole⟩
  have hhead : (whole ++ (fraction ++ (exponent ++ rest))).head? ≠ some '-' := head?_ne_of_isDigits hds (by decide)
  have hsign' := takeSign_complete hsign hhead
  rw [scanNumber, List.append_assoc, List.append_assoc, List.append_assoc, hsign']
  simp only [hscan, hfraction, hexponent, hend, Bool.false_eq_true, ↓reduceIte]

theorem scanNumber_eq_none {c : Char} {cs : List Char} (hc : c.isDigit = false) (hm : c ≠ '-') :
    scanNumber (c :: cs) = none := by
  have hhead : (c :: cs).head? ≠ some '-' := by simpa using hm
  have hsign := takeSign_complete (Or.inl rfl : [] = [] ∨ _) hhead
  rw [List.nil_append] at hsign
  have hscan : scanDigits (c :: cs) = none := by
    rw [scanDigits.eq_def, List.takeWhile_cons_of_neg (by simp [hc])]
  rw [scanNumber, hsign]
  simp only [hscan]

/-! ### Every scanner -/

/-- A scanner takes at least one character and leaves what is behind it. -/
theorem scan_append {l : Lexeme} {cs text rest : List Char} (h : l.scan cs = some (text, rest)) :
    cs = text ++ rest ∧ text ≠ [] := by
  have word : ∀ {w : List Char}, IsPlain w → w ≠ [] → scanWord w cs = some (text, rest) →
      cs = text ++ rest ∧ text ≠ [] := by
    intro w hw hne h
    obtain ⟨hcs, htext, -⟩ := (scanWord_eq_some_iff hw).mp h
    refine ⟨hcs, ?_⟩
    rintro rfl
    exact hne htext.symm
  cases l with
  | keyword k => exact word (isPlain_keyword k) (keyword_ne_nil k) h
  | name =>
    obtain ⟨hcs, hn, -⟩ := scanName_eq_some_iff.mp h
    obtain ⟨c, tail, rfl, -⟩ := hn.start
    exact ⟨hcs, List.cons_ne_nil _ _⟩
  | count =>
    obtain ⟨hcs, hds, -⟩ := scanCount_eq_some_iff.mp h
    exact ⟨hcs, (isDigits_iff.mp hds).1⟩
  | quoted =>
    obtain ⟨quote, body, -, -, rfl, hcs⟩ := scanQuoted_eq_some_iff.mp h
    exact ⟨hcs, List.cons_ne_nil _ _⟩
  | number =>
    obtain ⟨hcs, hn, -⟩ := scanNumber_sound h
    refine ⟨hcs, ?_⟩
    obtain ⟨-, hds, -, -⟩ := hn
    simp [(isDigits_iff.mp hds).1]
  | boolean =>
    rcases Option.or_eq_some_iff.mp h with h | ⟨-, h⟩
    · exact word (isPlain_valueWord (by simp [valueWords])) (by decide) h
    · exact word (isPlain_valueWord (by simp [valueWords])) (by decide) h
  | null => exact word (isPlain_valueWord (by simp [valueWords])) (by decide) h

end EntityQuery.Language
