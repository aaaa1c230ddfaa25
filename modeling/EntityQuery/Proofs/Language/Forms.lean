import EntityQuery.Proofs.Language.Meaning
import EntityQuery.Proofs.Language.Whole

/-! # One text under three entry points

A text is held to one of the two forms or to neither. The first keyword decides: where it is the one of the
form, the alternative that is left behind, or tried before in vain, changes nothing, neither the query nor the
place of an error and what was expected there; where it is another word, the form refuses the text at once. -/

namespace EntityQuery.Language
open Grammar

/-! ### The first keyword -/

/-- Behind the layout in front, the text begins with the keyword. -/
def BeginsWith (k : Keyword) (cs : List Char) : Prop :=
  ∃ gap text rest, cs = gap ++ text ++ rest ∧ Layout gap ∧ (Word.keyword k).SpelledAs text ∧
    (Word.keyword k).EndsBefore rest

theorem beginsWith_iff {k : Keyword} {cs : List Char} :
    BeginsWith k cs ↔ leadingWord (skip cs) = k.word.toList := by
  constructor
  · rintro ⟨gap, text, rest, rfl, hg, hs, he⟩
    rw [List.append_assoc, skip_append_of_layout hg, skip_spelled hs,
      leadingWord_append (chars_of_map_toLower (isPlain_keyword k) hs) he]
    exact hs
  · intro h
    obtain ⟨⟨text, rest⟩, hscan⟩ := Option.isSome_iff_exists.mp ((scanWord_isSome_iff (isPlain_keyword k)).mpr h)
    obtain ⟨hskip, hs, he⟩ := (scanWord_eq_some_iff (isPlain_keyword k)).mp hscan
    refine ⟨cs.takeWhile isLayout, text, rest, ?_, layout_takeWhile cs, hs, he⟩
    rw [List.append_assoc, ← hskip]
    exact (List.takeWhile_append_dropWhile).symm

instance (k : Keyword) (cs : List Char) : Decidable (BeginsWith k cs) :=
  decidable_of_iff _ beginsWith_iff.symm

theorem keyword_match?_isSome_iff {k : Keyword} {c : Cursor} :
    ((keyword k).match? c.skipLayout).isSome = true ↔ BeginsWith k c.rest := by
  rw [beginsWith_iff, ← scanWord_isSome_iff (isPlain_keyword k)]
  show ((scanWord k.word.toList (skip c.rest)).map _).isSome = true ↔ _
  rw [Option.isSome_map]

theorem keyword_match?_eq_none {k : Keyword} {c : Cursor} (h : ¬BeginsWith k c.rest) :
    (keyword k).match? c.skipLayout = none := by
  rw [← Option.not_isSome_iff_eq_none, keyword_match?_isSome_iff]
  exact h

theorem BeginsWith.eq {j k : Keyword} {cs : List Char} (h : BeginsWith j cs) (h' : BeginsWith k cs) : j = k :=
  word_injective ((beginsWith_iff.mp h).symm.trans (beginsWith_iff.mp h'))

end EntityQuery.Language

namespace EntityQuery.Grammar
open EntityQuery.Language

/-! ### The two forms -/

section Forms
variable {text : String}

theorem keyword_start {k : Keyword} (h : BeginsWith k text.toList) :
    ∃ token m, (keyword k).match? (Cursor.start text).skipLayout = some (token, m) := by
  obtain ⟨⟨token, m⟩, hm⟩ := Option.isSome_iff_exists.mp
    (keyword_match?_isSome_iff.mpr (show BeginsWith k (Cursor.start text).rest from h))
  exact ⟨token, m, hm⟩

theorem keyword_start_other {j k : Keyword} (h : BeginsWith j text.toList) (hne : j ≠ k) :
    (keyword k).match? (Cursor.start text).skipLayout = none :=
  keyword_match?_eq_none fun h' => hne (h.eq h')

theorem select_noted : (fields.seq ((keyword .fromWord).andThen (entity.seq (whereClause.optional.seq
    (orderClause.orElse (skipClause.orElse limitClause)).many)))).Noted :=
  ⟨trivial, trivial, trivial, trivial, trivial⟩

theorem delete_noted : ((keyword .fromWord).andThen (entity.seq whereClause.optional)).Noted :=
  ⟨trivial, trivial, trivial⟩

/-- A text that begins with the keyword of a form is read alike by the form and by the choice of both. -/
theorem read_anyText_select (h : BeginsWith .select text.toList) :
    anyText.read text = (selectText.read text).map .select := by
  obtain ⟨token, m, hk⟩ := keyword_start h
  have hdelete : (keyword .delete).match? (Cursor.start text).skipLayout = none :=
    keyword_start_other h Keyword.noConfusion
  refine Pattern.read_choice_first rfl (Pattern.match?_led_of_none hdelete) (fun t ht => ?_) fun hm =>
    (Pattern.account_closed_led hk select_noted (.refl _ Attempts.none) hm).2
  -- The other form fails where the text begins, and so before the place that counts.
  rw [show delete.account _ t = _ from Pattern.account_led_of_none hdelete, Attempts.fail_of_lt ht,
    Attempts.fail_of_lt ht]

theorem read_anyText_delete (h : BeginsWith .delete text.toList) :
    anyText.read text = (deleteText.read text).map .delete := by
  obtain ⟨token, m, hk⟩ := keyword_start h
  have hselect : (keyword .select).match? (Cursor.start text).skipLayout = none :=
    keyword_start_other h Keyword.noConfusion
  refine Pattern.read_choice_second rfl (Pattern.match?_led_of_none hselect) fun hm => ?_
  -- The first form has failed where the text begins, which the keyword of the second one leaves behind.
  have hagree : (select.account (Cursor.start text).skipLayout Attempts.none).Agree
      ((Cursor.start text).skipLayout.offset + 1) Attempts.none := by
    refine Or.inr ⟨?_, Nat.succ_pos _⟩
    rw [show select.account _ Attempts.none = _ from Pattern.account_led_none hselect]
    exact Nat.lt_succ_self _
  obtain ⟨heq, hlt⟩ := Pattern.account_closed_led hk delete_noted hagree hm
  exact ⟨heq, heq ▸ hlt⟩

theorem sorted_keyword (k : Keyword) : Rule.sorted [.word (.keyword k)] = [.word (.keyword k)] := by
  cases k <;> decide

/-- A text that does not begin with the keyword of a form is refused where it begins. -/
theorem read_led_error {α β : Type} {rule outer : Rule} {k : Keyword} {q : Pattern α} {f : α → β}
    (h : ¬BeginsWith k text.toList) : (whole outer (Pattern.led rule k f q)).read text =
      .error { offset := Text.byteLength (text.toList.takeWhile isLayout), cause := .expected [.word (.keyword k)] } := by
  have hk : (keyword k).match? (Cursor.start text).skipLayout = none := keyword_match?_eq_none h
  have hnone : (Pattern.led rule k f q).match? (Cursor.start text).skipLayout = none :=
    Pattern.match?_led_of_none hk
  have hoffset : (Cursor.start text).skipLayout.offset = Text.byteLength (text.toList.takeWhile isLayout) :=
    Nat.zero_add _
  rw [Pattern.read_whole, Pattern.match?_closed_of_none hnone, Pattern.account_closed_of_none hnone]
  show Except.error (Attempts.fault (((Pattern.led rule k f q).account _ Attempts.none).fail outer 0 0)) = _
  rw [Pattern.account_led_none hk, hoffset]
  have hfail : ∀ place : Nat, Attempts.fail { position := place, rules := [.word (.keyword k)] } outer 0 0 =
      { position := place, rules := [.word (.keyword k)] } := by
    intro place
    rcases Nat.eq_zero_or_pos place with rfl | hpos
    · exact Attempts.fail_single ..
    · exact Attempts.fail_of_lt hpos
  rw [hfail, Attempts.fault, sorted_keyword]

end Forms

end EntityQuery.Grammar

namespace EntityQuery.Language
open Grammar

/-! ### Compiling under the three entry points -/

section Compile
variable {σ α : Type} {text : String}

theorem compile_of_select (h : BeginsWith .select text.toList) : compile text = (compileSelect text).map .select :=
  compileText_map (read_anyText_select h) fun _ => rfl

theorem compile_of_delete (h : BeginsWith .delete text.toList) : compile text = (compileDelete text).map .delete :=
  compileText_map (read_anyText_delete h) fun _ => rfl

theorem compile_eq_select_iff {q : SelectQuery} : compile text = .ok (.select q) ↔ compileSelect text = .ok q := by
  have hall : compile text = .ok (.select q) ↔ ∃ s : Statement, Cut text.toList s.words ∧ s.Means (.select q) :=
    compileText_eq_ok_iff recognises_statement compileStatement_eq_ok_iff
  have hform : compileSelect text = .ok q ↔ ∃ s : Select, Cut text.toList s.words ∧ s.Means q :=
    compileText_eq_ok_iff recognises_select compileSelectStatement_eq_ok_iff
  refine hall.trans (Iff.trans ⟨?_, ?_⟩ hform.symm)
  · rintro ⟨s | s, hcut, hq⟩
    · exact ⟨s, hcut, hq⟩
    · cases hq
  · rintro ⟨s, hcut, hq⟩
    exact ⟨.select s, hcut, hq⟩

theorem compile_eq_delete_iff {q : DeleteQuery} : compile text = .ok (.delete q) ↔ compileDelete text = .ok q := by
  have hall : compile text = .ok (.delete q) ↔ ∃ s : Statement, Cut text.toList s.words ∧ s.Means (.delete q) :=
    compileText_eq_ok_iff recognises_statement compileStatement_eq_ok_iff
  have hform : compileDelete text = .ok q ↔ ∃ s : Delete, Cut text.toList s.words ∧ s.Means q :=
    compileText_eq_ok_iff recognises_delete compileDeleteStatement_eq_ok_iff
  refine hall.trans (Iff.trans ⟨?_, ?_⟩ hform.symm)
  · rintro ⟨s | s, hcut, hq⟩
    · cases hq
    · exact ⟨s, hcut, hq⟩
  · rintro ⟨s, hcut, hq⟩
    exact ⟨.delete s, hcut, hq⟩

/-- The report for a text that does not begin with the keyword of a form. -/
def RefusedAtFront (k : Keyword) (text : String) (e : CompileError) : Prop :=
  e.kind = .malformed ∧ e.location.position = Text.byteLength (text.toList.takeWhile isLayout) ∧
    e.message = "expected " ++ (Rule.word (.keyword k)).label

theorem refusedAtFront {β : Type} {rule outer : Rule} {k : Keyword} {q : Pattern σ} {f : σ → α}
    {make : α → Except Fault β} (h : ¬BeginsWith k text.toList) :
    ∃ e, compileText (whole outer (Pattern.led rule k f q)) make text = .error e ∧ RefusedAtFront k text e := by
  refine ⟨_, by rw [compileText, read_led_error h]; rfl, rfl, ?_, ?_⟩
  · have hle : Text.byteLength (text.toList.takeWhile isLayout) ≤ Text.byteLength text.toList := by
      have hcut := congrArg Text.byteLength (List.takeWhile_append_dropWhile (p := isLayout) (l := text.toList))
      rw [Text.byteLength_append] at hcut
      omega
    exact Nat.min_eq_left hle
  · show "expected " ++ Text.alternatives ((Rule.sorted [_]).map (·.label)) = _
    rw [sorted_keyword]
    rfl

/-- The three entry points agree. What one form accepts is what is accepted as that form when both are let in,
    so no text has both forms. A text that begins with the keyword of a form is refused with the same report
    by the form alone, and a text that does not is refused by the form where it begins. -/
theorem entryPoints_agree (text : String) :
    (∀ q, compile text = .ok (.select q) ↔ compileSelect text = .ok q) ∧
    (∀ q, compile text = .ok (.delete q) ↔ compileDelete text = .ok q) ∧
    (∀ q r, ¬(compileSelect text = .ok q ∧ compileDelete text = .ok r)) ∧
    (BeginsWith .select text.toList → ∀ e, compile text = .error e ↔ compileSelect text = .error e) ∧
    (BeginsWith .delete text.toList → ∀ e, compile text = .error e ↔ compileDelete text = .error e) ∧
    (¬BeginsWith .select text.toList → ∃ e, compileSelect text = .error e ∧ RefusedAtFront .select text e) ∧
    (¬BeginsWith .delete text.toList → ∃ e, compileDelete text = .error e ∧ RefusedAtFront .delete text e) := by
  refine ⟨fun q => compile_eq_select_iff, fun q => compile_eq_delete_iff, ?_, ?_, ?_, refusedAtFront,
    refusedAtFront⟩
  · rintro q r ⟨hq, hr⟩
    have hboth := (compile_eq_select_iff.mpr hq).symm.trans (compile_eq_delete_iff.mpr hr)
    cases hboth
  · intro h e
    rw [compile_of_select h, map_eq_error_iff]
  · intro h e
    rw [compile_of_delete h, map_eq_error_iff]

/-- A statement that breaks off behind a sign. -/
theorem entryPoints_agree_unfinished :
    ∃ text e e', text = "\n select a FROM T WHERE n =" ∧ compileSelect text = .error e ∧ compile text = .error e ∧
      e = .malformedAt text 27 "expected value" ∧ compileDelete text = .error e' ∧ RefusedAtFront .delete text e' := by
  obtain ⟨-, -, -, hselect, -, -, hdelete⟩ := entryPoints_agree "\n select a FROM T WHERE n ="
  have herror : compileSelect "\n select a FROM T WHERE n =" =
      .error (.malformedAt "\n select a FROM T WHERE n =" 27 "expected value") := by decide +kernel
  obtain ⟨e', he, hfront⟩ := hdelete (by decide)
  exact ⟨_, _, e', rfl, herror, (hselect (by decide) _).mpr herror, rfl, he, hfront⟩

end Compile

end EntityQuery.Language
