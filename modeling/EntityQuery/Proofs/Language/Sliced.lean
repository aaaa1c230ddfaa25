import EntityQuery.Proofs.Language.Denote
import EntityQuery.Proofs.Language.Place
import EntityQuery.Proofs.Text.Lines

/-! # Slices of bytes

Texts are cut at byte offsets in three places: between the quotes of a literal, and before and behind the place of an
error. A slice is only there when both of its ends are boundaries between characters (`slice?`). Here quoted text and
error reports are read with these slices, and the search backwards for a boundary, spelled out; every slice that is
asked for is there, and the outcome is the one that is read character by character (`slices_valid`). -/

namespace EntityQuery.Text

/-! ### Slices -/

/-- The text between two byte offsets, if both are boundaries and the first one is not behind the second. -/
def slice? (text : String) (start stop : Nat) : Option String :=
  if h : ((String.Pos.Raw.mk start).IsValid text ∧ (String.Pos.Raw.mk stop).IsValid text) ∧ start ≤ stop then
    some (text.slice (text.pos _ h.1.1) (text.pos _ h.1.2) h.2).copy
  else none

theorem slice?_eq_some_iff {text inner : String} {start stop : Nat} : slice? text start stop = some inner ↔
    ∃ before after, text = before ++ (inner ++ after) ∧ before.utf8ByteSize = start ∧
      before.utf8ByteSize + inner.utf8ByteSize = stop := by
  rw [slice?, Option.dite_none_right_eq_some]
  constructor
  · rintro ⟨h, hcopy⟩
    obtain ⟨before, after, hstart, hstop⟩ := String.copy_slice_eq_iff_splits.mp ⟨h.2, Option.some.inj hcopy⟩
    refine ⟨before, after, hstart.eq_append, ?_, ?_⟩
    · exact (congrArg String.Pos.Raw.byteIdx hstart.offset_eq_rawEndPos).symm
    · rw [← String.utf8ByteSize_append]
      exact (congrArg String.Pos.Raw.byteIdx hstop.offset_eq_rawEndPos).symm
  · rintro ⟨before, after, htext, rfl, rfl⟩
    have hstart : (String.Pos.Raw.mk before.utf8ByteSize).IsValid text :=
      String.Pos.Raw.isValid_iff_exists_append.mpr ⟨before, inner ++ after, htext, rfl⟩
    have hstop : (String.Pos.Raw.mk (before.utf8ByteSize + inner.utf8ByteSize)).IsValid text := by
      refine String.Pos.Raw.isValid_iff_exists_append.mpr ⟨before ++ inner, after, ?_, ?_⟩
      · rw [htext, String.append_assoc]
      · rw [← String.utf8ByteSize_append]
        rfl
    obtain ⟨h, hcopy⟩ := (@String.copy_slice_eq_iff_splits inner text (text.pos _ hstart) (text.pos _ hstop)).mpr
      ⟨before, after, ⟨htext, rfl⟩, by rw [htext, String.append_assoc], by simp [String.Pos.Raw.ext_iff]⟩
    exact ⟨⟨⟨hstart, hstop⟩, h⟩, congrArg some hcopy⟩

/-! ### The search for a boundary -/

/-- The first boundary that a search backwards meets. -/
def floorBoundary (text : String) : Nat → Nat
  | 0 => 0
  | n + 1 => if (String.Pos.Raw.mk (n + 1)).isValid text then n + 1 else floorBoundary text n

theorem isFloor_floorBoundary (text : String) (position : Nat) :
    IsFloor text (min position text.utf8ByteSize) (floorBoundary text position) := by
  induction position with
  | zero =>
    exact ⟨String.Pos.Raw.isValid_zero, Nat.zero_le _, fun n _ hn => Nat.le_trans hn (Nat.min_le_left _ _)⟩
  | succ position ih =>
    rw [floorBoundary]
    split
    · rename_i h
      have hvalid := String.Pos.Raw.isValid_eq_true_iff.mp h
      refine ⟨hvalid, Nat.le_min.mpr ⟨Nat.le_refl _, hvalid.le_rawEndPos⟩, fun n _ hn => ?_⟩
      exact Nat.le_trans hn (Nat.min_le_left _ _)
    · rename_i h
      refine ⟨ih.valid, Nat.le_trans ih.le (by omega), fun n hn hle => ih.greatest n hn ?_⟩
      have hne : n ≠ position + 1 := by
        rintro rfl
        exact h (String.Pos.Raw.isValid_eq_true_iff.mpr hn)
      omega

theorem IsFloor.unique {text : String} {position b b' : Nat} (h : IsFloor text position b)
    (h' : IsFloor text position b') : b = b' :=
  Nat.le_antisymm (h'.greatest b h.valid h.le) (h.greatest b' h'.valid h'.le)

/-- Every text is cut in two at the boundary that is found. -/
theorem slice?_floorBoundary (text : String) (position : Nat) : ∃ before after, text = before ++ after ∧
    slice? text 0 (floorBoundary text position) = some before ∧
    slice? text (floorBoundary text position) text.utf8ByteSize = some after := by
  obtain ⟨before, after, htext, hoffset⟩ :=
    String.Pos.Raw.isValid_iff_exists_append.mp (isFloor_floorBoundary text position).valid
  have hbefore : before.utf8ByteSize = floorBoundary text position := (congrArg String.Pos.Raw.byteIdx hoffset).symm
  refine ⟨before, after, htext, slice?_eq_some_iff.mpr ?_, slice?_eq_some_iff.mpr ?_⟩
  · exact ⟨"", after, by rw [htext, String.empty_append], rfl, by rw [hbefore]; exact Nat.zero_add _⟩
  · exact ⟨before, "", by rw [htext, String.append_empty], hbefore, by rw [htext, String.utf8ByteSize_append]⟩

/-! ### The place of an error -/

/-- The line and the column of a place, from the slice before it. -/
def lineColumnSliced? (text : String) (position : Nat) : Option (Nat × Nat) :=
  (slice? text 0 (floorBoundary text position)).map fun before => lineColumn before.toList

/-- The fragment at a place, from the slice behind it. -/
def fragmentSliced? (text : String) (position : Nat) : Option String :=
  (slice? text (floorBoundary text position) text.utf8ByteSize).map fun after =>
    String.ofList (after.toList.take fragmentLength)

/-- What is shown for a place, from both slices. -/
def locateSliced? (text : String) (position : Nat) : Option Location := do
  let position := min position text.utf8ByteSize
  let (line, column) ← lineColumnSliced? text position
  let fragment ← fragmentSliced? text position
  some { position, line, column, fragment }

theorem locateSliced?_eq (text : String) (position : Nat) :
    locateSliced? text position = some (locate text position) := by
  have hfloor := isFloor_floorBoundary text (min position text.utf8ByteSize)
  rw [Nat.min_eq_left (Nat.min_le_right _ _)] at hfloor
  obtain ⟨before, after, htext, hbefore, hafter⟩ := slice?_floorBoundary text (min position text.utf8ByteSize)
  have hsize : byteLength before.toList = boundary text position := by
    obtain ⟨front, back, -, hfront, hstop⟩ := slice?_eq_some_iff.mp hbefore
    rw [byteLength_toList, ← hfloor.unique (isFloor_boundary text position)]
    omega
  have hsplit : splitAtByte (min position text.utf8ByteSize) text.toList = (before.toList, after.toList) := by
    have hall := splitAtByte_append (min position text.utf8ByteSize) text.toList
    rw [boundary] at hsize
    generalize splitAtByte (min position text.utf8ByteSize) text.toList = split at *
    obtain ⟨front, back⟩ := split
    rw [htext, String.toList_append] at hall
    obtain rfl := Language.eq_of_byteLength hall hsize.symm
    exact congrArg (Prod.mk _) (List.append_cancel_left hall)
  rw [locateSliced?, lineColumnSliced?, fragmentSliced?, hbefore, hafter, locate, byteLength_toList, hsplit]
  rfl

/-! ### Quoted text -/

/-- A token of more than one byte that begins and ends with a quote. -/
def Encloses (quote : Char) (token : String) : Prop :=
  isQuote quote = true ∧ token.toList.head? = some quote ∧ 2 ≤ token.utf8ByteSize ∧ token.toList.getLast? = some quote

instance (quote : Char) (token : String) : Decidable (Encloses quote token) :=
  inferInstanceAs (Decidable (_ ∧ _))

/-- The text between the quotes of a token, from the slice without the first and the last byte; no text if there are
    no two quotes. -/
def unquoteSliced? (token : String) : Option (Option (List Char)) :=
  match token.toList.head? with
  | none => some none
  | some quote =>
    if Encloses quote token then
      (slice? token 1 (token.utf8ByteSize - 1)).map fun inner => some (unescape quote inner.toList)
    else some none

theorem utf8Size_of_isQuote {quote : Char} (h : isQuote quote = true) : quote.utf8Size = 1 := by
  simp only [isQuote, Bool.or_eq_true, beq_iff_eq] at h
  rcases h with rfl | rfl <;> rfl

/-- The token of more than one byte has a second quote, not the same one twice. -/
theorem encloses_iff {quote : Char} {token : String} : Encloses quote token ↔
    isQuote quote = true ∧ ∃ body, token.toList = quote :: (body ++ [quote]) := by
  rw [Encloses, ← byteLength_toList]
  refine and_congr_right fun hq => ?_
  constructor
  · rintro ⟨hhead, hsize, hlast⟩
    obtain ⟨rest, hrest⟩ := List.head?_eq_some_iff.mp hhead
    rw [hrest] at hsize hlast ⊢
    have hne : rest ≠ [] := by
      rintro rfl
      rw [byteLength_cons, utf8Size_of_isQuote hq, byteLength_nil] at hsize
      omega
    rw [List.getLast?_cons_of_ne_nil hne] at hlast
    obtain ⟨body, rfl⟩ := List.getLast?_eq_some_iff.mp hlast
    exact ⟨body, rfl⟩
  · rintro ⟨body, htoken⟩
    rw [htoken]
    refine ⟨rfl, ?_, by rw [← List.cons_append, List.getLast?_concat]⟩
    rw [byteLength_cons, byteLength_append, byteLength_cons, utf8Size_of_isQuote hq]
    omega

theorem slice?_of_encloses {quote : Char} {token : String} {body : List Char} (hq : isQuote quote = true)
    (htoken : token.toList = quote :: (body ++ [quote])) :
    slice? token 1 (token.utf8ByteSize - 1) = some (String.ofList body) := by
  have hquote : (String.ofList [quote]).utf8ByteSize = 1 := by
    rw [← byteLength_eq, byteLength_cons, utf8Size_of_isQuote hq, byteLength_nil]
  have hall : token = String.ofList [quote] ++ (String.ofList body ++ String.ofList [quote]) := by
    rw [← String.ofList_append, ← String.ofList_append, ← String.ofList_toList (s := token), htoken]
    rfl
  refine slice?_eq_some_iff.mpr ⟨_, _, hall, hquote, ?_⟩
  rw [hall, String.utf8ByteSize_append, String.utf8ByteSize_append, hquote]
  omega

theorem unquoteSliced?_eq (token : String) : unquoteSliced? token = some (unquote token.toList) := by
  unfold unquoteSliced?
  split
  · rename_i hhead
    rw [List.head?_eq_none_iff.mp hhead]
    rfl
  · rename_i quote hhead
    split
    · rename_i h
      obtain ⟨hq, body, htoken⟩ := encloses_iff.mp h
      rw [slice?_of_encloses hq htoken, htoken, Language.unquote_quoted hq, Option.map_some, String.toList_ofList]
    · rename_i h
      refine congrArg some (Option.eq_none_iff_forall_ne_some.mpr fun text htext => ?_).symm
      obtain ⟨quote', body, hq, htoken, -⟩ := Language.unquote_eq_some_iff.mp htext
      rw [htoken] at hhead
      obtain rfl := Option.some.inj hhead
      exact h (encloses_iff.mpr ⟨hq, body, htoken⟩)

end EntityQuery.Text

namespace EntityQuery
open Text

/-- The value of a word, with the text between its quotes from a slice. What has no quotes is read without slices. -/
def Value.ofLiteralSliced? (token : String) : Option (Option Value) :=
  (unquoteSliced? (String.ofList (trim token.toList))).map fun
    | some inner => some (.string (String.ofList inner))
    | none => ofTrimmed? (trim token.toList)

/-- The report of an error, with what it shows of the text from slices. -/
def CompileError.malformedSliced? (text : String) (position : Nat) (message : String) : Option CompileError :=
  (locateSliced? text position).map fun location => { kind := .malformed, location, message }

theorem Value.ofLiteralSliced?_eq (token : String) : ofLiteralSliced? token = some (ofLiteral? token) := by
  rw [ofLiteralSliced?, unquoteSliced?_eq, String.toList_ofList, ofLiteral?, ofTrimmed?]
  cases unquote (trim token.toList) <;> rfl

/-- No slice is asked for that is not there: the two ends of the text between quotes are boundaries, the search for a
    boundary ends at the greatest one that is not past its place or the text, and so literals and reports of errors
    are read with slices as they are without. -/
theorem slices_valid (text : String) :
    (∀ quote, Encloses quote text → 1 ≤ text.utf8ByteSize - 1 ∧ (String.Pos.Raw.mk 1).IsValid text ∧
      (String.Pos.Raw.mk (text.utf8ByteSize - 1)).IsValid text) ∧
    Value.ofLiteralSliced? text = some (Value.ofLiteral? text) ∧
    ∀ position,
      IsFloor text (min position text.utf8ByteSize) (floorBoundary text position) ∧
      (∃ before after, text = before ++ after ∧ slice? text 0 (floorBoundary text position) = some before ∧
        slice? text (floorBoundary text position) text.utf8ByteSize = some after) ∧
      ∀ message, CompileError.malformedSliced? text position message = some (.malformedAt text position message) := by
  refine ⟨fun quote h => ?_, Value.ofLiteralSliced?_eq text, fun position => ⟨isFloor_floorBoundary text position,
    slice?_floorBoundary text position, fun message => ?_⟩⟩
  · obtain ⟨hq, body, htext⟩ := encloses_iff.mp h
    obtain ⟨⟨⟨hstart, hstop⟩, hle⟩, -⟩ := Option.dite_none_right_eq_some.mp (slice?_of_encloses hq htext)
    exact ⟨hle, hstart, hstop⟩
  · rw [CompileError.malformedSliced?, locateSliced?_eq]
    rfl

/-- A character of two bytes between quotes, and a place within it. -/
theorem slices_valid_accent : Encloses '\'' "'é'" ∧ (String.Pos.Raw.mk 3).IsValid "'é'" ∧
    Value.ofLiteralSliced? "'é'" = some (some (.string "é")) ∧ IsFloor "'é'" 2 1 ∧
    CompileError.malformedSliced? "'é'" 2 "" = some (.malformedAt "'é'" 2 "") := by
  have hencloses : Encloses '\'' "'é'" := by decide
  obtain ⟨hquoted, hvalue, hplaces⟩ := slices_valid "'é'"
  obtain ⟨hfloor, -, hreport⟩ := hplaces 2
  exact ⟨hencloses, (hquoted '\'' hencloses).2.2, hvalue, hfloor, hreport ""⟩

end EntityQuery
