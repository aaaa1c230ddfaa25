import EntityQuery.CompileError

/-! # Lines and columns

The report of an error shows the greatest boundary between two characters that is not past its place
(`IsFloor`). The line counts the line feeds before the boundary, the column the characters since the last one
of them, and both together are ordered as the boundaries are: what stands between two boundaries either has
a line feed, and the line grows, or has none, and the column grows. -/

namespace EntityQuery.Text

/-! ### Boundaries -/

/-- A boundary of a text that is not past a place, and none is nearer to it. -/
structure IsFloor (text : String) (position boundary : Nat) : Prop where
  valid : (String.Pos.Raw.mk boundary).IsValid text
  le : boundary ≤ position
  greatest : ∀ n, (String.Pos.Raw.mk n).IsValid text → n ≤ position → n ≤ boundary

/-- The boundary that is shown for a place. -/
def boundary (text : String) (position : Nat) : Nat :=
  byteLength (splitAtByte (min position text.utf8ByteSize) text.toList).1

theorem byteLength_eq (cs : List Char) : byteLength cs = (String.ofList cs).utf8ByteSize := by
  induction cs with
  | nil => rfl
  | cons c cs ih =>
    rw [← List.singleton_append, String.ofList_append, String.utf8ByteSize_append, ← String.singleton_eq_ofList,
      String.utf8ByteSize_singleton, ← ih]
    rfl

theorem byteLength_toList (text : String) : byteLength text.toList = text.utf8ByteSize := by
  rw [byteLength_eq, String.ofList_toList]

theorem isValid_iff {text : String} {n : Nat} :
    (String.Pos.Raw.mk n).IsValid text ↔ ∃ before after, text.toList = before ++ after ∧ byteLength before = n := by
  rw [String.Pos.Raw.isValid_iff_exists_append]
  constructor
  · rintro ⟨s, t, rfl, hn⟩
    refine ⟨s.toList, t.toList, String.toList_append, ?_⟩
    rw [byteLength_toList]
    exact (congrArg String.Pos.Raw.byteIdx hn).symm
  · rintro ⟨before, after, htext, rfl⟩
    refine ⟨String.ofList before, String.ofList after, ?_, ?_⟩
    · rw [← String.ofList_append, ← htext, String.ofList_toList]
    · rw [byteLength_eq]
      rfl

theorem byteLength_le_splitAtByte {limit : Nat} {before after : List Char} (h : byteLength before ≤ limit) :
    byteLength before ≤ byteLength (splitAtByte limit (before ++ after)).1 := by
  induction before generalizing limit with
  | nil => exact Nat.zero_le _
  | cons c before ih =>
    rw [byteLength_cons] at h ⊢
    rw [List.cons_append, splitAtByte, if_pos (by omega)]
    exact Nat.add_le_add_left (ih (by omega)) _

theorem isFloor_boundary (text : String) (position : Nat) :
    IsFloor text (min position text.utf8ByteSize) (boundary text position) where
  valid := isValid_iff.mpr ⟨_, _, (splitAtByte_append _ _).symm, rfl⟩
  le := byteLength_splitAtByte_le _ _
  greatest := by
    intro n hn hle
    obtain ⟨before, after, htext, rfl⟩ := isValid_iff.mp hn
    rw [boundary, htext]
    exact byteLength_le_splitAtByte hle

/-! ### Lines -/

/-- The text behind its first `n` line feeds. -/
def dropLines : Nat → List Char → List Char
  | 0, cs => cs
  | _ + 1, [] => []
  | n + 1, c :: cs => if c = '\n' then dropLines n cs else dropLines (n + 1) cs

/-- Some whole lines, each with its line feed. -/
def WholeLines (cs : List Char) : Prop :=
  cs = [] ∨ ∃ front, cs = front ++ ['\n']

theorem dropLines_append {front : List Char} (rest : List Char) :
    dropLines (front.count '\n' + 1) (front ++ '\n' :: rest) = rest := by
  induction front with
  | nil => rw [List.nil_append, dropLines, if_pos rfl, List.count_nil, dropLines]
  | cons c front ih =>
    rw [List.cons_append, dropLines]
    by_cases hc : c = '\n'
    · subst hc
      rw [if_pos rfl, List.count_cons_self, ih]
    · rw [if_neg hc, List.count_cons_of_ne hc, ih]

theorem dropLines_wholeLines {lines : List Char} (h : WholeLines lines) (rest : List Char) :
    dropLines (lines.count '\n') (lines ++ rest) = rest := by
  rcases h with rfl | ⟨front, rfl⟩
  · rw [List.count_nil, List.nil_append, dropLines]
  · rw [List.count_append, List.append_assoc]
    exact dropLines_append rest

/-- A text as its whole lines and what stands behind them. -/
structure Lined (cs lines last : List Char) : Prop where
  eq : cs = lines ++ last
  whole : WholeLines lines
  last : '\n' ∉ last

theorem exists_lined (cs : List Char) : ∃ lines last, Lined cs lines last := by
  induction cs with
  | nil => exact ⟨[], [], rfl, Or.inl rfl, List.not_mem_nil⟩
  | cons c cs ih =>
    obtain ⟨lines, last, rfl, hlines | ⟨front, hlines⟩, hlast⟩ := ih
    · subst hlines
      by_cases hc : c = '\n'
      · exact ⟨[c], last, rfl, Or.inr ⟨[], by rw [hc, List.nil_append]⟩, hlast⟩
      · refine ⟨[], c :: last, rfl, Or.inl rfl, ?_⟩
        rw [List.mem_cons, not_or]
        exact ⟨Ne.symm hc, hlast⟩
    · exact ⟨c :: lines, last, rfl, Or.inr ⟨c :: front, by rw [hlines, List.cons_append]⟩, hlast⟩

section Lined
variable {cs lines last : List Char}

theorem Lined.count (h : Lined cs lines last) : cs.count '\n' = lines.count '\n' := by
  rw [h.eq, List.count_append, List.count_eq_zero.mpr h.last, Nat.add_zero]

theorem Lined.column (h : Lined cs lines last) : (cs.reverse.takeWhile (· != '\n')).length = last.length := by
  have hlines : lines.reverse.takeWhile (· != '\n') = [] := by
    rcases h.whole with rfl | ⟨front, rfl⟩
    · rfl
    · rw [List.reverse_append]
      rfl
  rw [h.eq, List.reverse_append, List.takeWhile_append_of_pos, hlines, List.append_nil, List.length_reverse]
  intro c hc
  rw [bne_iff_ne]
  rintro rfl
  exact h.last (List.mem_reverse.mp hc)

theorem Lined.append (h : Lined cs lines last) {more : List Char} (hmore : '\n' ∉ more) :
    Lined (cs ++ more) lines (last ++ more) where
  eq := by rw [h.eq, List.append_assoc]
  whole := h.whole
  last := by
    rw [List.mem_append, not_or]
    exact ⟨h.last, hmore⟩

end Lined

/-! ### Order -/

/-- The line and the column of what stands behind a beginning of a text. -/
def lineColumn (before : List Char) : Nat × Nat :=
  (before.count '\n' + 1, (before.reverse.takeWhile (· != '\n')).length + 1)

/-- One place stands before another one: on an earlier line, or further to the left. -/
abbrev Precedes : Nat × Nat → Nat × Nat → Prop :=
  Prod.Lex (· < ·) (· < ·)

theorem Precedes.asymm {x y : Nat × Nat} (h : Precedes x y) : ¬Precedes y x := by
  rw [Precedes, Prod.lex_def] at *
  omega

/-- A longer beginning ends on a later line, or on the same one further to the right. -/
theorem precedes_append (before : List Char) {more : List Char} (hmore : more ≠ []) :
    Precedes (lineColumn before) (lineColumn (before ++ more)) := by
  by_cases hline : '\n' ∈ more
  · refine Prod.Lex.left _ _ ?_
    have hcount := List.count_pos_iff.mpr hline
    rw [List.count_append]
    omega
  · obtain ⟨lines, last, h⟩ := exists_lined before
    have hlonger := h.append hline
    have hlength := List.length_pos_iff.mpr hmore
    rw [lineColumn, lineColumn, h.count, h.column, hlonger.count, hlonger.column, List.length_append]
    exact Prod.Lex.right _ (by omega)

/-- Of two beginnings of one text, the shorter one ends at the earlier place. -/
theorem precedes_iff {before after before' after' : List Char} (h : before ++ after = before' ++ after') :
    Precedes (lineColumn before) (lineColumn before') ↔ byteLength before < byteLength before' := by
  rcases List.prefix_or_prefix_of_prefix ⟨after, h⟩ (List.prefix_append before' after') with ⟨more, rfl⟩ | ⟨more, rfl⟩
  -- Nothing, or something, stands between the ends of the two.
  all_goals
    rw [byteLength_append]
    by_cases hmore : more = []
    · subst hmore
      rw [List.append_nil, byteLength_nil]
      exact iff_of_false (fun h => h.asymm h) (by omega)
    have hpos := byteLength_pos hmore
  · exact iff_of_true (precedes_append before hmore) (by omega)
  · exact iff_of_false (precedes_append before' hmore).asymm (by omega)

end EntityQuery.Text

namespace EntityQuery.CompileError
open Text

def lineColumn (e : CompileError) : Nat × Nat :=
  (e.location.line, e.location.column)

/-- What the report of an error at a place shows of the text around a boundary. -/
structure Shows (e : CompileError) (text : String) (position boundary : Nat) (message : String) : Prop where
  kind : e.kind = .malformed
  message : e.message = message
  position : e.location.position = min position text.utf8ByteSize
  around : ∃ lines last after, text.toList = lines ++ last ++ after ∧ byteLength (lines ++ last) = boundary ∧
    WholeLines lines ∧ '\n' ∉ last ∧
    e.location.line = (lines ++ last).count '\n' + 1 ∧
    e.location.column = last.length + 1 ∧
    e.location.fragment = String.ofList (after.take (min 32 after.length)) ∧
    (dropLines (e.location.line - 1) text.toList).drop (e.location.column - 1) = after

variable (text : String) (position : Nat) (message : String)

theorem lineColumn_malformedAt : (malformedAt text position message).lineColumn =
    Text.lineColumn (splitAtByte (min position text.utf8ByteSize) text.toList).1 := by
  rw [← byteLength_toList]
  rfl

theorem shows_malformedAt :
    (malformedAt text position message).Shows text position (boundary text position) message where
  kind := rfl
  message := rfl
  position := by
    rw [← byteLength_toList]
    rfl
  around := by
    have hsplit := splitAtByte_append (min position text.utf8ByteSize) text.toList
    have hfragment : (malformedAt text position message).location.fragment =
        String.ofList ((splitAtByte (min position text.utf8ByteSize) text.toList).2.take 32) := by
      rw [← byteLength_toList]
      rfl
    obtain ⟨hline, hcolumn⟩ := Prod.mk.inj (lineColumn_malformedAt text position message)
    rw [boundary]
    generalize splitAtByte (min position text.utf8ByteSize) text.toList = split at *
    obtain ⟨before, after⟩ := split
    obtain ⟨lines, last, h⟩ := exists_lined before
    obtain rfl := h.eq
    rw [h.column] at hcolumn
    refine ⟨lines, last, after, hsplit.symm, rfl, h.whole, h.last, hline, hcolumn, ?_, ?_⟩
    · rw [← List.take_eq_take_min, hfragment]
    · rw [hline, hcolumn, Nat.add_sub_cancel, Nat.add_sub_cancel, h.count, ← hsplit, List.append_assoc,
        dropLines_wholeLines h.whole, List.drop_left]

/-- An error shows the greatest boundary that is not past its place, and errors in one text are ordered by line and
    column as their boundaries are. -/
theorem malformedAt_exact (text message : String) :
    (∀ position, IsFloor text (min position text.utf8ByteSize) (boundary text position) ∧
      (malformedAt text position message).Shows text position (boundary text position) message) ∧
    ∀ p q, Precedes (malformedAt text p message).lineColumn (malformedAt text q message).lineColumn ↔
      boundary text p < boundary text q := by
  refine ⟨fun position => ⟨isFloor_boundary text position, shows_malformedAt text position message⟩, fun p q => ?_⟩
  rw [lineColumn_malformedAt, lineColumn_malformedAt]
  exact precedes_iff ((splitAtByte_append _ _).trans (splitAtByte_append _ _).symm)

-- The second byte of a character, at the front of a line that is not the first
example : (malformedAt "SKIP\n\né" 7 "").lineColumn = (3, 1) := by decide +kernel

end EntityQuery.CompileError
