import EntityQuery.Proofs.Language.Cut

/-! # Places between words

What stands behind a word matters for it only by its first character, and a character that no name goes on
with lets every word end (`Free`). Two places of a text behind which it is cut into the same words differ
in layout only (`skipLayout_eq_of_cut`): the words tell how many other characters are left. -/

namespace EntityQuery.Language
open Grammar

/-! ### Behind a word -/

/-- Any word may end before this. -/
def Free (rest : List Char) : Prop :=
  ∀ c ∈ rest.head?, isNameChar c = false

theorem Free.nil : Free [] := by
  intro c hc
  cases hc

theorem Free.cons {c : Char} {rest : List Char} (h : isNameChar c = false) : Free (c :: rest) := by
  intro d hd
  rw [← Option.some.inj hd]
  exact h

theorem Free.space (rest : List Char) : Free (' ' :: rest) :=
  Free.cons (by decide)

theorem Free.append {text rest : List Char} (ht : Free text) (hr : Free rest) : Free (text ++ rest) := by
  cases text with
  | nil => exact hr
  | cons c text => exact ht

theorem isNameChar_of_isLayout {c : Char} (h : isLayout c = true) : isNameChar c = false := by
  simp only [isLayout, Bool.or_eq_true, beq_iff_eq] at h
  rcases h with ((rfl | rfl) | rfl) | rfl <;> decide

theorem Free.layout {gap : List Char} (h : Layout gap) : Free gap :=
  fun c hc => isNameChar_of_isLayout (h c (List.mem_of_head? hc))

theorem Free.startsWord {rest : List Char} (h : Free rest) : startsWord rest = false := by
  rw [startsWord_eq_false_iff]
  intro c hc
  rw [Bool.eq_false_iff]
  intro hw
  exact absurd (isNameChar_of_isWordChar hw) (by simp [h c hc])

theorem Free.endsBefore {rest : List Char} (h : Free rest) (w : Word) : w.EndsBefore rest := by
  cases w with
  | name n => exact h
  | keyword k => exact h.startsWord
  | count ds => exact h.startsWord
  | literal l => exact Or.inr h.startsWord
  | _ => trivial

/-- The text may stand where the other one stood: it begins alike, or any word may end before it. -/
def Fits (rest rest' : List Char) : Prop :=
  rest'.head? = rest.head? ∨ Free rest'

theorem Fits.refl (rest : List Char) : Fits rest rest :=
  Or.inl rfl

theorem Fits.append {rest rest' : List Char} (h : Fits rest rest') (text : List Char) :
    Fits (text ++ rest) (text ++ rest') := by
  cases text with
  | nil => exact h
  | cons c text => exact Or.inl rfl

theorem startsWord_congr {rest rest' : List Char} (h : rest'.head? = rest.head?) :
    startsWord rest' = startsWord rest := by
  cases rest <;> cases rest'
  · rfl
  · cases h
  · cases h
  · rw [startsWord, Option.some.inj h, startsWord]

theorem Word.EndsBefore.fits {w : Word} {rest rest' : List Char} (he : w.EndsBefore rest) (h : Fits rest rest') :
    w.EndsBefore rest' := by
  rcases h with h | h
  · have hstart := startsWord_congr h
    cases w with
    | name n =>
      intro c hc
      rw [h] at hc
      exact he c hc
    | keyword k => exact hstart.trans he
    | count ds => exact hstart.trans he
    | literal l => exact he.imp_right hstart.trans
    | _ => trivial
  · exact h.endsBefore w

/-! ### Written texts -/

theorem cut_layout {gap cs : List Char} {ws : List Word} (hg : Layout gap) (h : Cut cs ws) : Cut (gap ++ cs) ws :=
  cut_skip.mp (by rw [skip_append_of_layout hg]; exact cut_skip.mpr h)

theorem cut_space {rest : List Char} {ws : List Word} (h : Cut rest ws) : Cut (' ' :: rest) ws :=
  cut_layout (fun c hc => by rw [List.mem_singleton.mp hc]; rfl : Layout [' ']) h

/-- The text is cut into the words, whatever follows, as long as any word may end before it. -/
def Prints (text : List Char) (words : List Word) : Prop :=
  ∀ ⦃rest : List Char⦄ ⦃ws : List Word⦄, Free rest → Cut rest ws → Cut (text ++ rest) (words ++ ws)

theorem prints_nil : Prints [] [] :=
  fun _ _ _ h => h

theorem prints_word {w : Word} {text : List Char} (h : w.SpelledAs text) : Prints text [w] :=
  fun _ _ hfree hcut => cut_append h (hfree.endsBefore w) hcut

theorem Prints.space {text : List Char} {words : List Word} (h : Prints text words) : Prints (' ' :: text) words :=
  fun _ _ hfree hcut => cut_space (h hfree hcut)

theorem Prints.append {text text' : List Char} {words words' : List Word} (h : Prints text words)
    (h' : Prints text' words') (he : Free text') : Prints (text ++ text') (words ++ words') := by
  intro rest ws hrest hcut
  rw [List.append_assoc, List.append_assoc]
  exact h (he.append hrest) (h' hrest hcut)

/-! ### Cuts into the same words -/

/-- The number of characters that are no layout. -/
def solid (cs : List Char) : Nat :=
  cs.countP fun c => !isLayout c

theorem solid_append (cs ds : List Char) : solid (cs ++ ds) = solid cs + solid ds :=
  List.countP_append

theorem solid_eq_zero_iff {cs : List Char} : solid cs = 0 ↔ Layout cs := by
  simp [solid, Layout, List.countP_eq_zero]

theorem solid_skip (cs : List Char) : solid (skip cs) = solid cs := by
  have hcs := congrArg solid (List.takeWhile_append_dropWhile (p := isLayout) (l := cs))
  rw [solid_append, solid_eq_zero_iff.mpr (layout_takeWhile cs), Nat.zero_add] at hcs
  exact hcs

theorem solid_spelled {w : Word} {text text' : List Char} (h : w.SpelledAs text) (h' : w.SpelledAs text') :
    solid text = solid text' := by
  have hkeyword : ∀ {k : Keyword} {cs : List Char}, (Word.keyword k).SpelledAs cs →
      solid cs = k.word.toList.length := by
    intro k cs hs
    have hall : ∀ c ∈ cs, (!isLayout c) = true := by
      intro c hc
      rw [Bool.not_eq_true', Bool.eq_false_iff]
      intro hl
      have hname := isNameChar_of_isWordChar (chars_of_map_toLower (isPlain_keyword k) hs c hc)
      rw [isNameChar_of_isLayout hl] at hname
      cases hname
    rw [solid, List.countP_eq_length.mpr hall, ← (show cs.map Char.toLower = k.word.toList from hs), List.length_map]
  cases w with
  | keyword k => rw [hkeyword h, hkeyword h']
  | star => rw [show text = ['*'] from h, show text' = ['*'] from h']
  | comma => rw [show text = [','] from h, show text' = [','] from h']
  | sign o => rw [h.2, h'.2]
  | name n => rw [h.2, h'.2]
  | count ds => rw [h.2, h'.2]
  | literal l => rw [h.2, h'.2]

theorem solid_cut {cs cs' : List Char} {ws : List Word} (h : Cut cs ws) (h' : Cut cs' ws) : solid cs = solid cs' := by
  induction ws generalizing cs cs' with
  | nil => rw [← solid_skip cs, ← solid_skip cs', cut_nil_iff.mp h, cut_nil_iff.mp h']
  | cons w ws ih =>
    obtain ⟨text, rest, hskip, hs, -, hrest⟩ := cut_cons_iff.mp h
    obtain ⟨text', rest', hskip', hs', -, hrest'⟩ := cut_cons_iff.mp h'
    rw [← solid_skip cs, ← solid_skip cs', hskip, hskip', solid_append, solid_append, solid_spelled hs hs',
      ih hrest hrest']

theorem skip_eq_of_suffix {cs ds : List Char} (hs : cs <:+ ds) (h : solid cs = solid ds) : skip cs = skip ds := by
  obtain ⟨gap, rfl⟩ := hs
  rw [solid_append] at h
  rw [skip_append_of_layout (solid_eq_zero_iff.mp (by omega))]

end EntityQuery.Language

namespace EntityQuery.Grammar.Cursor
open EntityQuery.Language
variable {c m n : Cursor}

theorem Reaches.suffix (h : c.Reaches m) : m.rest <:+ c.rest :=
  h.elim fun taken ht => ⟨taken, ht.1.symm⟩

theorem Reaches.eq (hm : c.Reaches m) (hn : c.Reaches n) (h : m.rest = n.rest) : m = n := by
  obtain ⟨taken, hr, ho⟩ := hm
  obtain ⟨taken', hr', ho'⟩ := hn
  have htaken : taken = taken' := by
    rw [h] at hr
    exact List.append_cancel_right (hr.symm.trans hr')
  obtain ⟨offset, rest⟩ := m
  obtain ⟨offset', rest'⟩ := n
  rw [Cursor.mk.injEq]
  exact ⟨ho.trans (htaken ▸ ho'.symm), h⟩

/-- Two places from which a text is cut into the same words are one place behind the layout. -/
theorem skipLayout_eq_of_cut {ws : List Word} (hm : c.Reaches m) (hn : c.Reaches n) (h₁ : Cut m.rest ws)
    (h₂ : Cut n.rest ws) : m.skipLayout = n.skipLayout := by
  refine (hm.trans m.reaches_skipLayout).eq (hn.trans n.reaches_skipLayout) ?_
  show skip m.rest = skip n.rest
  rcases List.suffix_or_suffix_of_suffix hm.suffix hn.suffix with h | h
  · exact skip_eq_of_suffix h (solid_cut h₁ h₂)
  · exact (skip_eq_of_suffix h (solid_cut h₂ h₁)).symm

theorem skipLayout_append {gap cs : List Char} (hg : Layout gap) (offset : Nat) :
    (Cursor.mk offset (gap ++ cs)).skipLayout = (Cursor.mk (offset + Text.byteLength gap) cs).skipLayout := by
  refine Reaches.eq (c := ⟨offset, gap ++ cs⟩) (reaches_skipLayout _) ?_ (skip_append_of_layout hg)
  exact Reaches.trans ⟨gap, rfl, rfl⟩ (reaches_skipLayout _)

end EntityQuery.Grammar.Cursor

namespace EntityQuery.Language
open Grammar

theorem eq_of_byteLength {text text' rest rest' : List Char} (h : text ++ rest = text' ++ rest')
    (hlen : Text.byteLength text = Text.byteLength text') : text = text' := by
  have nothing : ∀ {text more : List Char}, Text.byteLength text = Text.byteLength (text ++ more) → more = [] := by
    intro text more h
    refine Decidable.byContradiction fun hmore => ?_
    have hpos := Text.byteLength_pos hmore
    rw [Text.byteLength_append] at h
    omega
  rcases List.prefix_or_prefix_of_prefix ⟨rest, h⟩ (List.prefix_append text' rest') with ⟨more, rfl⟩ | ⟨more, rfl⟩
  · rw [nothing hlen, List.append_nil]
  · rw [nothing hlen.symm, List.append_nil]

/-! ### Between two places -/

/-- What stands between two places is cut into the words, whatever may stand behind it instead. -/
def Reads (c d : Cursor) (words : List Word) : Prop :=
  ∃ text, c.rest = text ++ d.rest ∧ d.offset = c.offset + Text.byteLength text ∧
    ∀ ⦃rest : List Char⦄ ⦃ws : List Word⦄, Fits d.rest rest → Cut rest ws → Cut (text ++ rest) (words ++ ws)

section Reads
variable {c m d : Cursor} {words words' : List Word}

theorem Reads.refl (c : Cursor) : Reads c c [] :=
  ⟨[], rfl, rfl, fun _ _ _ h => h⟩

theorem Reads.trans (h : Reads c m words) (h' : Reads m d words') : Reads c d (words ++ words') := by
  obtain ⟨text, hrest, hoffset, hcut⟩ := h
  obtain ⟨text', hrest', hoffset', hcut'⟩ := h'
  refine ⟨text ++ text', ?_, ?_, fun rest ws hfits hws => ?_⟩
  · rw [List.append_assoc, ← hrest', hrest]
  · rw [hoffset', hoffset, Text.byteLength_append, Nat.add_assoc]
  · rw [List.append_assoc, List.append_assoc]
    exact hcut (hrest' ▸ hfits.append text') (hcut' hfits hws)

theorem Reads.skip (h : Reads c.skipLayout d words) : Reads c d words := by
  have hgap : Reads c c.skipLayout [] :=
    ⟨c.rest.takeWhile isLayout, (List.takeWhile_append_dropWhile).symm, rfl, fun _ _ _ hws =>
      cut_layout (layout_takeWhile c.rest) hws⟩
  exact hgap.trans h

theorem reads_word {w : Word} {text : List Char} (hrest : c.rest = text ++ d.rest)
    (hoffset : d.offset = c.offset + Text.byteLength text) (hs : w.SpelledAs text) (he : w.EndsBefore d.rest) :
    Reads c d [w] :=
  ⟨text, hrest, hoffset, fun _ _ hfits hws => cut_append hs (he.fits hfits) hws⟩

theorem Reads.cut (h : Reads c d words) {ws : List Word} (hd : Cut d.rest ws) : Cut c.rest (words ++ ws) := by
  obtain ⟨text, hrest, -, hcut⟩ := h
  rw [hrest]
  exact hcut (.refl _) hd

end Reads

end EntityQuery.Language
