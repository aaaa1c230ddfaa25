import EntityQuery.Proofs.Language.Recognise

/-! # Where the words of a text stand

A cut text has its words at bytes of its own: no word is empty, so each stands behind the one before it
(`Placed.pairwise`), and it is what the text goes on with there (`Placed.split`). What a pattern reads
between two places lies at the same bytes whatever stands behind it (`Lays`). -/

namespace EntityQuery.Language
open Grammar

/-- A text from the byte `start` on is a row of words, each with the byte at which it stands. -/
inductive Placed : Nat → List Char → List (Nat × Word) → Prop
  | done {start : Nat} {gap : List Char} : Layout gap → Placed start gap []
  | word {start : Nat} {gap cs rest : List Char} {w : Word} {ps : List (Nat × Word)} : Layout gap →
      w.SpelledAs cs → w.EndsBefore rest → Placed (start + Text.byteLength gap + Text.byteLength cs) rest ps →
      Placed start (gap ++ cs ++ rest) ((start + Text.byteLength gap, w) :: ps)

section Placed
variable {start : Nat} {cs : List Char} {ws : List Word} {ps : List (Nat × Word)}

theorem Placed.cut (h : Placed start cs ps) : Cut cs (ps.map Prod.snd) := by
  induction h with
  | done hg => exact .done hg
  | word hg hs he _ ih => exact .word hg hs he ih

theorem exists_placed (h : Cut cs ws) (start : Nat) : ∃ ps, ps.map Prod.snd = ws ∧ Placed start cs ps := by
  induction h generalizing start with
  | done hg => exact ⟨[], rfl, .done hg⟩
  | @word gap cs rest w ws hg hs he _ ih =>
    obtain ⟨ps, rfl, hps⟩ := ih (start + Text.byteLength gap + Text.byteLength cs)
    exact ⟨_, rfl, .word hg hs he hps⟩

theorem byteLength_pos_of_spelledAs {w : Word} {text : List Char} (h : w.SpelledAs text) :
    0 < Text.byteLength text := by
  obtain ⟨c, tail, rfl, -⟩ := mayBegin_of_spelledAs h
  exact Text.byteLength_pos (List.cons_ne_nil c tail)

/-- A placed word is a piece of the text, behind as many bytes as its place says. -/
theorem Placed.split (h : Placed start cs ps) {p : Nat × Word} (hp : p ∈ ps) :
    ∃ before text after, cs = before ++ (text ++ after) ∧ p.1 = start + Text.byteLength before ∧
      p.2.SpelledAs text ∧ p.2.EndsBefore after := by
  induction h with
  | done _ => cases hp
  | @word start gap cs rest w ps hg hs he _ ih =>
    rcases List.mem_cons.mp hp with rfl | hp
    · exact ⟨gap, cs, rest, List.append_assoc .., rfl, hs, he⟩
    · obtain ⟨before, text, after, rfl, hstart, hspelled⟩ := ih hp
      refine ⟨gap ++ cs ++ before, text, after, by simp only [List.append_assoc], ?_, hspelled⟩
      rw [hstart, Text.byteLength_append, Text.byteLength_append]
      omega

theorem Placed.le (h : Placed start cs ps) {p : Nat × Word} (hp : p ∈ ps) : start ≤ p.1 := by
  obtain ⟨before, _, _, -, hstart, -⟩ := h.split hp
  omega

/-- The words stand one behind the other. -/
theorem Placed.pairwise (h : Placed start cs ps) : (ps.map Prod.fst).Pairwise (· < ·) := by
  induction h with
  | done _ => exact .nil
  | word _ hs _ hrest ih =>
    refine List.pairwise_cons.mpr ⟨fun offset hoffset => ?_, ih⟩
    obtain ⟨p, hp, rfl⟩ := List.mem_map.mp hoffset
    have hle := hrest.le hp
    have hpos := byteLength_pos_of_spelledAs hs
    omega

theorem placed_layout {gap : List Char} (hg : Layout gap) (h : Placed (start + Text.byteLength gap) cs ps) :
    Placed start (gap ++ cs) ps := by
  have both : ∀ {gap' : List Char}, Layout gap' → Layout (gap ++ gap') :=
    fun hg' c hc => (List.mem_append.mp hc).elim (hg c) (hg' c)
  cases h with
  | done hg' => exact .done (both hg')
  | @word _ gap' cs rest w ps hg' hs he hrest =>
    rw [Nat.add_assoc start, ← Text.byteLength_append] at hrest ⊢
    rw [← List.append_assoc, ← List.append_assoc]
    exact .word (both hg') hs he hrest

/-! ### Words behind words -/

theorem spelled_length {w : Word} {text text' : List Char} (h : w.SpelledAs text) (h' : w.SpelledAs text') :
    text.length = text'.length := by
  cases w with
  | keyword k =>
    have hlength := congrArg List.length ((show text.map Char.toLower = _ from h).trans h'.symm)
    rwa [List.length_map, List.length_map] at hlength
  | star => rw [show text = ['*'] from h, show text' = ['*'] from h']
  | comma => rw [show text = [','] from h, show text' = [','] from h']
  | sign o => rw [h.2, h'.2]
  | name n => rw [h.2, h'.2]
  | count ds => rw [h.2, h'.2]
  | literal l => rw [h.2, h'.2]

/-- Where two texts together are cut into the words of both, the words stand at the bytes at which they
    stand in each of them. -/
theorem Placed.append (h : Placed start cs ps) {rest : List Char} {qs : List (Nat × Word)}
    (hcut : Cut (cs ++ rest) (ps.map Prod.snd ++ qs.map Prod.snd))
    (hqs : Placed (start + Text.byteLength cs) rest qs) : Placed start (cs ++ rest) (ps ++ qs) := by
  induction h with
  | done hg => exact placed_layout hg hqs
  | @word start gap cs more w ps hg hs _ _ ih =>
    obtain ⟨text, after, hskip, hs', he', hafter⟩ := cut_cons_iff.mp hcut
    rw [List.append_assoc, List.append_assoc, skip_append_of_layout hg, skip_spelled hs] at hskip
    obtain ⟨rfl, rfl⟩ := List.append_inj hskip (spelled_length hs hs')
    have hnext : start + Text.byteLength gap + Text.byteLength cs + Text.byteLength more =
        start + Text.byteLength (gap ++ cs ++ more) := by
      rw [Text.byteLength_append, Text.byteLength_append]
      omega
    rw [List.append_assoc]
    exact .word hg hs he' (ih hafter (hnext ▸ hqs))

end Placed

/-! ### Between two places -/

/-- What stands between two places is a row of words at these bytes, whatever words stand behind it. -/
def Lays (c d : Cursor) (ps : List (Nat × Word)) : Prop :=
  ∀ ⦃qs : List (Nat × Word)⦄, Placed d.offset d.rest qs → Placed c.offset c.rest (ps ++ qs)

section Lays
variable {c m d : Cursor} {ps qs : List (Nat × Word)}

theorem Lays.refl (c : Cursor) : Lays c c [] :=
  fun _ h => h

theorem Lays.trans (h : Lays c m ps) (h' : Lays m d qs) : Lays c d (ps ++ qs) := by
  intro rs hrs
  rw [List.append_assoc]
  exact h (h' hrs)

theorem Lays.skip (h : Lays c.skipLayout d ps) : Lays c d ps := by
  intro qs hqs
  have hplaced := placed_layout (layout_takeWhile c.rest) (h hqs)
  rwa [show c.rest.takeWhile isLayout ++ c.skipLayout.rest = c.rest from List.takeWhile_append_dropWhile] at hplaced

theorem lays_word {w : Word} {text : List Char} (hrest : c.rest = text ++ d.rest)
    (hoffset : d.offset = c.offset + Text.byteLength text) (hs : w.SpelledAs text) (he : w.EndsBefore d.rest) :
    Lays c d [(c.offset, w)] := by
  intro qs hqs
  have h := Placed.word layout_nil hs he (hoffset ▸ hqs : Placed (c.offset + 0 + _) _ _)
  rw [List.nil_append, ← hrest] at h
  exact h

/-- What is read between two places has a byte for each word. -/
theorem Reads.lays {ws : List Word} (h : Reads c d ws) : ∃ ps, ps.map Prod.snd = ws ∧ Lays c d ps := by
  obtain ⟨text, hrest, hoffset, hcut⟩ := h
  have halone : Cut text ws := by
    have h := @hcut [] _ (Or.inr Free.nil) (.done layout_nil)
    rwa [List.append_nil, List.append_nil] at h
  obtain ⟨ps, rfl, hps⟩ := exists_placed halone c.offset
  refine ⟨ps, rfl, fun qs hqs => ?_⟩
  rw [hrest]
  rw [hoffset] at hqs
  exact hps.append (hcut (.refl _) hqs.cut) hqs

end Lays

end EntityQuery.Language
