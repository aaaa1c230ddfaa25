import EntityQuery.Event
import EntityQuery.Proofs.Language.Scan

/-! # Matching without an account of failures

What a pattern reads does not depend on the failures noted before (`run_fst`). `Pattern.match?` is the
part of `run` that reads; each way to combine patterns has one equivalence for it. A repetition reads
until its pattern fails (`Repeats`), as long as the pattern takes at least one character each time. -/

namespace EntityQuery.Grammar

/-! ### Places -/

namespace Cursor

/-- The second place is reached from the first by taking some characters. -/
def Reaches (c d : Cursor) : Prop :=
  ∃ taken, c.rest = taken ++ d.rest ∧ d.offset = c.offset + Text.byteLength taken

theorem Reaches.refl (c : Cursor) : c.Reaches c :=
  ⟨[], rfl, rfl⟩

theorem Reaches.trans {c d e : Cursor} (h₁ : c.Reaches d) (h₂ : d.Reaches e) : c.Reaches e := by
  obtain ⟨t₁, hr₁, ho₁⟩ := h₁
  obtain ⟨t₂, hr₂, ho₂⟩ := h₂
  refine ⟨t₁ ++ t₂, ?_, ?_⟩
  · rw [hr₁, hr₂, List.append_assoc]
  · rw [ho₂, ho₁, Text.byteLength_append, Nat.add_assoc]

theorem Reaches.length_le {c d : Cursor} (h : c.Reaches d) : d.rest.length ≤ c.rest.length := by
  obtain ⟨t, hr, -⟩ := h
  rw [hr, List.length_append]
  exact Nat.le_add_left _ _

theorem Reaches.offset_le {c d : Cursor} (h : c.Reaches d) : c.offset ≤ d.offset := by
  obtain ⟨t, -, ho⟩ := h
  rw [ho]
  exact Nat.le_add_right _ _

theorem Reaches.offset_lt {c d : Cursor} (h : c.Reaches d) (hl : d.rest.length < c.rest.length) :
    c.offset < d.offset := by
  obtain ⟨t, hr, ho⟩ := h
  cases t with
  | nil =>
    rw [hr] at hl
    exact absurd hl (Nat.lt_irrefl _)
  | cons a t =>
    rw [ho, Text.byteLength_cons]
    have := a.utf8Size_pos
    omega

theorem reaches_skipLayout (c : Cursor) : c.Reaches c.skipLayout :=
  ⟨c.rest.takeWhile isLayout, (List.takeWhile_append_dropWhile).symm, rfl⟩

theorem skipLayout_skipLayout (c : Cursor) : c.skipLayout.skipLayout = c.skipLayout := by
  have hnil : (c.rest.dropWhile isLayout).takeWhile isLayout = [] := by
    cases h : c.rest.dropWhile isLayout with
    | nil => rfl
    | cons d ds =>
      have hd : isLayout d = false := Language.head?_dropWhile_eq_false d (h ▸ rfl : d ∈ (c.rest.dropWhile isLayout).head?)
      simp [hd]
  have hdrop := List.takeWhile_append_dropWhile (p := isLayout) (l := c.rest.dropWhile isLayout)
  rw [hnil, List.nil_append] at hdrop
  show Cursor.mk (_ + Text.byteLength (List.takeWhile isLayout (c.rest.dropWhile isLayout)))
    (List.dropWhile isLayout (c.rest.dropWhile isLayout)) = _
  rw [hnil, hdrop]
  rfl

theorem symbol?_eq_some_iff {c d : Cursor} {s : List Char} :
    c.symbol? s = some d ↔ c.rest = s ++ d.rest ∧ d.offset = c.offset + Text.byteLength s := by
  rw [symbol?, Option.map_eq_some_iff]
  constructor
  · rintro ⟨rest, hrest, rfl⟩
    exact ⟨Text.expect_eq_some_iff.mp hrest, rfl⟩
  · rintro ⟨hrest, hoffset⟩
    exact ⟨d.rest, Text.expect_eq_some_iff.mpr hrest, by rw [← hoffset]⟩

theorem word?_eq_some_iff {c d : Cursor} {l : Lexeme} {t : Token} :
    c.word? l = some (t, d) ↔ ∃ text, l.scan c.rest = some (text, d.rest) ∧
      t = { offset := c.offset, text := String.ofList text } ∧
      d.offset = c.offset + Text.byteLength text := by
  rw [word?, Option.map_eq_some_iff]
  constructor
  · rintro ⟨⟨text, rest⟩, hscan, heq⟩
    obtain ⟨rfl, rfl⟩ := Prod.mk.inj heq
    exact ⟨text, hscan, rfl, rfl⟩
  · rintro ⟨text, hscan, rfl, ho⟩
    refine ⟨(text, d.rest), hscan, ?_⟩
    dsimp only
    rw [← ho]

end Cursor

namespace Pattern
variable {α β : Type}

/-! ### Reading -/

/-- What `repeated` reads, without the failures that it notes. -/
def repeatWhile (step : Cursor → Option (α × Cursor)) : Nat → Cursor → List α × Cursor
  | 0, c => ([], c)
  | fuel + 1, c =>
    match step c.skipLayout with
    | none => ([], c)
    | some (a, d) => (a :: (repeatWhile step fuel d).1, (repeatWhile step fuel d).2)

/-- Matches a pattern at a place, as `run` does, and notes no failures. -/
def match? {α : Type} : Pattern α → Cursor → Option (α × Cursor)
  | .nothing, c => some ((), c)
  | .finish, c => if c.rest.isEmpty then some ((), c) else none
  | .symbol s, c => (c.symbol? s.toList).map ({ offset := c.offset, text := s }, ·)
  | .word l, c => c.word? l
  | .seq first second, c =>
    (first.match? c).bind fun r => (second.match? r.2.skipLayout).map fun r' => ((r.1, r'.1), r'.2)
  | .orElse first second, c => (first.match? c).or (second.match? c)
  | .optional p, c =>
    match p.match? c with
    | some (a, d) => some (some a, d)
    | none => some (none, c)
  | .many p, c => some (repeatWhile p.match? (c.rest.length + 1) c)
  | .map f p, c => (p.match? c).map fun r => (f r.1, r.2)
  | .named _ p, c => p.match? c

section Equations
variable {c : Cursor}

theorem match?_seq {first : Pattern α} {second : Pattern β} : (first.seq second).match? c =
    (first.match? c).bind fun r => (second.match? r.2.skipLayout).map fun r' => ((r.1, r'.1), r'.2) := rfl

theorem match?_orElse {first second : Pattern α} :
    (first.orElse second).match? c = (first.match? c).or (second.match? c) := rfl

theorem match?_optional {p : Pattern α} : p.optional.match? c =
    match p.match? c with
    | some (a, d) => some (some a, d)
    | none => some (none, c) := rfl

theorem match?_many {p : Pattern α} :
    p.many.match? c = some (repeatWhile p.match? (c.rest.length + 1) c) := rfl

theorem match?_map {f : α → β} {p : Pattern α} :
    (map f p).match? c = (p.match? c).map fun r => (f r.1, r.2) := rfl

theorem match?_named {rule : Rule} {p : Pattern α} : (named rule p).match? c = p.match? c := rfl

end Equations

theorem named_fst (rule : Rule) (position : Nat) (before : Attempts) (r : Result α) :
    (r.named rule position before).1 = r.1 := by
  obtain ⟨o, t⟩ := r
  cases o <;> rfl

theorem repeated_eq {step : Cursor → Attempts → Result α} {step' : Cursor → Option (α × Cursor)}
    (h : ∀ c t, (step c t).1 = step' c) (fuel : Nat) (c : Cursor) (t : Attempts) :
    ((repeated step fuel c t).1, (repeated step fuel c t).2.1) = repeatWhile step' fuel c := by
  induction fuel generalizing c t with
  | zero => rfl
  | succ fuel ih =>
    rw [repeated, repeatWhile, ← h c.skipLayout t]
    rcases step c.skipLayout t with ⟨_ | ⟨a, d⟩, t'⟩
    · rfl
    · dsimp only
      rw [← ih d t']

/-- The failures noted before do not change what is read. -/
theorem run_fst (p : Pattern α) (c : Cursor) (t : Attempts) : (p.run c t).1 = p.match? c := by
  induction p generalizing c t with
  | nothing => rfl
  | finish => rfl
  | symbol s => rfl
  | word l => exact named_fst ..
  | seq first second ih₁ ih₂ =>
    rw [run, match?_seq, ← ih₁ c t]
    rcases first.run c t with ⟨_ | ⟨a, d⟩, t'⟩
    · rfl
    · dsimp only
      rw [Option.bind_some, ← ih₂ d.skipLayout t']
      rcases second.run d.skipLayout t' with ⟨_ | ⟨b, e⟩, t''⟩ <;> rfl
  | orElse first second ih₁ ih₂ =>
    rw [run, match?_orElse, ← ih₁ c t]
    rcases first.run c t with ⟨_ | ⟨a, d⟩, t'⟩
    · rw [Option.none_or, ← ih₂ c t']
    · rfl
  | optional p ih =>
    rw [run, match?_optional, ← ih c t]
    rcases p.run c t with ⟨_ | ⟨a, d⟩, t'⟩ <;> rfl
  | many p ih =>
    rw [run, match?_many, ← repeated_eq ih _ c t]
  | map f p ih =>
    rw [run, match?_map, ← ih c t]
    rcases p.run c t with ⟨_ | ⟨a, d⟩, t'⟩ <;> rfl
  | named rule p ih =>
    rw [run, match?_named, ← ih c t]
    exact named_fst ..

/-! ### One equivalence for each combination -/

section Combinations
variable {c d : Cursor}

theorem match?_seq_eq_some_iff {first : Pattern α} {second : Pattern β} {a : α} {b : β} :
    (first.seq second).match? c = some ((a, b), d) ↔
      ∃ m, first.match? c = some (a, m) ∧ second.match? m.skipLayout = some (b, d) := by
  rw [match?_seq]
  constructor
  · intro h
    obtain ⟨⟨a', m⟩, ha, h⟩ := Option.bind_eq_some_iff.mp h
    obtain ⟨⟨b', e⟩, hb, h⟩ := Option.map_eq_some_iff.mp h
    simp only [Prod.mk.injEq] at h
    obtain ⟨⟨rfl, rfl⟩, rfl⟩ := h
    exact ⟨m, ha, hb⟩
  · rintro ⟨m, ha, hb⟩
    rw [ha, Option.bind_some, hb]
    rfl

theorem match?_map_eq_some_iff {f : α → β} {p : Pattern α} {b : β} :
    (map f p).match? c = some (b, d) ↔ ∃ a, p.match? c = some (a, d) ∧ f a = b := by
  rw [match?_map, Option.map_eq_some_iff]
  constructor
  · rintro ⟨⟨a, e⟩, ha, h⟩
    obtain ⟨rfl, rfl⟩ := Prod.mk.inj h
    exact ⟨a, ha, rfl⟩
  · rintro ⟨a, ha, rfl⟩
    exact ⟨(a, d), ha, rfl⟩

theorem match?_map_eq_none_iff {f : α → β} {p : Pattern α} :
    (map f p).match? c = none ↔ p.match? c = none := by
  rw [match?_map, Option.map_eq_none_iff]

theorem match?_andThen_eq_some_iff {first : Pattern α} {second : Pattern β} {b : β} :
    (first.andThen second).match? c = some (b, d) ↔
      ∃ a m, first.match? c = some (a, m) ∧ second.match? m.skipLayout = some (b, d) := by
  rw [andThen, match?_map_eq_some_iff]
  constructor
  · rintro ⟨⟨a, b'⟩, h, rfl⟩
    obtain ⟨m, ha, hb⟩ := match?_seq_eq_some_iff.mp h
    exact ⟨a, m, ha, hb⟩
  · rintro ⟨a, m, ha, hb⟩
    exact ⟨(a, b), match?_seq_eq_some_iff.mpr ⟨m, ha, hb⟩, rfl⟩

theorem match?_followedBy_eq_some_iff {first : Pattern α} {second : Pattern β} {a : α} :
    (first.followedBy second).match? c = some (a, d) ↔
      ∃ m b, first.match? c = some (a, m) ∧ second.match? m.skipLayout = some (b, d) := by
  rw [followedBy, match?_map_eq_some_iff]
  constructor
  · rintro ⟨⟨a', b⟩, h, rfl⟩
    obtain ⟨m, ha, hb⟩ := match?_seq_eq_some_iff.mp h
    exact ⟨m, b, ha, hb⟩
  · rintro ⟨m, b, ha, hb⟩
    exact ⟨(a, b), match?_seq_eq_some_iff.mpr ⟨m, ha, hb⟩, rfl⟩

theorem match?_seq_eq_none {first : Pattern α} {second : Pattern β} (h : first.match? c = none) :
    (first.seq second).match? c = none := by
  rw [match?_seq, h, Option.bind_none]

theorem match?_orElse_eq_some_iff {first second : Pattern α} {a : α} :
    (first.orElse second).match? c = some (a, d) ↔
      first.match? c = some (a, d) ∨ first.match? c = none ∧ second.match? c = some (a, d) := by
  rw [match?_orElse, Option.or_eq_some_iff]

theorem match?_orElse_eq_none_iff {first second : Pattern α} :
    (first.orElse second).match? c = none ↔ first.match? c = none ∧ second.match? c = none := by
  rw [match?_orElse, Option.or_eq_none_iff]

theorem match?_optional_eq_some_iff {p : Pattern α} {o : Option α} :
    p.optional.match? c = some (o, d) ↔
      (∃ a, o = some a ∧ p.match? c = some (a, d)) ∨ o = none ∧ d = c ∧ p.match? c = none := by
  rw [match?_optional]
  cases h : p.match? c with
  | none => simp [eq_comm]
  | some r =>
    obtain ⟨a, e⟩ := r
    constructor
    · intro h'
      obtain ⟨rfl, rfl⟩ := Prod.mk.inj (Option.some.inj h')
      exact Or.inl ⟨a, rfl, rfl⟩
    · rintro (⟨b, rfl, hb⟩ | ⟨-, -, hn⟩)
      · obtain ⟨rfl, rfl⟩ := Prod.mk.inj (Option.some.inj hb)
        rfl
      · cases hn

end Combinations

/-! ### What is taken -/

theorem repeatWhile_reaches {step : Cursor → Option (α × Cursor)}
    (h : ∀ {c a d}, step c = some (a, d) → c.Reaches d) (fuel : Nat) (c : Cursor) :
    c.Reaches (repeatWhile step fuel c).2 := by
  induction fuel generalizing c with
  | zero => exact .refl c
  | succ fuel ih =>
    rw [repeatWhile]
    split
    · exact .refl c
    · rename_i a d hs
      exact (c.reaches_skipLayout.trans (h hs)).trans (ih d)

theorem match?_reaches {p : Pattern α} {c d : Cursor} {a : α} (h : p.match? c = some (a, d)) :
    c.Reaches d := by
  induction p generalizing c d with
  | nothing =>
    obtain ⟨-, rfl⟩ := Prod.mk.inj (Option.some.inj h)
    exact .refl c
  | finish =>
    obtain ⟨-, h⟩ := Option.ite_none_right_eq_some.mp h
    obtain ⟨-, rfl⟩ := Prod.mk.inj (Option.some.inj h)
    exact .refl c
  | symbol s =>
    obtain ⟨e, he, heq⟩ := Option.map_eq_some_iff.mp h
    obtain ⟨-, rfl⟩ := Prod.mk.inj heq
    exact ⟨_, Cursor.symbol?_eq_some_iff.mp he⟩
  | word l =>
    obtain ⟨text, hscan, -, ho⟩ := Cursor.word?_eq_some_iff.mp h
    exact ⟨text, (Language.scan_append hscan).1, ho⟩
  | seq first second ih₁ ih₂ =>
    obtain ⟨m, h₁, h₂⟩ := match?_seq_eq_some_iff.mp h
    exact ((ih₁ h₁).trans m.reaches_skipLayout).trans (ih₂ h₂)
  | orElse first second ih₁ ih₂ =>
    rcases match?_orElse_eq_some_iff.mp h with h | ⟨-, h⟩
    · exact ih₁ h
    · exact ih₂ h
  | optional p ih =>
    rcases match?_optional_eq_some_iff.mp h with ⟨b, -, h⟩ | ⟨-, rfl, -⟩
    · exact ih h
    · exact .refl d
  | many p ih =>
    have hd : (repeatWhile p.match? (c.rest.length + 1) c).2 = d := congrArg Prod.snd (Option.some.inj h)
    rw [← hd]
    exact repeatWhile_reaches ih _ c
  | map f p ih =>
    obtain ⟨b, h, -⟩ := match?_map_eq_some_iff.mp h
    exact ih h
  | named rule p ih => exact ih h

/-- The pattern takes at least one character. -/
def Takes (p : Pattern α) : Prop :=
  ∀ ⦃c d : Cursor⦄ ⦃a : α⦄, p.match? c = some (a, d) → d.rest.length < c.rest.length

theorem takes_symbol {s : String} (hs : s.toList ≠ []) : (symbol s).Takes := by
  intro c d a h
  obtain ⟨e, he, heq⟩ := Option.map_eq_some_iff.mp h
  obtain ⟨-, rfl⟩ := Prod.mk.inj heq
  rw [(Cursor.symbol?_eq_some_iff.mp he).1, List.length_append]
  have := List.length_pos_iff.mpr hs
  omega

theorem takes_word (l : Lexeme) : (word l).Takes := by
  intro c d a h
  obtain ⟨text, hscan, -, -⟩ := Cursor.word?_eq_some_iff.mp h
  obtain ⟨hr, hne⟩ := Language.scan_append hscan
  rw [hr, List.length_append]
  have := List.length_pos_iff.mpr hne
  omega

theorem Takes.map {p : Pattern α} {f : α → β} (hp : p.Takes) : (Pattern.map f p).Takes := by
  intro c d b h
  obtain ⟨a, h, -⟩ := match?_map_eq_some_iff.mp h
  exact hp h

theorem Takes.seq {first : Pattern α} {second : Pattern β} (hp : first.Takes) :
    (first.seq second).Takes := by
  rintro c d ⟨a, b⟩ h
  obtain ⟨m, h₁, h₂⟩ := match?_seq_eq_some_iff.mp h
  have h₃ := (m.reaches_skipLayout.trans (match?_reaches h₂)).length_le
  exact Nat.lt_of_le_of_lt h₃ (hp h₁)

theorem Takes.andThen {first : Pattern α} {second : Pattern β} (hp : first.Takes) :
    (first.andThen second).Takes :=
  hp.seq.map

theorem Takes.orElse {first second : Pattern α} (h₁ : first.Takes) (h₂ : second.Takes) :
    (first.orElse second).Takes := by
  intro c d a h
  rcases match?_orElse_eq_some_iff.mp h with h | ⟨-, h⟩
  · exact h₁ h
  · exact h₂ h

theorem Takes.named {p : Pattern α} (rule : Rule) (hp : p.Takes) : (Pattern.named rule p).Takes :=
  fun _ _ _ h => hp h

/-! ### Repetitions -/

/-- From the first place on the pattern reads the items one after the other, with layout before each,
    and then fails behind the last one. -/
inductive Repeats (p : Pattern α) : Cursor → List α → Cursor → Prop
  | stop {c : Cursor} : p.match? c.skipLayout = none → Repeats p c [] c
  | more {c d e : Cursor} {a : α} {items : List α} : p.match? c.skipLayout = some (a, d) →
      Repeats p d items e → Repeats p c (a :: items) e

theorem Repeats.eq {p : Pattern α} {c d : Cursor} {items : List α} (h : Repeats p c items d) :
    ∀ {items' : List α} {d' : Cursor}, Repeats p c items' d' → items' = items ∧ d' = d := by
  induction h with
  | stop hs =>
    intro items' d' h'
    cases h' with
    | stop => exact ⟨rfl, rfl⟩
    | more hm => rw [hs] at hm; cases hm
  | more hs _ ih =>
    intro items' d' h'
    cases h' with
    | stop hn => rw [hs] at hn; cases hn
    | more hm hr =>
      rw [hs] at hm
      obtain ⟨rfl, rfl⟩ := Prod.mk.inj (Option.some.inj hm)
      obtain ⟨rfl, rfl⟩ := ih hr
      exact ⟨rfl, rfl⟩

theorem repeats_repeatWhile {p : Pattern α} (hp : p.Takes) (fuel : Nat) (c : Cursor)
    (hfuel : c.rest.length < fuel) :
    Repeats p c (repeatWhile p.match? fuel c).1 (repeatWhile p.match? fuel c).2 := by
  induction fuel generalizing c with
  | zero => exact absurd hfuel (Nat.not_lt_zero _)
  | succ fuel ih =>
    rw [repeatWhile]
    split
    · exact .stop ‹_›
    · rename_i a d hs
      have hd : d.rest.length < c.skipLayout.rest.length := hp hs
      have hc := c.reaches_skipLayout.length_le
      exact .more hs (ih d (by omega))

theorem match?_many_eq_some_iff {p : Pattern α} (hp : p.Takes) {c d : Cursor} {items : List α} :
    p.many.match? c = some (items, d) ↔ Repeats p c items d := by
  have hrun := repeats_repeatWhile hp (c.rest.length + 1) c (Nat.lt_succ_self _)
  constructor
  · intro h
    have hr : repeatWhile p.match? (c.rest.length + 1) c = (items, d) := Option.some.inj h
    rw [hr] at hrun
    exact hrun
  · intro h
    obtain ⟨h₁, h₂⟩ := h.eq hrun
    exact congrArg some (Prod.ext h₁ h₂)

/-! ### Whole texts -/

theorem read_eq_ok_iff {p : Pattern α} {text : String} {a : α} :
    p.read text = .ok a ↔ ∃ d, p.match? (Cursor.start text) = some (a, d) := by
  rw [read, ← run_fst p _ Attempts.none]
  rcases p.run (Cursor.start text) Attempts.none with ⟨_ | ⟨b, d⟩, t⟩
  · simp
  · simp

end Pattern

/-- A pattern takes the whole text when nothing but layout is left behind it. -/
theorem match?_whole_eq_some_iff {α : Type} {rule : Rule} {p : Pattern α} {c d : Cursor} {a : α} :
    (whole rule p).match? c = some (a, d) ↔
      ∃ m, p.match? c.skipLayout = some (a, m) ∧ m.skipLayout.rest = [] ∧ d = m.skipLayout := by
  rw [whole, Pattern.match?_named, Pattern.match?_andThen_eq_some_iff]
  constructor
  · rintro ⟨u, n, hn, h⟩
    obtain ⟨-, rfl⟩ := Prod.mk.inj (Option.some.inj hn)
    obtain ⟨m, b, hm, hf⟩ := Pattern.match?_followedBy_eq_some_iff.mp h
    obtain ⟨hnil, hf⟩ := Option.ite_none_right_eq_some.mp hf
    obtain ⟨-, rfl⟩ := Prod.mk.inj (Option.some.inj hf)
    exact ⟨m, hm, List.isEmpty_iff.mp hnil, rfl⟩
  · rintro ⟨m, hm, hnil, rfl⟩
    refine ⟨(), c, rfl, Pattern.match?_followedBy_eq_some_iff.mpr ⟨m, (), hm, ?_⟩⟩
    exact Option.ite_none_right_eq_some.mpr ⟨List.isEmpty_iff.mpr hnil, rfl⟩

end EntityQuery.Grammar
