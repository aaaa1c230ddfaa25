import EntityQuery.Proofs.Language.Attempts

/-! # Whole texts and their errors

A whole text is read, or the account of the pattern up to the end of the text says what is wrong with it
(`read_whole`). A statement that is refused behind its keyword leaves nothing of the failures noted before
(`account_closed_led`). So in a choice of two statements the one without its keyword makes no difference, whether
it is tried first or left for last. -/

namespace EntityQuery.Grammar.Pattern
variable {α β : Type} {c d : Cursor} {t : Attempts}

/-! ### Up to the end -/

/-- The end of a text, under its name. -/
def ending : Pattern Unit :=
  .named .endOfInput .finish

/-- The pattern up to the end of the text. -/
def closed (p : Pattern α) : Pattern α :=
  p.followedBy ending

section Closed
variable {p : Pattern α} {a : α}

theorem match?_closed_of_none (h : p.match? c = none) : p.closed.match? c = none :=
  match?_map_eq_none_iff.mpr (match?_seq_eq_none h)

theorem match?_closed_of_some (h : p.match? c = some (a, d)) :
    p.closed.match? c = (ending.match? d.skipLayout).map fun r => (a, r.2) := by
  rw [closed, followedBy, match?_map, match?_seq, h, Option.bind_some, Option.map_map]
  rfl

theorem account_closed_of_none (h : p.match? c = none) : p.closed.account c t = p.account c t := by
  rw [closed, followedBy, account_map, account_seq, h]

theorem account_closed_of_some (h : p.match? c = some (a, d)) :
    p.closed.account c t = ending.account d.skipLayout (p.account c t) := by
  rw [closed, followedBy, account_map, account_seq, h]

end Closed

theorem match?_whole (rule : Rule) (p : Pattern α) (text : String) :
    (whole rule p).match? (Cursor.start text) = p.closed.match? (Cursor.start text).skipLayout := by
  rw [whole, match?_named, andThen, match?_map, match?_seq]
  show ((p.closed.match? (Cursor.start text).skipLayout).map _).map _ = _
  cases p.closed.match? (Cursor.start text).skipLayout <;> rfl

theorem read_whole (rule : Rule) (p : Pattern α) (text : String) : (whole rule p).read text =
    outcome (p.closed.match? (Cursor.start text).skipLayout)
      ((p.closed.account (Cursor.start text).skipLayout .none).fail rule 0 0) := by
  have haccount : (nothing.andThen p.closed).account (Cursor.start text) Attempts.none =
      p.closed.account (Cursor.start text).skipLayout Attempts.none := by
    rw [andThen, account_map, account_seq]
    rfl
  rw [read_eq, match?_whole]
  cases h : p.closed.match? (Cursor.start text).skipLayout with
  | some r => rfl
  | none =>
    have hnone : (nothing.andThen p.closed).match? (Cursor.start text) = none := (match?_whole rule p text).trans h
    show outcome none ((named rule (nothing.andThen p.closed)).account (Cursor.start text) .none) = _
    rw [account_named_of_none hnone, haccount]
    rfl

/-! ### Statements

Both forms are a keyword and what follows it, under a name. -/

/-- A keyword and what follows it, under a name. -/
def led (rule : Rule) (k : Keyword) (f : α → β) (q : Pattern α) : Pattern β :=
  .named rule (((keyword k).andThen q).map f)

section Led
variable {k : Keyword} {q : Pattern α} {f : α → β} {rule : Rule} {m : Cursor} {token : Token}

theorem match?_led_of_none (hk : (keyword k).match? c = none) : (led rule k f q).match? c = none :=
  match?_map_eq_none_iff.mpr (match?_map_eq_none_iff.mpr (match?_seq_eq_none hk))

theorem match?_led (hk : (keyword k).match? c = some (token, m)) :
    (led rule k f q).match? c = (q.match? m.skipLayout).map fun r => (f r.1, r.2) := by
  rw [led, match?_named, match?_map, andThen, match?_map, match?_seq, hk, Option.bind_some]
  cases q.match? m.skipLayout <;> rfl

theorem account_led_of_none (hk : (keyword k).match? c = none) : (led rule k f q).account c t =
    (t.fail (.word (.keyword k)) c.offset (t.countAt c.offset)).fail rule c.offset (t.countAt c.offset) := by
  have hnone : (((keyword k).andThen q).map f).match? c = none :=
    match?_map_eq_none_iff.mpr (match?_map_eq_none_iff.mpr (match?_seq_eq_none hk))
  rw [led, account_named_of_none hnone, account_map, andThen, account_map, account_seq, hk, keyword, account_word,
    show (word (.keyword k)).match? c = none from hk]

theorem account_led (hk : (keyword k).match? c = some (token, m)) :
    (((keyword k).andThen q).map f).account c t = q.account m.skipLayout t := by
  rw [account_map, andThen, account_map, account_seq, hk, keyword, account_word,
    show (word (.keyword k)).match? c = some (token, m) from hk]

theorem account_led_of_refused (hk : (keyword k).match? c = some (token, m)) (hq : q.match? m.skipLayout = none) :
    (led rule k f q).account c t = (q.account m.skipLayout t).fail rule c.offset (t.countAt c.offset) := by
  have hnone : (led rule k f q).match? c = none := by rw [match?_led hk, hq, Option.map_none]
  rw [led, match?_named] at hnone
  rw [led, account_named_of_none hnone, account_led hk]

theorem account_led_of_read {r : α × Cursor} (hk : (keyword k).match? c = some (token, m))
    (hq : q.match? m.skipLayout = some r) : (led rule k f q).account c t = q.account m.skipLayout t := by
  have hsome : (led rule k f q).match? c = some (f r.1, r.2) := by rw [match?_led hk, hq, Option.map_some]
  rw [led, match?_named] at hsome
  rw [led, account_named_of_some hsome, account_led hk]

theorem account_led_none (hk : (keyword k).match? c = none) :
    (led rule k f q).account c .none = { position := c.offset, rules := [.word (.keyword k)] } := by
  have hcount : Attempts.none.countAt c.offset = 0 := ite_self 0
  rw [account_led_of_none hk, hcount, Attempts.none_fail, Attempts.fail_single]

/-- Behind its keyword a statement that is refused leaves nothing of the failures before it. -/
theorem account_closed_led {a b : Attempts} (hk : (keyword k).match? c = some (token, m)) (hq : q.Noted)
    (hab : a.Agree (c.offset + 1) b) (hm : (led rule k f q).closed.match? c = none) :
    (led rule k f q).closed.account c a = (led rule k f q).closed.account c b ∧
      c.offset < ((led rule k f q).closed.account c a).position := by
  have hplace : c.offset + 1 ≤ m.skipLayout.offset :=
    Nat.le_trans ((match?_reaches hk).offset_lt (takes_word _ hk)) m.reaches_skipLayout.offset_le
  have hled : (led rule k f q).match? c = (q.match? m.skipLayout).map fun r => (f r.1, r.2) := match?_led hk
  cases hrest : q.match? m.skipLayout with
  -- What follows the keyword is refused, and the name of the statement is not noted any more.
  | none =>
    rw [hrest] at hled
    obtain ⟨heq, hlt⟩ := account_eq_of_refused hq hrest hplace hab
    rw [account_closed_of_none hled, account_closed_of_none hled, account_led_of_refused hk hrest,
      account_led_of_refused hk hrest, Attempts.fail_of_lt hlt, Attempts.fail_of_lt (heq ▸ hlt)]
    exact ⟨heq, hlt⟩
  -- The statement is read, and something else stands behind it.
  | some r =>
    rw [hrest] at hled
    have hend : ending.match? r.2.skipLayout = none := by
      rw [match?_closed_of_some hled] at hm
      exact Option.map_eq_none_iff.mp hm
    have hagree : ((led rule k f q).account c a).Agree (c.offset + 1) ((led rule k f q).account c b) := by
      rw [account_led_of_read hk hrest, account_led_of_read hk hrest]
      exact account_agree q hplace hab
    rw [account_closed_of_some hled, account_closed_of_some hled]
    exact account_eq_of_refused trivial hend
      (Nat.le_trans hplace ((match?_reaches hrest).trans r.2.reaches_skipLayout).offset_le) hagree

end Led

/-! ### Choices -/

section Choice
variable {γ : Type} {p : Pattern α} {q : Pattern β} {f : α → γ} {g : β → γ}

theorem match?_choice_first (hq : q.match? c = none) :
    ((p.map f).orElse (q.map g)).match? c = (p.match? c).map fun r => (f r.1, r.2) := by
  rw [match?_orElse, match?_map, match?_map, hq]
  exact Option.or_none

theorem match?_choice_second (hp : p.match? c = none) :
    ((p.map f).orElse (q.map g)).match? c = (q.match? c).map fun r => (g r.1, r.2) := by
  rw [match?_orElse, match?_map, match?_map, hp]
  exact Option.none_or

theorem account_choice_of_none (hp : p.match? c = none) :
    ((p.map f).orElse (q.map g)).account c t = q.account c (p.account c t) := by
  rw [account_orElse, account_map, account_map, match?_map, hp]
  rfl

theorem account_choice_of_some {r : α × Cursor} (hp : p.match? c = some r) :
    ((p.map f).orElse (q.map g)).account c t = p.account c t := by
  rw [account_orElse, match?_map, hp]
  exact account_map

variable {text : String} {rule rule' : Rule}

/-- A refused text is reported alike under two names once both runs go past its first word. -/
theorem read_whole_eq {r : Pattern γ} {h : α → γ} (hc : (Cursor.start text).skipLayout = c)
    (hmatch : r.match? c = (p.match? c).map fun x => (h x.1, x.2))
    (haccount : p.closed.match? c = none → r.closed.account c .none = p.closed.account c .none ∧
      c.offset < (p.closed.account c .none).position) :
    (whole rule r).read text = ((whole rule' p).read text).map h := by
  have hclosed : r.closed.match? c = (p.closed.match? c).map fun x => (h x.1, x.2) := by
    cases hp : p.match? c with
    | none =>
      rw [hp] at hmatch
      rw [match?_closed_of_none hp, match?_closed_of_none hmatch]
      rfl
    | some x =>
      rw [hp] at hmatch
      rw [match?_closed_of_some hp, match?_closed_of_some hmatch, Option.map_map]
      rfl
  rw [read_whole, read_whole, hc, hclosed]
  cases hm : p.closed.match? c with
  | some x => rfl
  | none =>
    obtain ⟨heq, hlt⟩ := haccount hm
    have hpos := Nat.zero_lt_of_lt hlt
    rw [heq, Attempts.fail_of_lt hpos, Attempts.fail_of_lt hpos]
    rfl

theorem read_choice_first (hc : (Cursor.start text).skipLayout = c) (hq : q.match? c = none)
    (hstay : ∀ t : Attempts, c.offset < t.position → q.account c t = t)
    (hlate : p.closed.match? c = none → c.offset < (p.closed.account c .none).position) :
    (whole rule ((p.map f).orElse (q.map g))).read text = ((whole rule' p).read text).map f := by
  have hmatch := match?_choice_first (f := f) (g := g) (p := p) hq
  refine read_whole_eq hc hmatch fun hm => ⟨?_, hlate hm⟩
  have hlt := hlate hm
  cases hp : p.match? c with
  | some x =>
    rw [hp] at hmatch
    rw [account_closed_of_some hmatch, account_closed_of_some hp, account_choice_of_some hp]
  | none =>
    rw [hp] at hmatch
    rw [account_closed_of_none hp] at hlt
    rw [account_closed_of_none hmatch, account_closed_of_none hp, account_choice_of_none hp, hstay _ hlt]

theorem read_choice_second (hc : (Cursor.start text).skipLayout = c) (hp : p.match? c = none)
    (hlate : q.closed.match? c = none → q.closed.account c (p.account c .none) = q.closed.account c .none ∧
      c.offset < (q.closed.account c .none).position) :
    (whole rule ((p.map f).orElse (q.map g))).read text = ((whole rule' q).read text).map g := by
  have hmatch := match?_choice_second (f := f) (g := g) (q := q) hp
  refine read_whole_eq hc hmatch fun hm => ⟨?_, (hlate hm).2⟩
  rw [← (hlate hm).1]
  cases hq : q.match? c with
  | some x =>
    rw [hq] at hmatch
    rw [account_closed_of_some hmatch, account_closed_of_some hq, account_choice_of_none hp]
  | none =>
    rw [hq] at hmatch
    rw [account_closed_of_none hmatch, account_closed_of_none hq, account_choice_of_none hp]

end Choice

end EntityQuery.Grammar.Pattern
