import EntityQuery.Proofs.Language.Match

/-! # What is left of earlier failures

A failure is forgotten as soon as another is noted further on. So where matching starts, nothing that was
noted at a smaller place matters any more once the pattern is refused (`account_eq_of_refused`): two runs that
differ in such failures only end with the same account, as long as what fails last has a name
(`Pattern.Noted`). -/

namespace EntityQuery.Grammar

namespace Attempts
variable {a b : Attempts} {rule : Rule} {place position earlier : Nat}

/-! ### One failure -/

theorem countAt_of_ne (h : a.position ≠ position) : a.countAt position = 0 :=
  if_neg h

theorem fail_of_lt (h : position < a.position) : a.fail rule position earlier = a := by
  rw [fail, countAt_of_ne (Nat.ne_of_gt h), if_neg (Nat.succ_ne_zero earlier).symm, if_pos h]

theorem fail_of_gt (h : a.position < position) : a.fail rule position earlier = { position, rules := [rule] } := by
  rw [fail, countAt_of_ne (Nat.ne_of_lt h), if_neg (Nat.succ_ne_zero earlier).symm, if_neg (Nat.lt_asymm h),
    if_neg (Nat.ne_of_gt h)]

theorem position_fail : (a.fail rule position earlier).position = max a.position position := by
  rcases Nat.lt_trichotomy position a.position with h | rfl | h
  · rw [fail_of_lt h, Nat.max_eq_left (Nat.le_of_lt h)]
  · rw [Nat.max_self, fail, if_neg (Nat.lt_irrefl a.position)]
    split
    · rfl
    · rw [if_pos rfl]
  · rw [fail_of_gt h, Nat.max_eq_right (Nat.le_of_lt h)]

theorem none_fail (rule : Rule) (position : Nat) :
    none.fail rule position 0 = { position, rules := [rule] } := by
  rcases Nat.eq_zero_or_pos position with rfl | h
  · rfl
  · exact fail_of_gt h

theorem fail_single (rule rule' : Rule) (position : Nat) :
    Attempts.fail { position, rules := [rule] } rule' position 0 = { position, rules := [rule] } := by
  rw [fail, countAt, if_pos rfl]
  exact if_pos rfl

/-- The fault that an account of failures gives. -/
def fault (t : Attempts) : Fault :=
  { offset := t.position, cause := .expected (Rule.sorted t.rules) }

/-! ### Two accounts -/

/-- Two accounts that differ in failures before a place at most. -/
def Agree (place : Nat) (a b : Attempts) : Prop :=
  a = b ∨ a.position < place ∧ b.position < place

theorem Agree.refl (place : Nat) (a : Attempts) : a.Agree place a :=
  Or.inl rfl

theorem Agree.countAt (h : a.Agree place b) (hp : place ≤ position) : a.countAt position = b.countAt position := by
  rcases h with rfl | ⟨ha, hb⟩
  · rfl
  · rw [countAt_of_ne (by omega), countAt_of_ne (by omega)]

theorem Agree.fail (h : a.Agree place b) (hp : place ≤ position) (rule : Rule) (earlier : Nat) :
    a.fail rule position earlier = b.fail rule position earlier := by
  rcases h with rfl | ⟨ha, hb⟩
  · rfl
  · rw [fail_of_gt (Nat.lt_of_lt_of_le ha hp), fail_of_gt (Nat.lt_of_lt_of_le hb hp)]

end Attempts

/-! ### The account of a run -/

namespace Pattern
variable {α β : Type} {c : Cursor} {t : Attempts}

/-- The failures noted when a pattern is matched at a place. -/
def account (p : Pattern α) (c : Cursor) (t : Attempts) : Attempts :=
  (p.run c t).2

/-- The failures noted when a pattern is repeated, at most `fuel` times. -/
def accounts (p : Pattern α) : Nat → Cursor → Attempts → Attempts
  | 0, _, t => t
  | fuel + 1, c, t =>
    match p.match? c.skipLayout with
    | none => p.account c.skipLayout t
    | some (_, d) => p.accounts fuel d (p.account c.skipLayout t)

theorem run_eq (p : Pattern α) (c : Cursor) (t : Attempts) : p.run c t = (p.match? c, p.account c t) :=
  Prod.ext (run_fst p c t) rfl

theorem account_seq {first : Pattern α} {second : Pattern β} : (first.seq second).account c t =
    match first.match? c with
    | none => first.account c t
    | some (_, d) => second.account d.skipLayout (first.account c t) := by
  rw [account, run, run_eq first c t]
  cases first.match? c with
  | none => rfl
  | some r =>
    dsimp only
    rw [run_eq second r.2.skipLayout]
    cases second.match? r.2.skipLayout <;> rfl

theorem account_orElse {first second : Pattern α} : (first.orElse second).account c t =
    match first.match? c with
    | none => second.account c (first.account c t)
    | some _ => first.account c t := by
  rw [account, run, run_eq first c t]
  cases first.match? c <;> rfl

theorem account_optional {p : Pattern α} : p.optional.account c t = p.account c t := by
  rw [account, run, run_eq p c t]
  cases p.match? c <;> rfl

theorem account_map {f : α → β} {p : Pattern α} : (map f p).account c t = p.account c t := by
  rw [account, run, run_eq p c t]
  cases p.match? c <;> rfl

theorem account_named {rule : Rule} {p : Pattern α} : (named rule p).account c t =
    match p.match? c with
    | none => (p.account c t).fail rule c.offset (t.countAt c.offset)
    | some _ => p.account c t := by
  rw [account, run, run_eq p c t]
  cases p.match? c <;> rfl

theorem account_named_of_none {rule : Rule} {p : Pattern α} (h : p.match? c = none) :
    (named rule p).account c t = (p.account c t).fail rule c.offset (t.countAt c.offset) := by
  rw [account_named, h]

theorem account_named_of_some {rule : Rule} {p : Pattern α} {r : α × Cursor} (h : p.match? c = some r) :
    (named rule p).account c t = p.account c t := by
  rw [account_named, h]

theorem account_word {l : Lexeme} : (word l).account c t =
    match (word l).match? c with
    | none => t.fail (.word l) c.offset (t.countAt c.offset)
    | some _ => t := by
  rw [account, run, show (word l).match? c = c.word? l from rfl]
  cases c.word? l <;> rfl

theorem account_many {p : Pattern α} : p.many.account c t = p.accounts (c.rest.length + 1) c t := by
  have hloop : ∀ (fuel : Nat) (c : Cursor) (t : Attempts), (repeated p.run fuel c t).2.2 = p.accounts fuel c t := by
    intro fuel
    induction fuel with
    | zero => exact fun _ _ => rfl
    | succ fuel ih =>
      intro c t
      rw [repeated, run_eq p c.skipLayout t, accounts]
      cases p.match? c.skipLayout with
      | none => rfl
      | some r => exact ih _ _
  rw [account, run]
  exact hloop _ c t

/-- What a text is read as: what was matched, or else the fault that the failures give. -/
def outcome (r : Option (α × Cursor)) (t : Attempts) : Except Fault α :=
  match r with
  | some (a, _) => .ok a
  | none => .error t.fault

theorem read_eq (p : Pattern α) (text : String) :
    p.read text = outcome (p.match? (Cursor.start text)) (p.account (Cursor.start text) .none) := by
  rw [read, run_eq]
  cases p.match? (Cursor.start text) <;> rfl

/-! ### Two runs -/

section Agree
variable {place : Nat} {a b : Attempts}

theorem fail_eq (hc : place ≤ c.offset) (hab : a.Agree place b) {a' b' : Attempts} (h : a'.Agree place b')
    (rule : Rule) : a'.fail rule c.offset (a.countAt c.offset) = b'.fail rule c.offset (b.countAt c.offset) ∧
      place ≤ (a'.fail rule c.offset (a.countAt c.offset)).position := by
  rw [hab.countAt hc, Attempts.position_fail]
  exact ⟨h.fail hc rule _, Nat.le_trans hc (Nat.le_max_right _ _)⟩

theorem accounts_agree {p : Pattern α} (hp : ∀ {c : Cursor} {a b : Attempts}, place ≤ c.offset → a.Agree place b →
      (p.account c a).Agree place (p.account c b)) (fuel : Nat) (hc : place ≤ c.offset) (hab : a.Agree place b) :
    (p.accounts fuel c a).Agree place (p.accounts fuel c b) := by
  induction fuel generalizing c a b with
  | zero => exact hab
  | succ fuel ih =>
    have hskip := Nat.le_trans hc c.reaches_skipLayout.offset_le
    rw [accounts, accounts]
    cases hm : p.match? c.skipLayout with
    | none => exact hp hskip hab
    | some r => exact ih (Nat.le_trans hskip (match?_reaches hm).offset_le) (hp hskip hab)

/-- Two runs behind a place keep their accounts alike. -/
theorem account_agree (p : Pattern α) (hc : place ≤ c.offset) (hab : a.Agree place b) :
    (p.account c a).Agree place (p.account c b) := by
  induction p generalizing c a b with
  | nothing => exact hab
  | finish => exact hab
  | symbol s => exact hab
  | word l =>
    rw [account_word, account_word]
    cases (word l).match? c with
    | none => exact Or.inl (fail_eq hc hab hab _).1
    | some r => exact hab
  | seq first second ih₁ ih₂ =>
    rw [account_seq, account_seq]
    cases hm : first.match? c with
    | none => exact ih₁ hc hab
    | some r =>
      have hr := (match?_reaches hm).trans r.2.reaches_skipLayout
      exact ih₂ (Nat.le_trans hc hr.offset_le) (ih₁ hc hab)
  | orElse first second ih₁ ih₂ =>
    rw [account_orElse, account_orElse]
    cases first.match? c with
    | none => exact ih₂ hc (ih₁ hc hab)
    | some r => exact ih₁ hc hab
  | optional p ih =>
    rw [account_optional, account_optional]
    exact ih hc hab
  | many p ih =>
    rw [account_many, account_many]
    exact accounts_agree ih _ hc hab
  | map f p ih =>
    rw [account_map, account_map]
    exact ih hc hab
  | named rule p ih =>
    rw [account_named, account_named]
    cases p.match? c with
    | none => exact Or.inl (fail_eq hc hab (ih hc hab) rule).1
    | some r => exact ih hc hab

/-- What fails last in the pattern has a name. -/
def Noted {α : Type} : Pattern α → Prop
  | .finish => False
  | .symbol _ => False
  | .seq first second => first.Noted ∧ second.Noted
  | .orElse _ second => second.Noted
  | .map _ p => p.Noted
  | _ => True

/-- Nothing is left of the difference once a pattern is refused under a name. -/
theorem account_eq_of_refused {p : Pattern α} (hp : p.Noted) (hm : p.match? c = none) (hc : place ≤ c.offset)
    (hab : a.Agree place b) : p.account c a = p.account c b ∧ place ≤ (p.account c a).position := by
  induction p generalizing c a b with
  | nothing => cases hm
  | finish => exact hp.elim
  | symbol s => exact hp.elim
  | word l =>
    rw [account_word, account_word, hm]
    exact fail_eq hc hab hab _
  | seq first second ih₁ ih₂ =>
    rw [account_seq, account_seq]
    rw [match?_seq] at hm
    cases hfirst : first.match? c with
    | none => exact ih₁ hp.1 hfirst hc hab
    | some r =>
      rw [hfirst, Option.bind_some, Option.map_eq_none_iff] at hm
      have hr := (match?_reaches hfirst).trans r.2.reaches_skipLayout
      exact ih₂ hp.2 hm (Nat.le_trans hc hr.offset_le) (account_agree first hc hab)
  | orElse first second ih₁ ih₂ =>
    obtain ⟨hfirst, hsecond⟩ := match?_orElse_eq_none_iff.mp hm
    rw [account_orElse, account_orElse, hfirst]
    exact ih₂ hp hsecond hc (account_agree first hc hab)
  | optional p ih =>
    rw [match?_optional] at hm
    split at hm <;> cases hm
  | many p ih => cases hm
  | map f p ih =>
    rw [account_map, account_map]
    exact ih hp (match?_map_eq_none_iff.mp hm) hc hab
  | named rule p ih =>
    have hm : p.match? c = none := hm
    rw [account_named, account_named, hm]
    exact fail_eq hc hab (account_agree p hc hab) rule

end Agree

end Pattern

end EntityQuery.Grammar
