import EntityQuery.Proofs.Language.Attempts

/-! # What is tried and what is found

Where a pattern is matched, its parts are tried at that place and behind it (`Pattern.Tries`), and the parts
that the match is made of are found (`Pattern.Finds`). Every name in the account of a run was tried at the
place that the account gives (`accounted_account`), however the names were put together. -/

namespace EntityQuery.Grammar

namespace Attempts
variable {t : Attempts} {tried : Rule → Nat → Prop} {rule : Rule} {position earlier : Nat}

/-- Every name noted was tried at the furthest place, and only the front of a text goes without a name. -/
structure Accounted (tried : Rule → Nat → Prop) (t : Attempts) : Prop where
  tried : ∀ r ∈ t.rules, tried r t.position
  front : t.rules = [] → t.position = 0

theorem accounted_none : none.Accounted tried :=
  ⟨fun _ h => absurd h List.not_mem_nil, fun _ => rfl⟩

theorem Accounted.fail (h : t.Accounted tried) (hr : tried rule position) (earlier : Nat) :
    (t.fail rule position earlier).Accounted tried ∧ (t.fail rule position earlier).rules ≠ [] := by
  have hnew : ∀ rules : List Rule, (∀ r ∈ rules, tried r position) →
      Accounted tried { position, rules := rules ++ [rule] } := by
    intro rules hrules
    refine ⟨fun r hmem => ?_, fun hnil => absurd hnil (by simp)⟩
    rcases List.mem_append.mp hmem with hmem | hmem
    · exact hrules r hmem
    · rw [List.mem_singleton.mp hmem]
      exact hr
  rcases Nat.lt_trichotomy position t.position with hlt | rfl | hlt
  · rw [fail_of_lt hlt]
    exact ⟨h, fun hnil => absurd (h.front hnil) (by omega)⟩
  · rw [Attempts.fail, if_neg (Nat.lt_irrefl t.position)]
    split
    · rename_i hone
      refine ⟨h, fun hnil => ?_⟩
      rw [countAt, if_pos rfl, hnil] at hone
      cases hone
    · rw [if_pos rfl]
      exact ⟨hnew _ fun r hmem => h.tried r (List.mem_of_mem_take hmem), by simp⟩
  · rw [fail_of_gt hlt]
    exact ⟨hnew [] fun _ hmem => absurd hmem List.not_mem_nil, by simp⟩

end Attempts

namespace Pattern
variable {α β : Type}

/-- Some repetitions of the pattern lead from one place to another. -/
inductive Passes (p : Pattern α) : Cursor → Cursor → Prop
  | refl (c : Cursor) : Passes p c c
  | more {c d e : Cursor} {a : α} : p.match? c.skipLayout = some (a, d) → Passes p d e → Passes p c e

theorem Passes.skipLayout {p : Pattern α} {c c' d : Cursor} (h : Passes p c d)
    (hc : c'.skipLayout = c.skipLayout) : ∃ d', Passes p c' d' ∧ d'.skipLayout = d.skipLayout := by
  cases h with
  | refl => exact ⟨c', .refl c', hc⟩
  | more hm hpass => exact ⟨d, .more (hc ▸ hm) hpass, rfl⟩

/-- Matching the pattern at a place tries a rule at the place `d`. -/
def Tries (rule : Rule) (d : Cursor) {α : Type} : Pattern α → Cursor → Prop
  | .nothing, _ => False
  | .finish, _ => False
  | .symbol _, _ => False
  | .word l, c => rule = .word l ∧ d = c
  | .seq first second, c => first.Tries rule d c ∨
      ∃ a m, first.match? c = some (a, m) ∧ second.Tries rule d m.skipLayout
  | .orElse first second, c => first.Tries rule d c ∨ first.match? c = none ∧ second.Tries rule d c
  | .optional p, c => p.Tries rule d c
  | .many p, c => ∃ m, Passes p c m ∧ p.Tries rule d m.skipLayout
  | .map _ p, c => p.Tries rule d c
  | .named r p, c => rule = r ∧ d = c ∨ p.Tries rule d c

/-- The match of the pattern at a place has a rule matched at the place `d` among its parts. -/
def Finds (rule : Rule) (d : Cursor) {α : Type} : Pattern α → Cursor → Prop
  | .nothing, _ => False
  | .finish, _ => False
  | .symbol _, _ => False
  | .word l, c => (rule = .word l ∧ d = c) ∧ (c.word? l).isSome = true
  | .seq first second, c => ((first.seq second).match? c).isSome = true ∧ (first.Finds rule d c ∨
      ∃ a m, first.match? c = some (a, m) ∧ second.Finds rule d m.skipLayout)
  | .orElse first second, c => first.Finds rule d c ∨ first.match? c = none ∧ second.Finds rule d c
  | .optional p, c => p.Finds rule d c
  | .many p, c => ∃ m, Passes p c m ∧ p.Finds rule d m.skipLayout
  | .map _ p, c => p.Finds rule d c
  | .named r p, c => (rule = r ∧ d = c) ∧ (p.match? c).isSome = true ∨ p.Finds rule d c

section Account
variable {tried : Rule → Nat → Prop} {c : Cursor} {t : Attempts}

theorem accounted_accounts {p : Pattern α}
    (hp : ∀ {c : Cursor} {t : Attempts}, (∀ r d, p.Tries r d c → tried r d.offset) → t.Accounted tried →
      (p.account c t).Accounted tried) (fuel : Nat) {c : Cursor} {t : Attempts}
    (hc : ∀ r d, p.many.Tries r d c → tried r d.offset) (h : t.Accounted tried) :
    (p.accounts fuel c t).Accounted tried := by
  induction fuel generalizing c t with
  | zero => exact h
  | succ fuel ih =>
    have hfirst := hp (fun r d hd => hc r d ⟨c, .refl c, hd⟩) h
    rw [accounts]
    cases hm : p.match? c.skipLayout with
    | none => exact hfirst
    | some r =>
      refine ih ?_ hfirst
      rintro rule d ⟨m, hpass, hd⟩
      exact hc rule d ⟨m, .more hm hpass, hd⟩

/-- The names in an account of a run were tried in it, if those noted before were. -/
theorem accounted_account {p : Pattern α} (hp : ∀ r d, p.Tries r d c → tried r d.offset) (h : t.Accounted tried) :
    (p.account c t).Accounted tried := by
  induction p generalizing c t with
  | nothing => exact h
  | finish => exact h
  | symbol s => exact h
  | word l =>
    rw [account_word]
    cases (word l).match? c with
    | none => exact (h.fail (hp _ c ⟨rfl, rfl⟩) _).1
    | some r => exact h
  | seq first second ih₁ ih₂ =>
    have hfirst := ih₁ (fun r d hd => hp r d (Or.inl hd)) h
    rw [account_seq]
    cases hm : first.match? c with
    | none => exact hfirst
    | some x => exact ih₂ (fun r d hd => hp r d (Or.inr ⟨x.1, x.2, hm, hd⟩)) hfirst
  | orElse first second ih₁ ih₂ =>
    have hfirst := ih₁ (fun r d hd => hp r d (Or.inl hd)) h
    rw [account_orElse]
    cases hm : first.match? c with
    | none => exact ih₂ (fun r d hd => hp r d (Or.inr ⟨hm, hd⟩)) hfirst
    | some x => exact hfirst
  | optional p ih =>
    rw [account_optional]
    exact ih hp h
  | many p ih =>
    rw [account_many]
    exact accounted_accounts ih _ hp h
  | map f p ih =>
    rw [account_map]
    exact ih hp h
  | named rule p ih =>
    have hinner := ih (fun r d hd => hp r d (Or.inr hd)) h
    rw [account_named]
    cases p.match? c with
    | none => exact (hinner.fail (hp rule c (Or.inl ⟨rfl, rfl⟩)) _).1
    | some x => exact hinner

/-- A text that is refused under a name is reported with names that were tried at one place. -/
theorem read_named_error {rule : Rule} {p : Pattern α} {text : String} {f : Fault}
    (h : (named rule p).read text = .error f) : ∃ rules, f.cause = .expected rules ∧ rules ≠ [] ∧
      ∀ r ∈ rules, ∃ d, (named rule p).Tries r d (Cursor.start text) ∧ d.offset = f.offset := by
  rw [read_eq, match?_named] at h
  cases hm : p.match? (Cursor.start text) with
  | some r =>
    rw [hm] at h
    cases h
  | none =>
    rw [hm] at h
    obtain rfl := Except.error.inj h
    -- The pattern's own name is noted last, so there is a name in any case.
    have hinner : (p.account (Cursor.start text) .none).Accounted
        fun r o => ∃ d, (named rule p).Tries r d (Cursor.start text) ∧ d.offset = o :=
      accounted_account (fun r d hd => ⟨d, Or.inr hd, rfl⟩) Attempts.accounted_none
    have hself : ∃ d, (named rule p).Tries rule d (Cursor.start text) ∧ d.offset = (Cursor.start text).offset :=
      ⟨_, Or.inl ⟨rfl, rfl⟩, rfl⟩
    obtain ⟨hall, hne⟩ := hinner.fail hself (Attempts.none.countAt (Cursor.start text).offset)
    rw [account_named_of_none hm]
    refine ⟨_, rfl, ?_, fun r hr => hall.tried r (Rule.mem_sorted.mp hr)⟩
    obtain ⟨r, hr⟩ := List.exists_mem_of_ne_nil _ hne
    exact List.ne_nil_of_mem (Rule.mem_sorted.mpr hr)

end Account

end Pattern

end EntityQuery.Grammar
