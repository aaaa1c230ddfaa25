import EntityQuery.Compile
import EntityQuery.Proofs.Language.Denote
import EntityQuery.Proofs.Language.Parts

/-! # The query of a statement

A statement that was read makes a query exactly when every literal has a value and every count fits, and
the query is then what the tree of the statement means. Each clause gives one event; adding the events to
a draft keeps the last one of a kind, which is the step from `Clause.Says` to `lastOf`. So a text compiles
exactly when it can be cut into the words of a statement that means a query. -/

namespace EntityQuery.Language
open Grammar

/-- Some text spells the word. -/
def Word.Spelled (w : Word) : Prop :=
  ∃ cs, w.SpelledAs cs

theorem spelled_of_cut {cs : List Char} {ws : List Word} (h : Cut cs ws) : ∀ w ∈ ws, w.Spelled := by
  induction h with
  | done _ => exact fun _ h => absurd h List.not_mem_nil
  | @word gap cs rest w ws _ hs _ _ ih =>
    intro w' hw'
    rcases List.mem_cons.mp hw' with rfl | hw'
    · exact ⟨cs, hs⟩
    · exact ih w' hw'

theorem isName_of_spelled {n : List Char} (h : (Word.name n).Spelled) : IsName n :=
  h.elim fun _ hs => hs.1

theorem isDigits_of_spelled {ds : List Char} (h : (Word.count ds).Spelled) : Decimal.isDigits ds = true :=
  h.elim fun _ hs => hs.1

theorem isLiteral_of_spelled {l : List Char} (h : (Word.literal l).Spelled) : IsLiteral l :=
  h.elim fun _ hs => hs.1

theorem isRange_of_spelled {o : Operator} (h : (Word.sign o).Spelled) : o.isRange = false :=
  h.elim fun _ hs => hs.1

/-! ### Outcomes -/

section Outcome
variable {ε ε' α β : Type}

theorem map_eq_ok_iff {f : α → β} {x : Except ε α} {b : β} : x.map f = .ok b ↔ ∃ a, x = .ok a ∧ f a = b := by
  cases x <;> simp [Except.map]

theorem map_eq_error_iff {f : α → β} {x : Except ε α} {e : ε} : x.map f = .error e ↔ x = .error e := by
  cases x <;> simp [Except.map]

theorem bind_eq_ok_iff {f : α → Except ε β} {x : Except ε α} {b : β} :
    x.bind f = .ok b ↔ ∃ a, x = .ok a ∧ f a = .ok b := by
  cases x <;> simp [Except.bind]

theorem mapError_eq_ok_iff {f : ε → ε'} {x : Except ε α} {a : α} : x.mapError f = .ok a ↔ x = .ok a := by
  cases x <;> simp [Except.mapError]

theorem bind_eq_error_iff {f : α → Except ε β} {x : Except ε α} {e : ε} :
    x.bind f = .error e ↔ x = .error e ∨ ∃ a, x = .ok a ∧ f a = .error e := by
  cases x <;> simp [Except.bind]

theorem mapError_eq_error_iff {f : ε → ε'} {x : Except ε α} {e : ε'} :
    x.mapError f = .error e ↔ ∃ e', x = .error e' ∧ f e' = e := by
  cases x <;> simp [Except.mapError]

end Outcome

/-! ### Findings -/

theorem collect_eq_ok_iff {findings : List Finding} {events : List Event} :
    Finding.collect findings = .ok events ↔ findings = events.map .ok := by
  induction findings generalizing events with
  | nil => cases events <;> simp [Finding.collect]
  | cons f fs ih =>
    cases f with
    | error f => cases events <;> simp [Finding.collect]
    | ok e =>
      rw [Finding.collect, map_eq_ok_iff]
      cases events with
      | nil => simp
      | cons e' events => simp [ih, and_comm]

theorem value_eq_ok_iff {t : Token} {v : Value} (h : IsLiteral t.text.toList) :
    t.value = .ok v ↔ Denotes t.text.toList v := by
  rw [← ofLiteral?_eq_some_iff h, String.ofList_toList, Token.value]
  split <;> simp_all

theorem count_eq_ok_iff {t : Token} {n : UInt64} (h : Decimal.isDigits t.text.toList = true) :
    t.count = .ok n ↔ n.toNat = Nat.ofDigitChars 10 t.text.toList 0 := by
  rw [Token.count, Decimal.readUInt64, h, Bool.true_and, Decimal.digitsValue_eq]
  by_cases hlt : Nat.ofDigitChars 10 t.text.toList 0 < UInt64.size
  · rw [if_pos (decide_eq_true hlt)]
    simp only [Except.ok.injEq]
    constructor
    · rintro rfl
      exact UInt64.toNat_ofNat_of_lt' hlt
    · intro hn
      rw [← hn, UInt64.ofNat_toNat]
  · rw [if_neg (by simpa using hlt)]
    have := n.toNat_lt_size
    constructor
    · intro h
      cases h
    · omega

/-! ### Conditions -/

/-- The event of a condition, if there is one. -/
def conditionEvents (negated : Bool) (c : Option Condition) : List Event :=
  (c.map fun d => .condition d.field d.operator d.operand negated).toList

theorem Denotes.isPair {l : List Char} {v : Value} (h : Denotes l v) : v.isPair = false := by
  cases h <;> rfl

theorem Test.Means.fits {t : Test} {c : Condition} (h : t.Means c) (ht : ∀ w ∈ t.words, w.Spelled) : c.Fits := by
  cases t with
  | compare field operator operand =>
    obtain ⟨-, ho, hv⟩ := h
    rw [Condition.Fits, ho, hv.isPair]
    exact isRange_of_spelled (ht _ (by simp [Test.words]))
  | range field low high =>
    obtain ⟨-, ho, l, h, -, -, hv⟩ := h
    rw [Condition.Fits, ho, hv]
    rfl

theorem ofBoth_eq_iff {α β : Type} {make : α → β → Event} {x : Except Fault α} {y : Except Fault β}
    {events : List Event} :
    Finding.ofBoth make x y = events.map .ok ↔ ∃ a b, x = .ok a ∧ y = .ok b ∧ events = [make a b] := by
  have none : ∀ (f : Fault) (fs : List Finding), ¬Except.error f :: fs = events.map .ok := by
    intro f fs
    cases events <;> simp
  cases x with
  | error e => cases y <;> simp [Finding.ofBoth, none]
  | ok a =>
    cases y with
    | error e => simp [Finding.ofBoth, none]
    | ok b =>
      simp only [Finding.ofBoth, Except.ok.injEq]
      constructor
      · intro heq
        obtain ⟨e, rfl, he⟩ := List.map_eq_singleton_iff.mp heq.symm
        exact ⟨a, b, rfl, rfl, by rw [Except.ok.inj he]⟩
      · rintro ⟨a', b', rfl, rfl, rfl⟩
        rfl

theorem operator_of_known {t : Token} {o : Operator} (h : Operator.ofSymbol? t.text = some o) :
    t.operator = .ok o := by
  rw [Token.operator, h]

theorem comparison_findings_eq_iff {field sign operand : Token} {operator : Operator} {negated : Bool}
    {events : List Event} (hsign : Operator.ofSymbol? sign.text = some operator) :
    Filter.findings { negated, test := .comparison field sign operand } = events.map .ok ↔
      ∃ v, operand.value = .ok v ∧ events = [.condition field.text operator v negated] := by
  refine ofBoth_eq_iff.trans ?_
  rw [operator_of_known hsign]
  constructor
  · rintro ⟨_, v, ⟨⟩, hv, rfl⟩
    exact ⟨v, hv, rfl⟩
  · rintro ⟨v, hv, rfl⟩
    exact ⟨operator, v, rfl, hv, rfl⟩

theorem range_findings_eq_iff {field low high : Token} {negated : Bool} {events : List Event} :
    Filter.findings { negated, test := .range field low high } = events.map .ok ↔
      ∃ l h, low.value = .ok l ∧ high.value = .ok h ∧
        events = [.condition field.text .between (.pair l h) negated] :=
  ofBoth_eq_iff

theorem filter_findings_eq_iff {f : Filter} {a : Grammar.Filter} (hof : f.Of a)
    (hf : ∀ w ∈ f.test.words, w.Spelled) {events : List Event} :
    a.findings = events.map .ok ↔ ∃ c, f.test.Means c ∧ events = conditionEvents f.negated (some c) := by
  obtain ⟨negated, t⟩ := f
  obtain ⟨negated', t'⟩ := a
  obtain ⟨rfl, ht⟩ := hof
  cases t with
  | compare field operator operand =>
    cases t' with
    | range => cases ht
    | comparison field' sign operand' =>
      obtain ⟨rfl, hsign, rfl⟩ := ht
      have hl := isLiteral_of_spelled (l := operand'.text.toList) (hf _ (by simp [Test.words]))
      simp only [comparison_findings_eq_iff hsign, value_eq_ok_iff hl]
      constructor
      · rintro ⟨v, hv, rfl⟩
        exact ⟨⟨field'.text, operator, v⟩, ⟨String.ofList_toList.symm, rfl, hv⟩, rfl⟩
      · rintro ⟨⟨n, o, v⟩, ⟨hn, rfl, hv⟩, rfl⟩
        obtain rfl := hn.trans String.ofList_toList
        exact ⟨v, hv, rfl⟩
  | range field low high =>
    cases t' with
    | comparison => cases ht
    | range field' low' high' =>
      obtain ⟨rfl, rfl, rfl⟩ := ht
      have hl := isLiteral_of_spelled (l := low'.text.toList) (hf _ (by simp [Test.words]))
      have hh := isLiteral_of_spelled (l := high'.text.toList) (hf _ (by simp [Test.words]))
      simp only [range_findings_eq_iff, value_eq_ok_iff hl, value_eq_ok_iff hh]
      constructor
      · rintro ⟨l, h, hl, hh, rfl⟩
        exact ⟨⟨field'.text, .between, .pair l h⟩, ⟨String.ofList_toList.symm, rfl, l, h, hl, hh, rfl⟩, rfl⟩
      · rintro ⟨⟨n, o, v⟩, ⟨hn, rfl, l, h, hl, hh, rfl⟩, rfl⟩
        obtain rfl := hn.trans String.ofList_toList
        exact ⟨l, h, hl, hh, rfl⟩

theorem filterFindings_eq_iff {f : Option Filter} {a : Option Grammar.Filter} (hof : Option.Rel Filter.Of f a)
    (hf : ∀ w ∈ filterWords f, w.Spelled) {events : List Event} :
    filterFindings a = events.map .ok ↔
      ∃ c, FilterMeans f c ∧ events = conditionEvents (f.any (·.negated)) c := by
  cases hof with
  | none =>
    constructor
    · intro h
      exact ⟨none, rfl, List.map_eq_nil_iff.mp h.symm⟩
    · rintro ⟨c, rfl, rfl⟩
      rfl
  | @some f a hof =>
    have htest : ∀ w ∈ f.test.words, w.Spelled := fun w hw =>
      hf w (by simp [filterWords, Filter.words, hw])
    rw [show filterFindings (some a) = a.findings from rfl, filter_findings_eq_iff hof htest]
    constructor
    · rintro ⟨c, hc, rfl⟩
      exact ⟨some c, ⟨c, rfl, hc⟩, rfl⟩
    · rintro ⟨_, ⟨c, rfl, hc⟩, rfl⟩
      exact ⟨c, hc, rfl⟩

theorem FilterMeans.fits {f : Option Filter} {c : Option Condition} (h : FilterMeans f c)
    (hf : ∀ w ∈ filterWords f, w.Spelled) : ∀ d ∈ c, d.Fits := by
  cases f with
  | none =>
    obtain rfl := h
    exact fun _ hd => absurd hd (Option.not_mem_none _)
  | some f =>
    obtain ⟨d, rfl, hd⟩ := h
    rintro d' hd'
    obtain rfl := Option.some.inj hd'
    exact hd.fits fun w hw => hf w (by simp [filterWords, Filter.words, hw])

/-- A fitting condition goes into the draft as it is. -/
theorem foldl_conditionEvents {negated : Bool} {c : Option Condition} (hfits : ∀ d ∈ c, d.Fits) {d : Draft}
    (hd : d.condition = none) :
    (conditionEvents negated c).foldl Draft.add d = { d with condition := c } := by
  cases c with
  | none =>
    cases d
    cases hd
    rfl
  | some c =>
    show Draft.add d (.condition c.field c.operator c.operand negated) = _
    have hc : c.operator.isRange = c.operand.isPair := hfits c rfl
    rw [Draft.add, Condition.make?, if_pos hc, Option.some_or]

/-! ### Clauses -/

/-- The event that a clause gives. -/
def Clause.Says : Clause → Event → Prop
  | .order first more, e => e = .sort ((first :: more).map SortItem.key)
  | .skip digits, e => ∃ n : UInt64, e = .skip n ∧ n.toNat = Nat.ofDigitChars 10 digits 0
  | .limit digits, e => ∃ n : UInt64, e = .limit n ∧ n.toNat = Nat.ofDigitChars 10 digits 0

theorem keys_eq {items : List SortItem} {read : List OrderItem} (h : List.Forall₂ SortItem.Of items read) :
    read.map OrderItem.key = items.map SortItem.key := by
  induction h with
  | nil => rfl
  | @cons i a _ _ hia _ ih =>
    rw [List.map_cons, List.map_cons, ih, OrderItem.key, SortItem.key, ← hia.1, hia.2, String.ofList_toList]

theorem finding_eq_ok_iff {b : Clause} {a : Tail} (hof : b.Of a) (hb : ∀ w ∈ b.words, w.Spelled) {e : Event} :
    a.finding = .ok e ↔ b.Says e := by
  cases b with
  | order first more =>
    cases a with
    | order items =>
      rw [Tail.finding, keys_eq hof, Except.ok.injEq, eq_comm]
      rfl
    | _ => cases hof
  | skip digits =>
    cases a with
    | skip count =>
      obtain rfl := hof
      have hd : Decimal.isDigits count.text.toList = true := isDigits_of_spelled (hb _ (by simp [Clause.words]))
      simp only [Tail.finding, map_eq_ok_iff, count_eq_ok_iff hd, Clause.Says]
      grind
    | _ => cases hof
  | limit digits =>
    cases a with
    | limit count =>
      obtain rfl := hof
      have hd : Decimal.isDigits count.text.toList = true := isDigits_of_spelled (hb _ (by simp [Clause.words]))
      simp only [Tail.finding, map_eq_ok_iff, count_eq_ok_iff hd, Clause.Says]
      grind
    | _ => cases hof

theorem findings_eq_iff {tail : List Clause} {read : List Tail} (hof : List.Forall₂ Clause.Of tail read)
    (ht : ∀ b ∈ tail, ∀ w ∈ b.words, w.Spelled) {events : List Event} :
    read.map Tail.finding = events.map .ok ↔ List.Forall₂ Clause.Says tail events := by
  induction hof generalizing events with
  | nil =>
    cases events with
    | nil => simp
    | cons e events => simp
  | @cons b a tail read hba _ ih =>
    cases events with
    | nil => simp
    | cons e events =>
      rw [List.map_cons, List.map_cons, List.cons.injEq, List.forall₂_cons,
        finding_eq_ok_iff hba (ht b List.mem_cons_self), ih fun b' hb' => ht b' (List.mem_cons_of_mem _ hb')]

/-! ### Drafts -/

theorem lastOf_cons {α : Type} (read : Clause → Option α) (b : Clause) (tail : List Clause) (default : α) :
    lastOf read (b :: tail) default = lastOf read tail ((read b).getD default) := by
  rw [lastOf, lastOf, List.filterMap_cons]
  cases read b with
  | none => rfl
  | some x =>
    rw [List.getLast?_cons]
    rfl

/-- What the draft of a statement that reads rows holds once the clauses are added. -/
structure Tailed (tail : List Clause) (d d' : Draft) : Prop where
  entity : d'.entity = d.entity
  fields : d'.fields = d.fields
  condition : d'.condition = d.condition
  sorts : d'.sorts = lastOf Clause.sorts? tail d.sorts
  skip : d'.skip.toNat = lastOf Clause.skip? tail d.skip.toNat
  limit : d'.limit.toNat = lastOf Clause.limit? tail d.limit.toNat

theorem Clause.Says.tailed {b : Clause} {e : Event} (h : b.Says e) (d : Draft) : Tailed [b] d (d.add e) := by
  cases b with
  | order first more =>
    obtain rfl := h
    exact ⟨rfl, rfl, rfl, rfl, rfl, rfl⟩
  | skip digits =>
    obtain ⟨n, rfl, hn⟩ := h
    exact ⟨rfl, rfl, rfl, rfl, hn, rfl⟩
  | limit digits =>
    obtain ⟨n, rfl, hn⟩ := h
    exact ⟨rfl, rfl, rfl, rfl, rfl, hn⟩

theorem Tailed.cons {b : Clause} {tail : List Clause} {d m e : Draft} (h₁ : Tailed [b] d m)
    (h₂ : Tailed tail m e) : Tailed (b :: tail) d e where
  entity := h₂.entity.trans h₁.entity
  fields := h₂.fields.trans h₁.fields
  condition := h₂.condition.trans h₁.condition
  sorts := by
    rw [h₂.sorts, h₁.sorts, lastOf_cons _ b tail, lastOf_cons _ b []]
    rfl
  skip := by
    rw [h₂.skip, h₁.skip, lastOf_cons _ b tail, lastOf_cons _ b []]
    rfl
  limit := by
    rw [h₂.limit, h₁.limit, lastOf_cons _ b tail, lastOf_cons _ b []]
    rfl

theorem tailed_foldl {tail : List Clause} {events : List Event} (h : List.Forall₂ Clause.Says tail events)
    (d : Draft) : Tailed tail d (events.foldl Draft.add d) := by
  induction h generalizing d with
  | nil => exact ⟨rfl, rfl, rfl, rfl, rfl, rfl⟩
  | cons hb _ ih => exact (hb.tailed d).cons (ih _)

theorem exists_clause_says_iff {b : Clause} : (∃ e, b.Says e) ↔ ∀ n ∈ b.count?, n < UInt64.size := by
  have fits : ∀ n : Nat, n < UInt64.size ↔ ∃ m : UInt64, m.toNat = n := by
    intro n
    constructor
    · intro hn
      exact ⟨UInt64.ofNat n, UInt64.toNat_ofNat_of_lt' hn⟩
    · rintro ⟨m, rfl⟩
      exact m.toNat_lt_size
  cases b with
  | order first more => simp [Clause.Says, Clause.count?, Clause.skip?, Clause.limit?]
  | skip digits => simpa [Clause.Says, Clause.count?, Clause.skip?] using (fits (Nat.ofDigitChars 10 digits 0)).symm
  | limit digits =>
    simpa [Clause.Says, Clause.count?, Clause.skip?, Clause.limit?] using (fits (Nat.ofDigitChars 10 digits 0)).symm

theorem exists_says_iff {tail : List Clause} :
    (∃ events, List.Forall₂ Clause.Says tail events) ↔ ∀ n ∈ tail.filterMap Clause.count?, n < UInt64.size := by
  induction tail with
  | nil => exact ⟨fun _ _ hn => absurd hn List.not_mem_nil, fun _ => ⟨[], .nil⟩⟩
  | cons b tail ih =>
    have hcons : (∃ events, List.Forall₂ Clause.Says (b :: tail) events) ↔
        (∃ e, b.Says e) ∧ ∃ events, List.Forall₂ Clause.Says tail events := by
      simp [List.forall₂_cons_left_iff]
    rw [hcons, exists_clause_says_iff, ih]
    simp only [List.mem_filterMap, List.mem_cons, Option.mem_def]
    constructor
    · rintro ⟨hb, htail⟩ n ⟨c, rfl | hc, hn⟩
      · exact hb n hn
      · exact htail n ⟨c, hc, hn⟩
    · intro h
      exact ⟨fun n hn => h n ⟨b, Or.inl rfl, hn⟩, fun n ⟨c, hc, hn⟩ => h n ⟨c, Or.inr hc, hn⟩⟩

/-! ### Queries -/

theorem IsName.ne_nil {n : List Char} (h : IsName n) : n ≠ [] := by
  obtain ⟨c, rest, rfl, -⟩ := h.start
  exact List.cons_ne_nil c rest

theorem isBlank_of_isNameChar {c : Char} (h : isNameChar c = true) : Text.isBlank c = false := by
  rcases Bool.or_eq_true_iff.mp h with h | h
  · exact isBlank_of_isWordChar h
  · rw [beq_iff_eq.mp h]
    decide

theorem trim_name {n : List Char} (h : IsName n) : Text.trim n = n :=
  trim_of_not_blank fun c hc => isBlank_of_isNameChar (h.chars c hc)

theorem entityFinding_eq {t : Token} (h : IsName t.text.toList) : entityFinding t = .ok (.entity t.text) := by
  rw [entityFinding, trim_name h, String.ofList_toList]

theorem entityName_eq {d : Draft} {t : Token} (hd : d.entity = some t.text) (h : IsName t.text.toList) :
    d.entityName = .ok t.text := by
  have hne : t.text.isEmpty = false := by
    rw [Bool.eq_false_iff]
    intro he
    exact h.ne_nil (by rw [String.isEmpty_iff.mp he]; rfl)
  rw [Draft.entityName, hd]
  simp only [hne, Bool.false_eq_true, if_false]

theorem texts_map {tokens : List Token} {names : List (List Char)} (h : tokens.map (·.text.toList) = names) :
    tokens.map Token.text = names.map String.ofList := by
  rw [← h, List.map_map]
  exact List.map_congr_left fun t _ => String.ofList_toList.symm

section Select
variable {s : Select} {a : Grammar.Select}

theorem Select.spelled_clause (hs : ∀ w ∈ s.words, w.Spelled) : ∀ b ∈ s.tail, ∀ w ∈ b.words, w.Spelled :=
  fun b hb w hw => hs w (by
    simp only [Select.words, List.mem_cons, List.mem_append, List.mem_flatMap]
    exact Or.inr (Or.inr (Or.inr (Or.inr (Or.inr ⟨b, hb, hw⟩)))))

theorem Select.Of.isName (hof : s.Of a) (hs : ∀ w ∈ s.words, w.Spelled) : IsName a.entity.text.toList :=
  hof.entity ▸ isName_of_spelled (hs (.name s.entity) (by simp [Select.words]))

theorem Select.spelled_filter (hs : ∀ w ∈ s.words, w.Spelled) : ∀ w ∈ filterWords s.filter, w.Spelled :=
  fun w hw => hs w (by simp [Select.words, hw])

theorem select_findings_eq_iff (hof : s.Of a) (hs : ∀ w ∈ s.words, w.Spelled) {events : List Event} :
    a.findings = events.map .ok ↔ ∃ c tail, FilterMeans s.filter c ∧ List.Forall₂ Clause.Says s.tail tail ∧
      events = .fields (s.fields.names.map String.ofList) :: .entity a.entity.text ::
        (conditionEvents (s.filter.any (·.negated)) c ++ tail) := by
  have hname := hof.isName hs
  rw [Grammar.Select.findings, entityFinding_eq hname, texts_map hof.fields]
  simp only [List.cons_append, eq_comm (b := List.map Except.ok events), List.map_eq_cons_iff,
    List.map_eq_append_iff]
  constructor
  · rintro ⟨_, _, rfl, he, _, _, rfl, he', fs, ts, rfl, hf, ht⟩
    obtain ⟨c, hc, rfl⟩ := (filterFindings_eq_iff hof.filter (s.spelled_filter hs)).mp hf.symm
    have hsays := (findings_eq_iff hof.tail (s.spelled_clause hs)).mp ht.symm
    rw [Except.ok.inj he, Except.ok.inj he']
    exact ⟨c, ts, hc, hsays, rfl⟩
  · rintro ⟨c, ts, hc, hsays, rfl⟩
    exact ⟨_, _, rfl, rfl, _, _, rfl, rfl, _, _, rfl,
      ((filterFindings_eq_iff hof.filter (s.spelled_filter hs)).mpr ⟨c, hc, rfl⟩).symm,
      ((findings_eq_iff hof.tail (s.spelled_clause hs)).mpr hsays).symm⟩

/-- The draft of a statement that reads rows makes the query with these parts. -/
theorem select_draft {c : Option Condition} {names : List String} {t : Token} {tail : List Event} {negated : Bool}
    (hname : IsName t.text.toList) (hfits : ∀ d ∈ c, d.Fits) (ht : List.Forall₂ Clause.Says s.tail tail)
    {q : SelectQuery} :
    (Draft.ofEvents (.fields names :: .entity t.text :: (conditionEvents negated c ++ tail))).toSelect = .ok q ↔
      q.entity = t.text ∧ q.fields = names ∧ q.condition = c ∧ q.sorts = lastOf Clause.sorts? s.tail [] ∧
        q.skip.toNat = lastOf Clause.skip? s.tail 0 ∧ q.limit.toNat = lastOf Clause.limit? s.tail 0 := by
  rw [Draft.ofEvents, List.foldl_cons, List.foldl_cons, List.foldl_append, foldl_conditionEvents hfits rfl]
  have htail := tailed_foldl ht
    { (Draft.empty.add (.fields names)).add (.entity t.text) with condition := c }
  generalize tail.foldl Draft.add _ = d at htail ⊢
  rw [Draft.toSelect, entityName_eq htail.entity hname, map_eq_ok_iff]
  constructor
  · rintro ⟨_, he, rfl⟩
    exact ⟨(Except.ok.inj he).symm, htail.fields, htail.condition, htail.sorts, htail.skip, htail.limit⟩
  · obtain ⟨entity, fields, sorts, skip, limit, condition⟩ := q
    rintro ⟨rfl, rfl, rfl, rfl, hskip, hlimit⟩
    refine ⟨_, rfl, ?_⟩
    simp only [SelectQuery.mk.injEq]
    exact ⟨trivial, htail.fields, htail.sorts, UInt64.toNat_inj.mp (htail.skip.trans hskip.symm),
      UInt64.toNat_inj.mp (htail.limit.trans hlimit.symm), htail.condition⟩

theorem compileSelectStatement_eq_ok_iff (hof : s.Of a) (hs : ∀ w ∈ s.words, w.Spelled) {q : SelectQuery} :
    compileSelectStatement a = .ok q ↔ s.Means q := by
  have hname := hof.isName hs
  have hentity : a.entity.text = String.ofList s.entity := by
    rw [← hof.entity, String.ofList_toList]
  simp only [compileSelectStatement, bind_eq_ok_iff, collect_eq_ok_iff]
  constructor
  · rintro ⟨events, hevents, hq⟩
    obtain ⟨c, tail, hc, ht, rfl⟩ := (select_findings_eq_iff hof hs).mp hevents
    obtain ⟨h₁, h₂, rfl, h₃, h₄, h₅⟩ := (select_draft hname (hc.fits (s.spelled_filter hs)) ht).mp hq
    exact ⟨h₁.trans hentity, h₂, hc, exists_says_iff.mp ⟨tail, ht⟩, h₃, h₄, h₅⟩
  · intro h
    obtain ⟨tail, ht⟩ := exists_says_iff.mpr h.counts
    refine ⟨_, (select_findings_eq_iff hof hs).mpr ⟨q.condition, tail, h.condition, ht, rfl⟩, ?_⟩
    exact (select_draft hname (h.condition.fits (s.spelled_filter hs)) ht).mpr
      ⟨h.entity.trans hentity.symm, h.fields, rfl, h.sorts, h.skip, h.limit⟩

end Select

section Delete
variable {s : Delete} {a : Grammar.Delete}

theorem Delete.Of.isName (hof : s.Of a) (hs : ∀ w ∈ s.words, w.Spelled) : IsName a.entity.text.toList :=
  hof.entity ▸ isName_of_spelled (hs (.name s.entity) (by simp [Delete.words]))

theorem Delete.spelled_filter (hs : ∀ w ∈ s.words, w.Spelled) : ∀ w ∈ filterWords s.filter, w.Spelled :=
  fun w hw => hs w (by simp [Delete.words, hw])

theorem delete_draft {c : Option Condition} {t : Token} {negated : Bool} (hname : IsName t.text.toList)
    (hfits : ∀ d ∈ c, d.Fits) {q : DeleteQuery} :
    (Draft.ofEvents (.entity t.text :: conditionEvents negated c)).toDelete = .ok q ↔
      q.entity = t.text ∧ q.condition = c := by
  rw [Draft.ofEvents, List.foldl_cons, foldl_conditionEvents hfits rfl, Draft.toDelete, entityName_eq rfl hname,
    map_eq_ok_iff]
  constructor
  · rintro ⟨_, he, rfl⟩
    exact ⟨(Except.ok.inj he).symm, rfl⟩
  · obtain ⟨entity, condition⟩ := q
    rintro ⟨rfl, rfl⟩
    exact ⟨_, rfl, rfl⟩

theorem delete_findings_eq_iff (hof : s.Of a) (hs : ∀ w ∈ s.words, w.Spelled) {events : List Event} :
    a.findings = events.map .ok ↔ ∃ c, FilterMeans s.filter c ∧
      events = .entity a.entity.text :: conditionEvents (s.filter.any (·.negated)) c := by
  have hname := hof.isName hs
  rw [Grammar.Delete.findings, entityFinding_eq hname]
  simp only [eq_comm (b := List.map Except.ok events), List.map_eq_cons_iff]
  constructor
  · rintro ⟨_, fs, rfl, he, hf⟩
    obtain ⟨c, hc, rfl⟩ := (filterFindings_eq_iff hof.filter (s.spelled_filter hs)).mp hf.symm
    rw [Except.ok.inj he]
    exact ⟨c, hc, rfl⟩
  · rintro ⟨c, hc, rfl⟩
    exact ⟨_, _, rfl, rfl, ((filterFindings_eq_iff hof.filter (s.spelled_filter hs)).mpr ⟨c, hc, rfl⟩).symm⟩

theorem compileDeleteStatement_eq_ok_iff (hof : s.Of a) (hs : ∀ w ∈ s.words, w.Spelled) {q : DeleteQuery} :
    compileDeleteStatement a = .ok q ↔ s.Means q := by
  have hname := hof.isName hs
  have hentity : a.entity.text = String.ofList s.entity := by
    rw [← hof.entity, String.ofList_toList]
  simp only [compileDeleteStatement, bind_eq_ok_iff, collect_eq_ok_iff]
  constructor
  · rintro ⟨events, hevents, hq⟩
    obtain ⟨c, hc, rfl⟩ := (delete_findings_eq_iff hof hs).mp hevents
    obtain ⟨h₁, rfl⟩ := (delete_draft hname (hc.fits (s.spelled_filter hs))).mp hq
    exact ⟨h₁.trans hentity, hc⟩
  · intro h
    refine ⟨_, (delete_findings_eq_iff hof hs).mpr ⟨q.condition, h.condition, rfl⟩, ?_⟩
    exact (delete_draft hname (h.condition.fits (s.spelled_filter hs))).mpr ⟨h.entity.trans hentity.symm, rfl⟩

end Delete

theorem compileStatement_eq_ok_iff {s : Statement} {a : Grammar.Statement} (hof : s.Of a)
    (hs : ∀ w ∈ s.words, w.Spelled) {q : Query} : compileStatement a = .ok q ↔ s.Means q := by
  cases s with
  | select s =>
    cases a with
    | delete => cases hof
    | select a =>
      simp only [compileStatement, map_eq_ok_iff, compileSelectStatement_eq_ok_iff hof hs]
      cases q <;> simp [Statement.Means]
  | delete s =>
    cases a with
    | select => cases hof
    | delete a =>
      simp only [compileStatement, map_eq_ok_iff, compileDeleteStatement_eq_ok_iff hof hs]
      cases q <;> simp [Statement.Means]

/-! ### Whole texts -/

theorem compileText_map {σ τ α β : Type} {text : String} {p : Pattern σ} {p' : Pattern τ} {make : σ → Except Fault α}
    {make' : τ → Except Fault β} {f : τ → σ} {g : β → α} (hread : p.read text = (p'.read text).map f)
    (hmake : ∀ b, make (f b) = (make' b).map g) :
    compileText p make text = (compileText p' make' text).map g := by
  rw [compileText, compileText, hread]
  cases p'.read text with
  | error e => rfl
  | ok b =>
    show (make (f b)).mapError _ = ((make' b).mapError _).map g
    rw [hmake]
    cases make' b <;> rfl

/-- A compiler gives a query for a text exactly when the text can be cut into the words of a phrase that
    means the query. -/
theorem compileText_eq_ok_iff {α β γ : Type} {p : Pattern α} {of : β → α → Prop} {words : β → List Word}
    {rule : Rule} {make : α → Except Fault γ} {means : β → γ → Prop}
    (hp : Recognises p of words (fun ws => ws = []))
    (hmake : ∀ {b a}, of b a → (∀ w ∈ words b, w.Spelled) → ∀ {q}, make a = .ok q ↔ means b q) {text : String}
    {q : γ} :
    compileText (whole rule p) make text = .ok q ↔ ∃ b, Cut text.toList (words b) ∧ means b q := by
  rw [compileText, mapError_eq_ok_iff, bind_eq_ok_iff]
  constructor
  · rintro ⟨a, ha, hq⟩
    obtain ⟨b, hof, hcut⟩ := hp.read_whole ha
    exact ⟨b, hcut, (hmake hof (spelled_of_cut hcut)).mp hq⟩
  · rintro ⟨b, hcut, hmeans⟩
    have hread : ∃ a, (whole rule p).read text = .ok a ∧ of b a := hp.whole_read hcut
    obtain ⟨a, ha, hof⟩ := hread
    exact ⟨a, ha, (hmake hof (spelled_of_cut hcut)).mpr hmeans⟩

/-- The texts that compile, and the query of each: there is one such query at most, in however many ways the
text can be cut. -/
theorem compile_eq_ok_iff (text : String) (q : Query) :
    compile text = .ok q ↔ ∃ s : Statement, Cut text.toList s.words ∧ s.Means q :=
  compileText_eq_ok_iff recognises_statement compileStatement_eq_ok_iff

end EntityQuery.Language
