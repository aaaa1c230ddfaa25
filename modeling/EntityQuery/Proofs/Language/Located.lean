import EntityQuery.Proofs.Language.Classified
import EntityQuery.Proofs.Language.Meaning
import EntityQuery.Proofs.Language.Placed

/-! # Where the faults of a statement stand

A literal that is read as infinite and a count of more than 64 bits are the faults of a text that fits the
grammar (`Word.cause?`). What a pattern reads has the faults of the words it is read from, in their order and at
their bytes (`Locates`): only literals and counts can be at fault, and each is read at the byte where it
stands. -/

namespace EntityQuery.Language
open Grammar

/-! ### Words at fault -/

/-- What is wrong with a word that stands for nothing. -/
def Word.cause? : Word → Option Fault.Cause
  | .literal l =>
    if (Decimal.readDecimal l).any Float.isInf then some (.unrecognizedLiteral (String.ofList l)) else none
  | .count ds =>
    if UInt64.size ≤ Nat.ofDigitChars 10 ds 0 then some (.countOutOfRange (String.ofList ds)) else none
  | _ => none

@[simp] theorem cause?_keyword (k : Keyword) : (Word.keyword k).cause? = none := rfl

/-- The faults of a row of words, each at the byte of its word. -/
def placedFaults (ps : List (Nat × Word)) : List Fault :=
  ps.filterMap fun p => p.2.cause?.map fun cause => { offset := p.1, cause }

@[simp] theorem placedFaults_append (ps qs : List (Nat × Word)) :
    placedFaults (ps ++ qs) = placedFaults ps ++ placedFaults qs :=
  List.filterMap_append

theorem mem_placedFaults {ps : List (Nat × Word)} {f : Fault} :
    f ∈ placedFaults ps ↔ ∃ w, (f.offset, w) ∈ ps ∧ w.cause? = some f.cause := by
  obtain ⟨offset, cause⟩ := f
  simp only [placedFaults, List.mem_filterMap, Option.map_eq_some_iff, Fault.mk.injEq, Prod.exists]
  constructor
  · rintro ⟨o, w, hp, c, hc, rfl, rfl⟩
    exact ⟨w, hp, hc⟩
  · rintro ⟨w, hp, hc⟩
    exact ⟨offset, w, hp, cause, hc, rfl, rfl⟩

theorem placedFaults_of_quiet {ps : List (Nat × Word)} (h : ∀ w ∈ ps.map Prod.snd, w.cause? = none) :
    placedFaults ps = [] := by
  rw [List.eq_nil_iff_forall_not_mem]
  intro f hf
  obtain ⟨w, hp, hw⟩ := mem_placedFaults.mp hf
  rw [h w (List.mem_map.mpr ⟨_, hp, rfl⟩)] at hw
  cases hw

/-- The fault of an outcome, if it is one. -/
def faultOf {α : Type} : Except Fault α → List Fault
  | .ok _ => []
  | .error f => [f]

theorem faultOf_map {α β : Type} (f : α → β) (x : Except Fault α) : faultOf (x.map f) = faultOf x := by
  cases x <;> rfl

theorem readDecimal_eq_none {c : Char} {cs : List Char} (hminus : c ≠ '-') (hpoint : c ≠ '.')
    (hdigit : c.isDigit = false) : Decimal.readDecimal (c :: cs) = none := by
  rw [Decimal.readDecimal, takeMinus_of_head (by simpa using hminus)]
  simp [Decimal.readUnsigned, hdigit, hpoint]

theorem literal_none_iff {l : List Char} (h : IsLiteral l) :
    Value.ofLiteral? (String.ofList l) = none ↔ (Decimal.readDecimal l).any Float.isInf = true := by
  have valued : ∀ {v : Value} {c : Char} {tail : List Char}, Denotes l v → l = c :: tail → c ≠ '-' → c ≠ '.' →
      c.isDigit = false →
      (Value.ofLiteral? (String.ofList l) = none ↔ (Decimal.readDecimal l).any Float.isInf = true) := by
    intro v c tail hv hl hminus hpoint hdigit
    rw [(ofLiteral?_eq_some_iff h).mpr hv, hl, readDecimal_eq_none hminus hpoint hdigit]
    simp
  have word : ∀ {d : Char} {tail : List Char} {v : Value}, Denotes l v → l.map Char.toLower = d :: tail →
      d ∈ ['t', 'f', 'n'] →
      (Value.ofLiteral? (String.ofList l) = none ↔ (Decimal.readDecimal l).any Float.isInf = true) := by
    intro d tail v hv hl hd
    obtain ⟨c, tail, hl, hc, -⟩ := List.map_eq_cons_iff.mp hl
    obtain ⟨-, hdigit, hminus, hpoint⟩ := valueLetter hc hd
    exact valued hv hl hminus hpoint hdigit
  cases h with
  | @quoted quote body hq hbody =>
    have hv := Denotes.quoted hq (unescaped_unescape hbody)
    simp only [Text.isQuote, Bool.or_eq_true, beq_iff_eq] at hq
    rcases hq with rfl | rfl <;> exact valued hv rfl (by decide) (by decide) (by decide)
  | number hn => rw [ofLiteral?_number_eq_none_iff hn, Option.any_eq_true]
  | word hw =>
    simp only [valueWords, List.mem_cons, List.not_mem_nil, or_false] at hw
    rcases hw with hw | hw | hw
    · exact word (.yes hw) hw (by decide)
    · exact word (.no hw) hw (by decide)
    · exact word (.null hw) hw (by decide)

/-- A literal has a fault of its own when it has no value, and no other. -/
theorem faultOf_value {t : Token} (h : IsLiteral t.text.toList) :
    faultOf t.value = placedFaults [(t.offset, .literal t.text.toList)] := by
  have hnone := literal_none_iff h
  rw [String.ofList_toList] at hnone
  rw [Token.value]
  cases hv : Value.ofLiteral? t.text with
  | some v =>
    rw [hv] at hnone
    simp [faultOf, placedFaults, Word.cause?, ← hnone]
  | none => simp [faultOf, placedFaults, Word.cause?, ← hnone, hv]

/-- A count has a fault of its own when it does not fit 64 bits, and no other. -/
theorem faultOf_count {t : Token} (h : Decimal.isDigits t.text.toList = true) :
    faultOf t.count = placedFaults [(t.offset, .count t.text.toList)] := by
  rw [Token.count, Decimal.readUInt64, h, Bool.true_and, Decimal.digitsValue_eq]
  by_cases hlt : Nat.ofDigitChars 10 t.text.toList 0 < UInt64.size
  · simp [faultOf, placedFaults, Word.cause?, hlt]
  · simp [faultOf, placedFaults, Word.cause?, hlt, Nat.not_lt.mp hlt]

/-! ### Patterns -/

/-- What the pattern reads lies in the text as the words of a phrase, with the faults of these words and no others. -/
def Locates {α β : Type} (p : Pattern α) (of : β → α → Prop) (words : β → List Word) (faults : α → List Fault) : Prop :=
  ∀ ⦃c d : Cursor⦄ ⦃a : α⦄, p.match? c = some (a, d) →
    ∃ b ps, of b a ∧ ps.map Prod.snd = words b ∧ placedFaults ps = faults a ∧ Lays c d ps

/-- The word can be at no fault. -/
def Word.Quiet : Word → Prop
  | .literal _ => False
  | .count _ => False
  | _ => True

theorem Word.Quiet.cause? {w : Word} (h : w.Quiet) : w.cause? = none := by
  cases w with
  | literal l => exact h.elim
  | count ds => exact h.elim
  | _ => rfl

section Combine
variable {α α' β β' : Type} {p : Pattern α} {q : Pattern α'} {of : β → α → Prop} {of' : β' → α' → Prop}
  {words : β → List Word} {words' : β' → List Word} {faults : α → List Fault} {faults' : α' → List Fault}

theorem Recognises.locates {before : List Word → Prop} (hp : Recognises p of words before)
    (hquiet : ∀ b, ∀ w ∈ words b, w.Quiet) : Locates p of words fun _ => [] := by
  intro c d a h
  obtain ⟨b, hb, hreads⟩ := hp.taken h
  obtain ⟨ps, hps, hlays⟩ := hreads.lays
  exact ⟨b, ps, hb, hps, placedFaults_of_quiet fun w hw => (hquiet b w (hps ▸ hw)).cause?, hlays⟩

theorem Locates.named {rule : Rule} (hp : Locates p of words faults) : Locates (.named rule p) of words faults :=
  fun _ _ _ h => hp h

theorem Locates.seq (hp : Locates p of words faults) (hq : Locates q of' words' faults') :
    Locates (p.seq q) (fun b a => of b.1 a.1 ∧ of' b.2 a.2) (fun b : β × β' => words b.1 ++ words' b.2)
      fun a => faults a.1 ++ faults' a.2 := by
  rintro c d ⟨a, a'⟩ h
  obtain ⟨m, h₁, h₂⟩ := Pattern.match?_seq_eq_some_iff.mp h
  obtain ⟨b, ps, hb, hps, hfaults, hlays⟩ := hp h₁
  obtain ⟨b', qs, hb', hqs, hfaults', hlays'⟩ := hq h₂
  refine ⟨(b, b'), ps ++ qs, ⟨hb, hb'⟩, ?_, ?_, hlays.trans hlays'.skip⟩
  · rw [List.map_append, hps, hqs]
  · rw [placedFaults_append, hfaults, hfaults']

theorem Locates.map {f : α → α'} {r : β → α' → Prop} {g : α' → List Fault} (hp : Locates p of words faults)
    (hof : ∀ b a, of b a → r b (f a)) (hfaults : ∀ a, faults a = g (f a)) :
    Locates (p.map f) r words g := by
  intro c d a' h
  obtain ⟨a, hm, rfl⟩ := Pattern.match?_map_eq_some_iff.mp h
  obtain ⟨b, ps, hb, hps, hf, hlays⟩ := hp hm
  exact ⟨b, ps, hof b a hb, hps, hf.trans (hfaults a), hlays⟩

theorem Locates.congr {g : α → List Fault} (hp : Locates p of words faults)
    (hfaults : ∀ b a, of b a → faults a = g a) : Locates p of words g := by
  intro c d a h
  obtain ⟨b, ps, hb, hps, hf, hlays⟩ := hp h
  exact ⟨b, ps, hb, hps, hf.trans (hfaults b a hb), hlays⟩

theorem Locates.cover {r : β' → α → Prop} (hp : Locates p of words faults) (g : β → β')
    (hwords : ∀ b, words' (g b) = words b) (hof : ∀ b a, of b a → r (g b) a) : Locates p r words' faults := by
  intro c d a h
  obtain ⟨b, ps, hb, hps, hf, hlays⟩ := hp h
  exact ⟨g b, ps, hof b a hb, hps.trans (hwords b).symm, hf, hlays⟩

theorem Locates.andThen {lead : List Word} {none : α → List Fault} (hp : Locates p (fun _ : Unit => fun _ => True)
    (fun _ => lead) none) (hnone : ∀ a, none a = []) (hq : Locates q of' words' faults') :
    Locates (p.andThen q) of' (fun b' => lead ++ words' b') faults' :=
  ((hp.seq hq).map (r := fun b a => of' b.2 a) (fun _ _ h => h.2) fun a => by rw [hnone]; rfl).cover Prod.snd
    (fun _ => rfl) fun _ _ h => h

theorem Locates.orElse {q : Pattern α} {of' : β' → α → Prop} (hp : Locates p of words faults)
    (hq : Locates q of' words' faults) :
    Locates (p.orElse q) (Sum.elim of of') (Sum.elim words words') faults := by
  intro c d a h
  rcases Pattern.match?_orElse_eq_some_iff.mp h with h | ⟨-, h⟩
  · obtain ⟨b, ps, hall⟩ := hp h
    exact ⟨.inl b, ps, hall⟩
  · obtain ⟨b', ps, hall⟩ := hq h
    exact ⟨.inr b', ps, hall⟩

theorem Locates.optional (hp : Locates p of words faults) :
    Locates p.optional (Option.Rel of) (fun o => o.elim [] words) fun o => o.elim [] faults := by
  intro c d o h
  rcases Pattern.match?_optional_eq_some_iff.mp h with ⟨a, rfl, hm⟩ | ⟨rfl, rfl, -⟩
  · obtain ⟨b, ps, hb, hall⟩ := hp hm
    exact ⟨some b, ps, .some hb, hall⟩
  · exact ⟨none, [], .none, rfl, rfl, .refl _⟩

theorem Locates.many (hp : Locates p of words faults) (htakes : p.Takes) :
    Locates p.many (List.Forall₂ of) (fun bs => bs.flatMap words) fun items => items.flatMap faults := by
  intro c d items h
  have hrepeats := (Pattern.match?_many_eq_some_iff htakes).mp h
  clear h
  induction hrepeats with
  | stop _ => exact ⟨[], [], .nil, rfl, rfl, .refl _⟩
  | more hm _ ih =>
    obtain ⟨b, ps, hb, hps, hf, hlays⟩ := hp hm
    obtain ⟨bs, qs, hbs, hqs, hf', hlays'⟩ := ih
    refine ⟨b :: bs, ps ++ qs, .cons hb hbs, ?_, ?_, hlays.skip.trans hlays'⟩
    · rw [List.map_append, hps, hqs]
      rfl
    · rw [placedFaults_append, hf, hf']
      rfl

/-- A text that is read as a whole lies there from its front to its end. -/
theorem Locates.read_whole {rule : Rule} (hp : Locates p of words faults) {text : String} {a : α}
    (h : (whole rule p).read text = .ok a) : ∃ b ps, of b a ∧ Placed 0 text.toList ps ∧
      ps.map Prod.snd = words b ∧ placedFaults ps = faults a := by
  obtain ⟨d, hm⟩ := Pattern.read_eq_ok_iff.mp h
  obtain ⟨m, hm, hnil, -⟩ := match?_whole_eq_some_iff.mp hm
  obtain ⟨b, ps, hb, hps, hf, hlays⟩ := hp hm
  refine ⟨b, ps, hb, ?_, hps, hf⟩
  obtain ⟨qs, hqs, hend⟩ := exists_placed (cut_nil_iff.mpr hnil : Cut m.rest []) m.offset
  obtain rfl := List.map_eq_nil_iff.mp hqs
  have hplaced := hlays.skip hend
  rwa [List.append_nil] at hplaced

end Combine

/-! ### Parts of a statement -/

/-- The faults of the sign and the operands of a test. -/
def testFaults : Grammar.Test → List Fault
  | .comparison _ sign operand => faultOf sign.operator ++ faultOf operand.value
  | .range _ low high => faultOf low.value ++ faultOf high.value

theorem locates_value :
    Locates value (fun l t => t.text.toList = l) (fun l => [.literal l]) fun t => faultOf t.value := by
  intro c d t h
  obtain ⟨hrest, hplace, hoffset, hl, he⟩ := value_taken h
  refine ⟨_, _, rfl, rfl, (faultOf_value hl).symm, ?_⟩
  rw [hplace]
  exact lays_word hrest hoffset ⟨hl, rfl⟩ he

theorem locates_count :
    Locates (.word .count) (fun ds t => t.text.toList = ds) (fun ds => [.count ds]) fun t => faultOf t.count := by
  intro c d t h
  obtain ⟨text, hscan, rfl, hoffset⟩ := Cursor.word?_eq_some_iff.mp h
  obtain ⟨hrest, hds, hend⟩ := scanCount_eq_some_iff.mp hscan
  have hfault := faultOf_count (t := { offset := c.offset, text := String.ofList text }) (by rwa [String.toList_ofList])
  rw [String.toList_ofList] at hfault
  exact ⟨_, _, String.toList_ofList, rfl, hfault.symm, lays_word hrest hoffset ⟨hds, rfl⟩ hend⟩

theorem locates_keyword (k : Keyword) :
    Locates (keyword k) (fun _ : Unit => fun _ => True) (fun _ => [.keyword k]) fun _ => [] :=
  (recognises_keyword k).locates (by simp [Word.Quiet])

theorem locates_name : Locates name (fun n t => t.text.toList = n) (fun n => [.name n]) fun _ => [] :=
  recognises_name.locates (by simp [Word.Quiet])

theorem locates_entity : Locates entity (fun n t => t.text.toList = n) (fun n => [.name n]) fun _ => [] :=
  locates_name.named

theorem locates_comparison : Locates comparison (fun b a => Test.Of (.compare b.1 b.2.1 b.2.2) a)
    (fun b : List Char × Operator × List Char => Test.words (.compare b.1 b.2.1 b.2.2)) testFaults := by
  have hsign := (recognises_comparisonSign.locates (by simp [Word.Quiet])).congr (g := fun t => faultOf t.operator)
    fun _ t h => by rw [operator_of_known h]; rfl
  refine ((locates_name.seq (hsign.seq locates_value)).map (g := testFaults) ?_ fun _ => rfl).named
  rintro b a ⟨h₁, h₂, h₃⟩
  exact ⟨h₁, h₂, h₃⟩

theorem locates_range : Locates range (fun b a => Test.Of (.range b.1 b.2.1 b.2.2) a)
    (fun b : List Char × List Char × List Char => Test.words (.range b.1 b.2.1 b.2.2)) testFaults := by
  have hbounds := (locates_keyword .between).andThen (fun _ => rfl)
    (locates_value.seq ((locates_keyword .and).andThen (fun _ => rfl) locates_value))
  refine ((locates_name.seq hbounds).map (g := testFaults) ?_ fun _ => rfl).named
  rintro b a ⟨h₁, h₂, h₃⟩
  exact ⟨h₁, h₂, h₃⟩

theorem locates_test : Locates (range.orElse comparison) Test.Of Test.words testFaults := by
  refine (locates_range.orElse locates_comparison).cover
    (Sum.elim (fun b => .range b.1 b.2.1 b.2.2) (fun b => .compare b.1 b.2.1 b.2.2)) ?_ ?_
  · rintro (b | b) <;> rfl
  · rintro (b | b) a h <;> exact h

theorem locates_condition : Locates condition Filter.Of Filter.words fun a => testFaults a.test := by
  have hnegation := (recognises_negation.locates (by simp [Word.Quiet])).optional
  refine (((hnegation.seq locates_test).map (r := fun b a => Filter.Of { negated := b.1.isSome, test := b.2 } a)
    ?_ ?_).cover (fun b => { negated := b.1.isSome, test := b.2 }) ?_ fun _ _ h => h).named
  · rintro ⟨o, t⟩ ⟨o', t'⟩ ⟨h₁, h₂⟩
    refine ⟨?_, h₂⟩
    cases h₁ <;> rfl
  · rintro ⟨_ | _, t⟩ <;> rfl
  · rintro ⟨_ | _, t⟩ <;> rfl

theorem locates_filter : Locates whereClause.optional (Option.Rel Filter.Of) filterWords
    fun a => a.elim [] fun f => testFaults f.test :=
  ((locates_keyword .whereWord).andThen (fun _ => rfl) locates_condition).named.optional

theorem quiet_listed {first : List Word} {more : List (List Word)} (hfirst : ∀ w ∈ first, w.Quiet)
    (hmore : ∀ ws ∈ more, ∀ w ∈ ws, w.Quiet) : ∀ w ∈ listed first more, w.Quiet := by
  intro w hw
  rcases List.mem_append.mp hw with hw | hw
  · exact hfirst w hw
  · obtain ⟨ws, hws, hw⟩ := List.mem_flatMap.mp hw
    rcases List.mem_cons.mp hw with rfl | hw
    · trivial
    · exact hmore ws hws w hw

theorem SortItem.quiet (i : SortItem) : ∀ w ∈ i.words, w.Quiet := by
  obtain ⟨field, _ | d⟩ := i <;> simp [SortItem.words, Word.Quiet]

theorem Fields.quiet (f : Fields) : ∀ w ∈ f.words, w.Quiet := by
  cases f with
  | star => simp [Fields.words, Word.Quiet]
  | named first more => exact quiet_listed (by simp [Word.Quiet]) (by simp [Word.Quiet])

theorem locates_skipClause : Locates skipClause (fun ds a => Clause.Of (.skip ds) a)
    (fun ds => Clause.words (.skip ds)) fun a => faultOf a.finding :=
  (((locates_keyword .skip).andThen (fun _ => rfl) locates_count).map (f := Tail.skip) (fun _ _ h => h)
    fun _ => (faultOf_map ..).symm).named

theorem locates_limitClause : Locates limitClause (fun ds a => Clause.Of (.limit ds) a)
    (fun ds => Clause.words (.limit ds)) fun a => faultOf a.finding :=
  (((locates_keyword .limit).andThen (fun _ => rfl) locates_count).map (f := Tail.limit) (fun _ _ h => h)
    fun _ => (faultOf_map ..).symm).named

theorem quiet_order {first : SortItem} {more : List SortItem} {w : Word}
    (hw : w ∈ Clause.words (.order first more)) : w.Quiet := by
  simp only [Clause.words, List.mem_cons] at hw
  rcases hw with rfl | rfl | hw
  · trivial
  · trivial
  · refine quiet_listed first.quiet (fun ws hws => ?_) w hw
    obtain ⟨i, -, rfl⟩ := List.mem_map.mp hws
    exact i.quiet

theorem locates_orderClause : Locates orderClause (fun b a => Clause.Of (.order b.1 b.2) a)
    (fun b : SortItem × List SortItem => Clause.words (.order b.1 b.2)) fun a => faultOf a.finding := by
  refine (recognises_orderClause.locates fun b w hw => quiet_order hw).congr fun b a hof => ?_
  -- An order clause is read as nothing else.
  cases a with
  | order items => rfl
  | skip count => cases hof
  | limit count => cases hof

theorem locates_clause : Locates (orderClause.orElse (skipClause.orElse limitClause)) Clause.Of Clause.words
    fun a => faultOf a.finding := by
  refine (locates_orderClause.orElse (locates_skipClause.orElse locates_limitClause)).cover
    (Sum.elim (fun b => .order b.1 b.2) (Sum.elim .skip .limit)) ?_ ?_
  · rintro (b | b | b) <;> rfl
  · rintro (b | b | b) a h <;> exact h

/-! ### Statements -/

theorem faults_append (fs gs : List Finding) :
    Finding.faults (fs ++ gs) = Finding.faults fs ++ Finding.faults gs :=
  List.filterMap_append

theorem faults_map (tail : List Tail) :
    Finding.faults (tail.map Tail.finding) = tail.flatMap fun a => faultOf a.finding := by
  induction tail with
  | nil => rfl
  | cons a tail ih =>
    rw [List.map_cons, List.flatMap_cons, ← ih]
    cases h : a.finding <;> simp [Finding.faults, faultOf]

theorem faults_ofBoth {α β : Type} (make : α → β → Event) (x : Except Fault α) (y : Except Fault β) :
    Finding.faults (Finding.ofBoth make x y) = faultOf x ++ faultOf y := by
  cases x <;> cases y <;> rfl

theorem faults_filter (f : Grammar.Filter) : Finding.faults f.findings = testFaults f.test := by
  obtain ⟨negated, test⟩ := f
  cases test <;> exact faults_ofBoth ..

theorem faults_filterFindings (f : Option Grammar.Filter) :
    Finding.faults (filterFindings f) = f.elim [] fun f => testFaults f.test := by
  cases f with
  | none => rfl
  | some f => exact faults_filter f

theorem locates_tail : Locates (orderClause.orElse (skipClause.orElse limitClause)).many (List.Forall₂ Clause.Of)
    (fun bs => bs.flatMap Clause.words) fun as => as.flatMap fun a => faultOf a.finding :=
  locates_clause.many takes_clause

theorem locates_select : Locates select Select.Of Select.words fun a => Finding.faults a.findings := by
  have hentity := locates_entity.seq (locates_filter.seq locates_tail)
  have hfields := (recognises_fields.locates Fields.quiet).seq
    ((locates_keyword .fromWord).andThen (fun _ => rfl) hentity)
  have hwhole := ((locates_keyword .select).andThen (fun _ => rfl) hfields).map
    (f := fun p => ({ fields := p.1, entity := p.2.1, filter := p.2.2.1, tail := p.2.2.2 } : Grammar.Select))
    (r := fun b a => Select.Of { fields := b.1, entity := b.2.1, filter := b.2.2.1, tail := b.2.2.2 } a)
    (g := fun a => Finding.faults a.findings) (fun _ _ h => ⟨h.1, h.2.1, h.2.2.1, h.2.2.2⟩) fun p => ?_
  · exact (hwhole.cover (fun b => { fields := b.1, entity := b.2.1, filter := b.2.2.1, tail := b.2.2.2 })
      (fun _ => rfl) fun _ _ h => h).named
  · rw [← faults_filterFindings, ← faults_map]
    exact (faults_append ..).symm

theorem locates_delete : Locates delete Delete.Of Delete.words fun a => Finding.faults a.findings := by
  have hentity := locates_entity.seq locates_filter
  have hwhole := ((locates_keyword .delete).andThen (fun _ => rfl)
    ((locates_keyword .fromWord).andThen (fun _ => rfl) hentity)).map
    (f := fun p => ({ entity := p.1, filter := p.2 } : Grammar.Delete))
    (r := fun b a => Delete.Of { entity := b.1, filter := b.2 } a)
    (g := fun a => Finding.faults a.findings) (fun _ _ h => ⟨h.1, h.2⟩) fun p => ?_
  · exact (hwhole.cover (fun b => { entity := b.1, filter := b.2 }) (fun _ => rfl) fun _ _ h => h).named
  · rw [← faults_filterFindings]
    rfl

theorem locates_statement : Locates ((select.map .select).orElse (delete.map .delete)) Statement.Of Statement.words
    fun a => Finding.faults a.findings := by
  have hselect := locates_select.map (f := Grammar.Statement.select) (r := fun s a => Statement.Of (.select s) a)
    (g := fun a => Finding.faults a.findings) (fun _ _ h => h) fun _ => rfl
  have hdelete := locates_delete.map (f := Grammar.Statement.delete) (r := fun s a => Statement.Of (.delete s) a)
    (g := fun a => Finding.faults a.findings) (fun _ _ h => h) fun _ => rfl
  refine (hselect.orElse hdelete).cover (Sum.elim .select .delete) ?_ ?_
  · rintro (s | s) <;> rfl
  · rintro (s | s) a h <;> exact h

end EntityQuery.Language
