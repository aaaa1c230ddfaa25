import EntityQuery.Proofs.Language.Literal

/-! # Statements are recognised

Each part of the grammar recognises the phrases of its kind. Where an alternative, an optional part or a
repetition is tried, the first word decides, except between the two tests: a name begins both, and the
word behind it decides. A statement that was read has the texts of a tree in its places (`Statement.Of`).
-/

namespace EntityQuery.Language
open Grammar

/-! ### Trees and what is read -/

def SortItem.Of (i : SortItem) (a : OrderItem) : Prop :=
  a.field.text.toList = i.field ∧ a.direction = i.direction.getD .ascending

def Test.Of : Test → Grammar.Test → Prop
  | .compare field operator operand, .comparison field' sign operand' =>
    field'.text.toList = field ∧ Operator.ofSymbol? sign.text = some operator ∧ operand'.text.toList = operand
  | .range field low high, .range field' low' high' =>
    field'.text.toList = field ∧ low'.text.toList = low ∧ high'.text.toList = high
  | _, _ => False

def Filter.Of (f : Filter) (a : Grammar.Filter) : Prop :=
  a.negated = f.negated ∧ f.test.Of a.test

def Clause.Of : Clause → Tail → Prop
  | .order first more, .order items => List.Forall₂ SortItem.Of (first :: more) items
  | .skip digits, .skip count => count.text.toList = digits
  | .limit digits, .limit count => count.text.toList = digits
  | _, _ => False

/-- The statement that was read has the texts of the tree. -/
structure Select.Of (s : Select) (a : Grammar.Select) : Prop where
  fields : a.fields.map (·.text.toList) = s.fields.names
  entity : a.entity.text.toList = s.entity
  filter : Option.Rel Filter.Of s.filter a.filter
  tail : List.Forall₂ Clause.Of s.tail a.tail

structure Delete.Of (s : Delete) (a : Grammar.Delete) : Prop where
  entity : a.entity.text.toList = s.entity
  filter : Option.Rel Filter.Of s.filter a.filter

def Statement.Of : Statement → Grammar.Statement → Prop
  | .select s, .select a => s.Of a
  | .delete s, .delete a => s.Of a
  | _, _ => False

/-! ### Commas -/

theorem recognises_comma :
    Recognises (.symbol ",") (fun _ : Unit => fun _ => True) (fun _ => [.comma]) anyWords :=
  recognises_symbol (fun _ => Iff.rfl) fun _ => trivial

theorem mayBegin_comma {w : Word} (h : w ≠ .comma) : w.mayBegin ',' = false := by
  cases w with
  | comma => exact absurd rfl h
  | _ => dsimp only [Word.mayBegin]; decide

theorem fails_comma {ws : List Word} (h : ws.head? ≠ some .comma) : Fails (.symbol ",") ws :=
  fun _ hcut => symbol_fails rfl hcut fun _ hw => mayBegin_comma fun heq => h (heq ▸ hw)

/-- A list of phrases takes every phrase that a comma stands before. -/
theorem Recognises.listed {α β : Type} {p : Pattern α} {of : β → α → Prop} {words : β → List Word}
    {before : List Word → Prop} (hp : Recognises p of words before) (hcomma : ∀ ws, before (.comma :: ws)) :
    Recognises p.listed (fun b items => List.Forall₂ of (b.1 :: b.2) items)
      (fun b : β × List β => listed (words b.1) (b.2.map words))
      (fun ws => before ws ∧ ws.head? ≠ some .comma) := by
  have hitem : Recognises ((Pattern.symbol ",").andThen p) of (fun b => .comma :: words b) before :=
    recognises_comma.andThen hp fun _ _ _ => trivial
  have hmany := hitem.many (Pattern.takes_symbol (by decide)).andThen fun b ws => hcomma _
  have hall := (hp.seq hmany ?_).map (f := fun items => items.1 :: items.2)
    (r := fun b items => List.Forall₂ of (b.1 :: b.2) items) fun b a h => .cons h.1 h.2
  · refine (hall.cover id (fun b => ⟨b, rfl⟩) (fun b => ?_) fun _ _ h => h).mono fun ws h =>
      ⟨h.1, (fails_comma h.2).andThen⟩
    rw [id, Language.listed, List.flatMap_map]
  · rintro (_ | ⟨b, bs⟩) ws h
    · exact h.1
    · exact hcomma _

/-! ### Tests -/

theorem mayBegin_equals_literal (l : List Char) : (Word.literal l).mayBegin '=' = false := by
  dsimp only [Word.mayBegin]
  decide

theorem recognises_comparison :
    Recognises comparison (fun b a => Test.Of (.compare b.1 b.2.1 b.2.2) a)
      (fun b : List Char × Operator × List Char => Test.words (.compare b.1 b.2.1 b.2.2)) anyWords := by
  refine ((recognises_name.seq (recognises_comparisonSign.seq recognises_value ?_) ?_).map ?_).named
  · rintro l ws - w hw
    obtain rfl := Option.some.inj hw
    exact mayBegin_equals_literal l
  · intro _ _ _
    trivial
  · rintro b a ⟨h₁, h₂, h₃⟩
    exact ⟨h₁, h₂, h₃⟩

theorem recognises_range :
    Recognises range (fun b a => Test.Of (.range b.1 b.2.1 b.2.2) a)
      (fun b : List Char × List Char × List Char => Test.words (.range b.1 b.2.1 b.2.2)) anyWords := by
  have hbounds := (recognises_keyword .between).andThen (recognises_value.seq ((recognises_keyword .and).andThen
    recognises_value fun _ _ _ => trivial) fun _ _ _ => trivial) fun _ _ _ => trivial
  refine ((recognises_name.seq hbounds fun _ _ _ => trivial).map ?_).named
  rintro b a ⟨h₁, h₂, h₃⟩
  exact ⟨h₁, h₂, h₃⟩

theorem fails_range (field : List Char) {ws : List Word} (h : ws.head? ≠ some (.keyword .between)) :
    Fails range (.name field :: ws) :=
  ((fails_keyword h).andThen.seq_second recognises_name (b := field) trivial).map.named

theorem recognises_test : Recognises (range.orElse comparison) Test.Of Test.words anyWords := by
  refine (recognises_range.orElse recognises_comparison ?_).cover
    (Sum.elim (fun b => .range b.1 b.2.1 b.2.2) (fun b => .compare b.1 b.2.1 b.2.2)) ?_ ?_ ?_
  -- Behind the field of a comparison stands a sign, so the range is left again.
  · intro b ws
    exact fails_range b.1 (by simp)
  · rintro (⟨field, operator, operand⟩ | ⟨field, low, high⟩)
    · exact ⟨.inr (field, operator, operand), rfl⟩
    · exact ⟨.inl (field, low, high), rfl⟩
  · rintro (b | b) <;> rfl
  · rintro (b | b) a h <;> exact h

theorem recognises_negation :
    Recognises negation (fun _ : Unit => fun _ => True) (fun _ => [.keyword .not]) anyWords :=
  ((recognises_keyword .not).map fun _ _ h => h).named

theorem test_words_head (t : Test) (ws : List Word) : ∃ n, (t.words ++ ws).head? = some (.name n) := by
  cases t with
  | compare field operator operand => exact ⟨field, rfl⟩
  | range field low high => exact ⟨field, rfl⟩

theorem recognises_condition : Recognises condition Filter.Of Filter.words anyWords := by
  have hnegation := recognises_negation.optional.seq recognises_test fun t ws _ => ⟨trivial, ?_⟩
  · refine ((hnegation.map (r := fun b a => Filter.Of { negated := b.1.isSome, test := b.2 } a) ?_).cover
      (fun b => { negated := b.1.isSome, test := b.2 }) ?_ ?_ fun _ _ h => h).named
    · rintro ⟨o, t⟩ ⟨o', t'⟩ ⟨h₁, h₂⟩
      refine ⟨?_, h₂⟩
      cases h₁ <;> rfl
    · rintro ⟨_ | _, t⟩
      · exact ⟨(none, t), rfl⟩
      · exact ⟨(some (), t), rfl⟩
    · rintro ⟨_ | _, t⟩ <;> rfl
  -- A test begins with a name, so a missing negation is not taken from it.
  · obtain ⟨n, hn⟩ := test_words_head t ws
    refine Fails.named (Fails.map (fails_keyword ?_))
    rw [hn]
    simp

theorem recognises_whereClause :
    Recognises whereClause Filter.Of (fun f => .keyword .whereWord :: f.words) anyWords :=
  ((recognises_keyword .whereWord).andThen recognises_condition fun _ _ _ => trivial).named

theorem fails_whereClause {ws : List Word} (h : ws.head? ≠ some (.keyword .whereWord)) : Fails whereClause ws :=
  (fails_keyword h).andThen.named

theorem recognises_filter :
    Recognises whereClause.optional (Option.Rel Filter.Of) filterWords
      (fun ws => ws.head? ≠ some (.keyword .whereWord)) :=
  recognises_whereClause.optional.mono fun _ h => ⟨trivial, fails_whereClause h⟩

/-! ### Sort keys and counts -/

theorem recognises_direction :
    Recognises direction (fun d d' => d' = d) (fun d => [.keyword (directionWord d)]) anyWords := by
  have hasc := (recognises_keyword .asc).map (f := fun _ => Direction.ascending)
    (r := fun _ d' => d' = Direction.ascending) fun _ _ _ => rfl
  have hdesc := (recognises_keyword .desc).map (f := fun _ => Direction.descending)
    (r := fun _ d' => d' = Direction.descending) fun _ _ _ => rfl
  refine ((hasc.orElse hdesc ?_).cover (Sum.elim (fun _ => .ascending) (fun _ => .descending)) ?_ ?_ ?_).named
  · intro _ ws
    exact Fails.map (fails_keyword (by simp))
  · rintro (_ | _)
    · exact ⟨.inl (), rfl⟩
    · exact ⟨.inr (), rfl⟩
  · rintro (_ | _) <;> rfl
  · rintro (_ | _) a h <;> exact h

theorem fails_direction {ws : List Word} (h : ∀ d, ws.head? ≠ some (.keyword (directionWord d))) :
    Fails direction ws :=
  ((fails_keyword (h .ascending)).map.orElse (fails_keyword (h .descending)).map).named

theorem recognises_orderItem :
    Recognises orderItem SortItem.Of SortItem.words
      (fun ws => ∀ d, ws.head? ≠ some (.keyword (directionWord d))) := by
  have hseq := recognises_name.seq recognises_direction.optional fun _ _ _ => trivial
  refine (((hseq.map (r := fun b a => SortItem.Of { field := b.1, direction := b.2 } a) ?_).cover
    (fun b => { field := b.1, direction := b.2 }) ?_ ?_ fun _ _ h => h).mono ?_).named
  · rintro ⟨n, o⟩ ⟨t, o'⟩ ⟨h₁, h₂⟩
    refine ⟨h₁, ?_⟩
    cases h₂ with
    | none => rfl
    | some h => exact h
  · intro i
    exact ⟨(i.field, i.direction), rfl⟩
  · rintro ⟨n, _ | d⟩ <;> rfl
  · intro ws h
    exact ⟨trivial, fails_direction h⟩

/-- What may stand behind a clause: neither a direction nor a comma. -/
def EndsClause (ws : List Word) : Prop :=
  (∀ d, ws.head? ≠ some (.keyword (directionWord d))) ∧ ws.head? ≠ some .comma

theorem recognises_orderClause :
    Recognises orderClause (fun b a => Clause.Of (.order b.1 b.2) a)
      (fun b : SortItem × List SortItem => Clause.words (.order b.1 b.2)) EndsClause := by
  have hitems := recognises_orderItem.listed fun _ d => by simp
  have hclause := (recognises_keyword .order).andThen ((recognises_keyword .byWord).andThen hitems
    fun _ _ _ => trivial) fun _ _ _ => trivial
  exact (hclause.map (f := Tail.order) fun _ _ h => h).named

theorem recognises_skipClause :
    Recognises skipClause (fun ds a => Clause.Of (.skip ds) a) (fun ds => Clause.words (.skip ds)) EndsClause := by
  have hclause := (recognises_keyword .skip).andThen recognises_count fun _ _ _ => trivial
  exact ((hclause.map (f := Tail.skip) fun _ _ h => h).mono fun _ _ => trivial).named

theorem recognises_limitClause :
    Recognises limitClause (fun ds a => Clause.Of (.limit ds) a) (fun ds => Clause.words (.limit ds)) EndsClause := by
  have hclause := (recognises_keyword .limit).andThen recognises_count fun _ _ _ => trivial
  exact ((hclause.map (f := Tail.limit) fun _ _ h => h).mono fun _ _ => trivial).named

theorem recognises_clause :
    Recognises (orderClause.orElse (skipClause.orElse limitClause)) Clause.Of Clause.words EndsClause := by
  have hcounts := recognises_skipClause.orElse recognises_limitClause
    fun ds ws => (fails_keyword (by simp [Clause.words])).andThen.map.named
  refine (recognises_orderClause.orElse hcounts ?_).cover
    (Sum.elim (fun b => .order b.1 b.2) (Sum.elim .skip .limit)) ?_ ?_ ?_
  · rintro (ds | ds) ws <;> exact (fails_keyword (by simp [Clause.words])).andThen.map.named
  · rintro (⟨first, more⟩ | ds | ds)
    · exact ⟨.inl (first, more), rfl⟩
    · exact ⟨.inr (.inl ds), rfl⟩
    · exact ⟨.inr (.inr ds), rfl⟩
  · rintro (b | b | b) <;> rfl
  · rintro (b | b | b) a h <;> exact h

/-- A clause begins with a keyword of its own, which ends the clause before it. -/
theorem endsClause_words (b : Clause) (ws : List Word) : EndsClause (b.words ++ ws) := by
  have hd : ∀ d, directionWord d ≠ .order ∧ directionWord d ≠ .skip ∧ directionWord d ≠ .limit := by
    rintro (_ | _) <;> decide
  cases b <;> simp [EndsClause, Clause.words, fun d => (hd d).1.symm, fun d => (hd d).2.1.symm,
    fun d => (hd d).2.2.symm]

theorem fails_clause_end : Fails (orderClause.orElse (skipClause.orElse limitClause)) [] := by
  have hkeyword : ∀ k, Fails (keyword k) [] := fun k => fails_keyword (by simp)
  exact (hkeyword _).andThen.map.named.orElse
    ((hkeyword _).andThen.map.named.orElse (hkeyword _).andThen.map.named)

theorem takes_clause : (orderClause.orElse (skipClause.orElse limitClause)).Takes := by
  have htakes : ∀ {α : Type} {k : Keyword} {q : Pattern α} {f : α → Tail} {r : Rule},
      (Pattern.named r (((keyword k).andThen q).map f)).Takes :=
    fun {_ _ _ _ _} => (Pattern.takes_word _).andThen.map.named _
  exact htakes.orElse (htakes.orElse htakes)

theorem recognises_tail :
    Recognises (orderClause.orElse (skipClause.orElse limitClause)).many (List.Forall₂ Clause.Of)
      (fun bs => bs.flatMap Clause.words) (fun ws => ws = []) := by
  refine (recognises_clause.many takes_clause endsClause_words).mono ?_
  rintro ws rfl
  exact ⟨by simp [EndsClause], fails_clause_end⟩

/-! ### Statements -/

theorem texts_eq {names : List (List Char)} {tokens : List Token}
    (h : List.Forall₂ (fun n t => t.text.toList = n) names tokens) : tokens.map (·.text.toList) = names := by
  have heq : List.Forall₂ Eq names (tokens.map (·.text.toList)) :=
    List.forall₂_map_right_iff.mpr (h.imp fun _ _ => Eq.symm)
  rw [List.forall₂_eq_eq_eq] at heq
  exact heq.symm

theorem fails_star (first : List Char) (ws : List Word) : Fails (.symbol "*") (.name first :: ws) := by
  refine fun c hcut => symbol_fails rfl hcut fun w hw => ?_
  obtain rfl := Option.some.inj hw
  dsimp only [Word.mayBegin]
  decide

theorem recognises_fields :
    Recognises fields (fun b a => a.map (·.text.toList) = b.names) Fields.words
      (fun ws => ws.head? ≠ some .comma) := by
  have hstar := (recognises_symbol (s := "*") (w := .star) (fun _ => Iff.rfl) fun _ => trivial).map
    (f := fun _ => ([] : List Token)) (r := fun _ a => a = []) fun _ _ _ => rfl
  have hnames := recognises_name.listed fun _ => trivial
  have hchoice := ((hstar.mono fun _ _ => trivial).named (r := .allFields)).orElse hnames
    fun b ws => (fails_star b.1 _).map.named
  refine ((hchoice.cover (Sum.elim (fun _ => .star) (fun b => .named b.1 b.2)) ?_ ?_ ?_).mono ?_).named
  · rintro (_ | ⟨first, more⟩)
    · exact ⟨.inl (), rfl⟩
    · exact ⟨.inr (first, more), rfl⟩
  · rintro (_ | ⟨first, more⟩) <;> rfl
  · rintro (_ | b) a h
    · exact congrArg _ h
    · exact texts_eq h
  · intro ws h
    exact ⟨trivial, h⟩

theorem recognises_entity :
    Recognises entity (fun n t => t.text.toList = n) (fun n => [.name n]) anyWords :=
  recognises_name.named

theorem recognises_select : Recognises select Select.Of Select.words (fun ws => ws = []) := by
  have hend := recognises_filter.seq recognises_tail fun bs ws hws => ?_
  · have hentity := recognises_entity.seq hend fun _ _ _ => trivial
    have hfields := recognises_fields.seq ((recognises_keyword .fromWord).andThen hentity fun _ _ _ => trivial)
      fun b ws _ => by simp
    have hwhole := ((recognises_keyword .select).andThen hfields fun _ _ _ => trivial).map
      (f := fun p => ({ fields := p.1, entity := p.2.1, filter := p.2.2.1, tail := p.2.2.2 } : Grammar.Select))
      (r := fun b a => Select.Of { fields := b.1, entity := b.2.1, filter := b.2.2.1, tail := b.2.2.2 } a)
      fun _ _ h => ⟨h.1, h.2.1, h.2.2.1, h.2.2.2⟩
    refine (hwhole.cover (fun b => { fields := b.1, entity := b.2.1, filter := b.2.2.1, tail := b.2.2.2 })
      (fun s => ⟨(s.fields, s.entity, s.filter, s.tail), rfl⟩) (fun _ => ?_) fun _ _ h => h).named
    rfl
  · subst hws
    cases bs with
    | nil => simp
    | cons b bs => cases b <;> simp [Clause.words]

theorem recognises_delete : Recognises delete Delete.Of Delete.words (fun ws => ws = []) := by
  have hentity := recognises_entity.seq recognises_filter fun _ _ _ => trivial
  have hwhole := ((recognises_keyword .delete).andThen ((recognises_keyword .fromWord).andThen hentity
    fun _ _ _ => trivial) fun _ _ _ => trivial).map
    (f := fun p => ({ entity := p.1, filter := p.2 } : Grammar.Delete))
    (r := fun b a => Delete.Of { entity := b.1, filter := b.2 } a) fun _ _ h => ⟨h.1, h.2⟩
  refine ((hwhole.cover (fun b => { entity := b.1, filter := b.2 }) (fun s => ⟨(s.entity, s.filter), rfl⟩)
    (fun _ => ?_) fun _ _ h => h).mono ?_).named
  · rfl
  · rintro ws rfl
    simp

theorem recognises_statement :
    Recognises ((select.map .select).orElse (delete.map .delete)) Statement.Of Statement.words
      (fun ws => ws = []) := by
  have hselect := recognises_select.map (f := Grammar.Statement.select)
    (r := fun s a => Statement.Of (.select s) a) fun _ _ h => h
  have hdelete := recognises_delete.map (f := Grammar.Statement.delete)
    (r := fun s a => Statement.Of (.delete s) a) fun _ _ h => h
  refine (hselect.orElse hdelete fun s ws => ?_).cover (Sum.elim .select .delete) ?_ ?_ ?_
  · exact (Fails.named (Fails.map (fails_keyword (by simp [Delete.words])).andThen)).map
  · rintro (s | s)
    · exact ⟨.inl s, rfl⟩
    · exact ⟨.inr s, rfl⟩
  · rintro (s | s) <;> rfl
  · rintro (s | s) a h <;> exact h

/-! ### Whole texts -/

section Whole
variable {α β : Type} {p : Pattern α} {of : β → α → Prop} {words : β → List Word} {rule : Rule}

/-- A text is read exactly when the whole of it can be cut into the words of a phrase. -/
theorem Recognises.read_whole (hp : Recognises p of words (fun ws => ws = [])) {text : String} {a : α}
    (h : (whole rule p).read text = .ok a) : ∃ b, of b a ∧ Cut text.toList (words b) := by
  obtain ⟨d, hm⟩ := Pattern.read_eq_ok_iff.mp h
  obtain ⟨m, hm, hnil, -⟩ := match?_whole_eq_some_iff.mp hm
  obtain ⟨b, hb, hcut⟩ := hp.sound hm
  refine ⟨b, hb, ?_⟩
  have := cut_skip.mp (hcut [] (cut_nil_iff.mpr hnil))
  rwa [List.append_nil] at this

theorem Recognises.whole_read (hp : Recognises p of words (fun ws => ws = [])) {text : String} {b : β}
    (h : Cut text.toList (words b)) : ∃ a, (whole rule p).read text = .ok a ∧ of b a := by
  have hcut : Cut (Cursor.start text).rest (words b ++ []) := by rwa [List.append_nil]
  obtain ⟨a, m, hm, ha, hd⟩ := hp.complete hcut rfl
  refine ⟨a, Pattern.read_eq_ok_iff.mpr ⟨_, match?_whole_eq_some_iff.mpr ⟨m, hm, ?_, rfl⟩⟩, ha⟩
  exact cut_nil_iff.mp hd

end Whole

end EntityQuery.Language
