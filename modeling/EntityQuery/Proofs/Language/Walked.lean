import EntityQuery.Proofs.Language.Located
import EntityQuery.Proofs.Language.Viable

/-! # What a walk finds

A walk through a text that fits the grammar gives one event for each clause in the order of the text, with what
the clause says, and leaves out exactly the clauses that have a word at fault (`Statement.Gives`). Each such word
is reported once, in the order of the text and at its own byte. What was known before is kept in front and
changes nothing, and the first thing reported is what compiling fails with. -/

namespace EntityQuery.Language
open Grammar

/-! ### The events of a statement -/

/-- A part of a statement gives one event, unless a word of it is at fault: then it gives none. -/
def Gives (words : List Word) (meant : Event → Prop) (events : List Event) : Prop :=
  if ∀ w ∈ words, w.cause? = none then ∃ e, meant e ∧ events = [e] else events = []

/-- The event that a condition gives. It is negated when the word `NOT` is written. -/
def Filter.Says (f : Filter) (e : Event) : Prop :=
  ∃ c, f.test.Means c ∧ e = .condition c.field c.operator c.operand f.negated

def FilterGives : Option Filter → List Event → Prop
  | none, events => events = []
  | some f, events => Gives f.words f.Says events

def TailGives (tail : List Clause) (events : List Event) : Prop :=
  ∃ parts, List.Forall₂ (fun b es => Gives b.words b.Says es) tail parts ∧ events = parts.flatten

/-- The events of a statement, clause by clause. -/
def Statement.Gives : Statement → List Event → Prop
  | .select s, events => ∃ condition tail, FilterGives s.filter condition ∧ TailGives s.tail tail ∧
      events = .fields (s.fields.names.map String.ofList) :: .entity (String.ofList s.entity) :: (condition ++ tail)
  | .delete s, events => ∃ condition, FilterGives s.filter condition ∧
      events = .entity (String.ofList s.entity) :: condition

/-- The kind of the statement that a tree is. -/
def Statement.kind : Statement → Kind
  | .select _ => .select
  | .delete _ => .delete

/-! ### Parts without a fault -/

theorem cause?_literal_iff {l : List Char} (h : IsLiteral l) : (Word.literal l).cause? = none ↔ ∃ v, Denotes l v := by
  have hnone := literal_none_iff h
  have hvalue : (Decimal.readDecimal l).any Float.isInf = false ↔ Value.ofLiteral? (String.ofList l) ≠ none := by
    rw [Ne, hnone, Bool.not_eq_true]
  rw [Word.cause?, ite_eq_right_iff]
  simp only [reduceCtorEq, imp_false, Bool.not_eq_true, hvalue, Option.ne_none_iff_exists', ofLiteral?_eq_some_iff h]

theorem cause?_count_iff {ds : List Char} :
    (Word.count ds).cause? = none ↔ Nat.ofDigitChars 10 ds 0 < UInt64.size := by
  simp [Word.cause?]

/-- A condition says something exactly when no word of it is at fault. -/
theorem filter_says_iff {f : Filter} (hf : ∀ w ∈ f.test.words, w.Spelled) :
    (∀ w ∈ f.words, w.cause? = none) ↔ ∃ e, f.Says e := by
  have hwords : (∀ w ∈ f.words, w.cause? = none) ↔ ∀ w ∈ f.test.words, w.cause? = none := by
    cases h : f.negated <;> simp [Filter.words, h, Word.cause?]
  have hsays : (∃ e, f.Says e) ↔ ∃ c, f.test.Means c := by
    constructor
    · rintro ⟨e, c, hc, -⟩
      exact ⟨c, hc⟩
    · rintro ⟨c, hc⟩
      exact ⟨_, c, hc, rfl⟩
  rw [hwords, hsays]
  obtain ⟨negated, test⟩ := f
  cases test with
  | compare field operator operand =>
    have hl := isLiteral_of_spelled (hf (.literal operand) (by simp [Test.words]))
    have hcause := cause?_literal_iff hl
    constructor
    · intro h
      obtain ⟨v, hv⟩ := hcause.mp (h _ (by simp [Test.words]))
      exact ⟨⟨String.ofList field, operator, v⟩, rfl, rfl, hv⟩
    · rintro ⟨c, -, -, hv⟩ w hw
      simp only [Test.words, List.mem_cons, List.not_mem_nil, or_false] at hw
      rcases hw with rfl | rfl | rfl
      · rfl
      · rfl
      · exact hcause.mpr ⟨_, hv⟩
  | range field low high =>
    have hlow := cause?_literal_iff (isLiteral_of_spelled (hf (.literal low) (by simp [Test.words])))
    have hhigh := cause?_literal_iff (isLiteral_of_spelled (hf (.literal high) (by simp [Test.words])))
    constructor
    · intro h
      obtain ⟨v, hv⟩ := hlow.mp (h _ (by simp [Test.words]))
      obtain ⟨v', hv'⟩ := hhigh.mp (h _ (by simp [Test.words]))
      exact ⟨⟨String.ofList field, .between, .pair v v'⟩, rfl, rfl, v, v', hv, hv', rfl⟩
    · rintro ⟨c, -, -, v, v', hv, hv', -⟩ w hw
      simp only [Test.words, List.mem_cons, List.not_mem_nil, or_false] at hw
      rcases hw with rfl | rfl | rfl | rfl | rfl
      · rfl
      · rfl
      · exact hlow.mpr ⟨v, hv⟩
      · rfl
      · exact hhigh.mpr ⟨v', hv'⟩

/-- A clause says something exactly when no word of it is at fault. -/
theorem clause_says_iff {b : Clause} : (∀ w ∈ b.words, w.cause? = none) ↔ ∃ e, b.Says e := by
  rw [exists_clause_says_iff]
  cases b with
  | order first more =>
    have hquiet : ∀ w ∈ Clause.words (.order first more), w.cause? = none := fun w hw => (quiet_order hw).cause?
    exact iff_of_true hquiet (by simp [Clause.count?, Clause.skip?, Clause.limit?])
  | skip ds => simp [Clause.words, Clause.count?, Clause.skip?, cause?_count_iff]
  | limit ds => simp [Clause.words, Clause.count?, Clause.skip?, Clause.limit?, cause?_count_iff]

/-! ### The events of what is read -/

theorem events_append (fs gs : List Finding) :
    Finding.events (fs ++ gs) = Finding.events fs ++ Finding.events gs :=
  List.filterMap_append

@[simp] theorem events_map_ok (events : List Event) : Finding.events (events.map .ok) = events := by
  induction events with
  | nil => rfl
  | cons e events ih => rw [List.map_cons, Finding.events, List.filterMap_cons, ← Finding.events, ih]

/-- Two readings give one event, or faults only. -/
theorem events_ofBoth {α β : Type} (make : α → β → Event) (x : Except Fault α) (y : Except Fault β) :
    Finding.events (Finding.ofBoth make x y) = [] ∨ ∃ e, Finding.ofBoth make x y = [.ok e] := by
  cases x with
  | ok a =>
    cases y with
    | ok b => exact Or.inr ⟨_, rfl⟩
    | error f => exact Or.inl rfl
  | error f => cases y <;> exact Or.inl rfl

theorem events_filter (f : Grammar.Filter) : Finding.events f.findings = [] ∨ ∃ e, f.findings = [.ok e] := by
  obtain ⟨negated, test⟩ := f
  cases test <;> exact events_ofBoth ..

theorem filter_gives {f : Filter} {a : Grammar.Filter} (hof : f.Of a) (hf : ∀ w ∈ f.test.words, w.Spelled) :
    Gives f.words f.Says (Finding.events a.findings) := by
  rw [Gives]
  split
  · rename_i hquiet
    obtain ⟨e, c, hc, rfl⟩ := (filter_says_iff hf).mp hquiet
    have hfindings := (filter_findings_eq_iff hof hf).mpr ⟨c, hc, rfl⟩
    refine ⟨_, ⟨c, hc, rfl⟩, ?_⟩
    rw [hfindings, events_map_ok]
    rfl
  · rename_i hfault
    refine (events_filter a).resolve_right fun ⟨e, he⟩ => hfault ((filter_says_iff hf).mpr ?_)
    have hfindings : a.findings = [e].map Except.ok := he
    obtain ⟨c, hc, -⟩ := (filter_findings_eq_iff hof hf).mp hfindings
    exact ⟨_, c, hc, rfl⟩

theorem filterFindings_gives {f : Option Filter} {a : Option Grammar.Filter} (hof : Option.Rel Filter.Of f a)
    (hf : ∀ w ∈ filterWords f, w.Spelled) : FilterGives f (Finding.events (filterFindings a)) := by
  cases hof with
  | none => rfl
  | @some f a hof => exact filter_gives hof fun w hw => hf w (by simp [filterWords, Filter.words, hw])

theorem clause_gives {b : Clause} {a : Tail} (hof : b.Of a) (hb : ∀ w ∈ b.words, w.Spelled) :
    Gives b.words b.Says (Finding.events [a.finding]) := by
  rw [Gives]
  split
  · rename_i hquiet
    obtain ⟨e, he⟩ := clause_says_iff.mp hquiet
    exact ⟨e, he, by rw [(finding_eq_ok_iff hof hb).mpr he]; rfl⟩
  · rename_i hfault
    cases h : a.finding with
    | ok e => exact absurd (clause_says_iff.mpr ⟨e, (finding_eq_ok_iff hof hb).mp h⟩) hfault
    | error f => rfl

theorem tail_gives {tail : List Clause} {read : List Tail} (hof : List.Forall₂ Clause.Of tail read)
    (ht : ∀ b ∈ tail, ∀ w ∈ b.words, w.Spelled) : TailGives tail (Finding.events (read.map Tail.finding)) := by
  induction hof with
  | nil => exact ⟨[], .nil, rfl⟩
  | @cons b a tail read hba _ ih =>
    obtain ⟨parts, hparts, hevents⟩ := ih fun b' hb' => ht b' (List.mem_cons_of_mem _ hb')
    refine ⟨_ :: parts, .cons (clause_gives hba (ht b List.mem_cons_self)) hparts, ?_⟩
    rw [List.flatten_cons, ← hevents, ← events_append]
    rfl

theorem statement_gives {s : Statement} {a : Grammar.Statement} (hof : s.Of a) (hs : ∀ w ∈ s.words, w.Spelled) :
    s.Gives (Finding.events a.findings) := by
  cases s with
  | select s =>
    cases a with
    | delete => cases hof
    | select a =>
      have hname := Select.Of.isName hof hs
      refine ⟨_, _, filterFindings_gives hof.filter (s.spelled_filter hs),
        tail_gives hof.tail (s.spelled_clause hs), ?_⟩
      rw [← texts_map hof.fields, ← hof.entity, String.ofList_toList, ← events_append]
      simp only [Grammar.Statement.findings, Grammar.Select.findings, entityFinding_eq hname]
      rfl
  | delete s =>
    cases a with
    | select => cases hof
    | delete a =>
      have hname := Delete.Of.isName hof hs
      refine ⟨_, filterFindings_gives hof.filter (s.spelled_filter hs), ?_⟩
      rw [← hof.entity, String.ofList_toList]
      simp only [Grammar.Statement.findings, Grammar.Delete.findings, entityFinding_eq hname]
      rfl

/-! ### Failing with the first fault -/

theorem collect_eq_error_iff {findings : List Finding} {f : Fault} :
    Finding.collect findings = .error f ↔ (Finding.faults findings).head? = some f := by
  induction findings with
  | nil => simp [Finding.collect, Finding.faults]
  | cons x findings ih =>
    cases x with
    | ok e => rw [Finding.collect, map_eq_error_iff, ih]; rfl
    | error g => simp [Finding.collect, Finding.faults]

/-- A draft with a named entity makes a query of either form. -/
theorem draft_ne_error {d : Draft} {t : Token} (hd : d.entity = some t.text) (h : IsName t.text.toList) (e : Fault) :
    d.toSelect ≠ .error e ∧ d.toDelete ≠ .error e := by
  rw [Draft.toSelect, Draft.toDelete, entityName_eq hd h]
  constructor <;> (intro hno; cases hno)

/-- A statement that was read has no query only for its first fault: an entity is always named. -/
theorem compileStatement_eq_error_iff {s : Statement} {a : Grammar.Statement} (hof : s.Of a)
    (hs : ∀ w ∈ s.words, w.Spelled) {f : Fault} :
    compileStatement a = .error f ↔ (Finding.faults a.findings).head? = some f := by
  rw [← collect_eq_error_iff]
  cases s with
  | select s =>
    cases a with
    | delete => cases hof
    | select a =>
      have hname := Select.Of.isName hof hs
      rw [compileStatement, map_eq_error_iff, compileSelectStatement, bind_eq_error_iff]
      -- Making a query of the events cannot fail: the entity of a statement is a name.
      refine or_iff_left ?_
      rintro ⟨events, hevents, herror⟩
      obtain ⟨c, tail, hc, ht, rfl⟩ := (select_findings_eq_iff hof hs).mp (collect_eq_ok_iff.mp hevents)
      refine (draft_ne_error (t := a.entity) ?_ hname f).1 herror
      rw [Draft.ofEvents, List.foldl_cons, List.foldl_cons, List.foldl_append,
        foldl_conditionEvents (hc.fits (s.spelled_filter hs)) rfl]
      exact (tailed_foldl ht _).entity
  | delete s =>
    cases a with
    | select => cases hof
    | delete a =>
      have hname := Delete.Of.isName hof hs
      rw [compileStatement, map_eq_error_iff, compileDeleteStatement, bind_eq_error_iff]
      refine or_iff_left ?_
      rintro ⟨events, hevents, herror⟩
      obtain ⟨c, hc, rfl⟩ := (delete_findings_eq_iff hof hs).mp (collect_eq_ok_iff.mp hevents)
      refine (draft_ne_error (t := a.entity) ?_ hname f).2 herror
      rw [Draft.ofEvents, List.foldl_cons, foldl_conditionEvents (hc.fits (s.spelled_filter hs)) rfl]
      rfl

end EntityQuery.Language

namespace EntityQuery
open Grammar EntityQuery.Language

/-! ### The forms -/

/-- The form lets in statements of this kind. -/
def Form.LetsIn : Form → Kind → Prop
  | .any, _ => True
  | .only kind, kind' => kind' = kind

section Forms
variable {form : Form} {text : String}

/-- A fault behind a piece of the text is reported at its own byte. -/
theorem position_inText {f : Fault} {before after : List Char} (h : text.toList = before ++ after)
    (hf : f.offset = Text.byteLength before) : (f.inText text).location.position = f.offset := by
  have hle : f.offset ≤ Text.byteLength text.toList := by
    rw [h, hf, Text.byteLength_append]
    exact Nat.le_add_right _ _
  exact Nat.min_eq_left hle

theorem placedFaults_sublist (ps : List (Nat × Word)) :
    ((placedFaults ps).map (·.offset)).Sublist (ps.map Prod.fst) := by
  induction ps with
  | nil => exact .slnil
  | cons p ps ih =>
    rw [placedFaults, List.filterMap_cons, ← placedFaults]
    cases p.2.cause? with
    | none => exact ih.cons _
    | some cause => exact ih.cons_cons _

theorem Form.compile_eq (form : Form) (text : String) :
    form.compile text = ((form.read text).bind compileStatement).mapError (·.inText text) := by
  have hselect : ∀ a, compileStatement (.select a) = (compileSelectStatement a).map .select := fun _ => rfl
  have hdelete : ∀ a, compileStatement (.delete a) = (compileDeleteStatement a).map .delete := fun _ => rfl
  rw [form.read_eq]
  change form.compile text = compileText form.pattern compileStatement text
  rcases form with _ | _ | _
  · rw [Form.compile, EntityQuery.compile, Form.pattern]
  · rw [Form.compile, compileSelect, Form.pattern, compileText_map (Pattern.read_map ..) hselect]
  · rw [Form.compile, compileDelete, Form.pattern, compileText_map (Pattern.read_map ..) hdelete]

/-- A text that is read is a statement of the form, with its faults at their places. -/
theorem Form.read_located {a : Grammar.Statement} (h : form.read text = .ok a) :
    ∃ (s : Language.Statement) (ps : List (Nat × Word)), s.Of a ∧ form.LetsIn s.kind ∧ Placed 0 text.toList ps ∧
      ps.map Prod.snd = s.words ∧ placedFaults ps = Finding.faults a.findings := by
  rcases form with _ | _ | _
  · rw [Form.read] at h
    obtain ⟨s, ps, hof, hall⟩ := locates_statement.read_whole h
    exact ⟨s, ps, hof, trivial, hall⟩
  · rw [Form.read, map_eq_ok_iff] at h
    obtain ⟨a, ha, rfl⟩ := h
    obtain ⟨s, ps, hof, hall⟩ := locates_select.read_whole ha
    exact ⟨.select s, ps, hof, rfl, hall⟩
  · rw [Form.read, map_eq_ok_iff] at h
    obtain ⟨a, ha, rfl⟩ := h
    obtain ⟨s, ps, hof, hall⟩ := locates_delete.read_whole ha
    exact ⟨.delete s, ps, hof, rfl, hall⟩

theorem Form.read_of_cut {s : Language.Statement} (hs : form.LetsIn s.kind) (h : Cut text.toList s.words) :
    ∃ a, form.read text = .ok a := by
  rcases form with _ | _ | _
  · have hread : ∃ a, (whole .query _).read text = .ok a ∧ s.Of a := recognises_statement.whole_read h
    obtain ⟨a, ha, -⟩ := hread
    exact ⟨a, ha⟩
  · cases s with
    | delete s => cases hs
    | select s =>
      have hread : ∃ a, (whole .selectQuery select).read text = .ok a ∧ s.Of a := recognises_select.whole_read h
      obtain ⟨a, ha, -⟩ := hread
      exact ⟨.select a, by rw [Form.read, selectText, ha]; rfl⟩
  · cases s with
    | select s => cases hs
    | delete s =>
      have hread : ∃ a, (whole .deleteQuery delete).read text = .ok a ∧ s.Of a := recognises_delete.whole_read h
      obtain ⟨a, ha, -⟩ := hread
      exact ⟨.delete a, by rw [Form.read, deleteText, ha]; rfl⟩

theorem kind_of {s : Language.Statement} {a : Grammar.Statement} (h : s.Of a) : a.kind = s.kind := by
  cases s with
  | select s =>
    cases a with
    | select a => rfl
    | delete a => cases h
  | delete s =>
    cases a with
    | select a => cases h
    | delete a => rfl

/-- A text that was read has a statement before its end, and the walk goes through it. -/
theorem Form.walk_of_read {a : Grammar.Statement} (h : form.read text = .ok a) (known : List CompileError) :
    form.walk text known =
      { kind := some a.kind
        events := Finding.events a.findings
        errors := known ++ (Finding.faults a.findings).map (·.inText text) } := by
  rw [Form.walk, Form.parts, h]
  rfl

theorem Form.walk_of_error {f : Fault} (h : form.read text = .error f) (known : List CompileError) :
    form.walk text known = { kind := none, events := [], errors := known ++ [f.inText text] } := by
  rw [Form.walk, Form.parts, h]
  rfl

/-- What a walk gives for a text that is the statement, with its words at these places. -/
structure Form.Accounts (form : Form) (text : String) (s : Language.Statement) (ps : List (Nat × Word))
    (events : List Event) : Prop where
  admitted : form.LetsIn s.kind
  placed : Placed 0 text.toList ps
  words : ps.map Prod.snd = s.words
  gives : s.Gives events
  ordered : ((placedFaults ps).map (·.offset)).Pairwise (· < ·)
  positions : ∀ f ∈ placedFaults ps, (f.inText text).location.position = f.offset
  walk : ∀ known, form.walk text known =
    { kind := some s.kind, events, errors := known ++ (placedFaults ps).map (·.inText text) }

/-- What a walk gives for a text that is no statement of the form. -/
structure Form.Rejects (form : Form) (text : String) (f : Fault) : Prop where
  excluded : ∀ s : Language.Statement, form.LetsIn s.kind → ¬Cut text.toList s.words
  walk : ∀ known, form.walk text known = { kind := none, events := [], errors := known ++ [f.inText text] }

theorem Form.accounts_of_read {a : Grammar.Statement} (h : form.read text = .ok a) :
    ∃ s ps, form.Accounts text s ps (Finding.events a.findings) := by
  obtain ⟨s, ps, hof, hs, hplaced, hwords, hfaults⟩ := form.read_located h
  have hspelled : ∀ w ∈ s.words, w.Spelled := spelled_of_cut (hwords ▸ hplaced.cut)
  refine ⟨s, ps, hs, hplaced, hwords, statement_gives hof hspelled, ?_, ?_, fun known => ?_⟩
  · exact hplaced.pairwise.sublist (placedFaults_sublist ps)
  · intro f hf
    obtain ⟨w, hp, -⟩ := mem_placedFaults.mp hf
    obtain ⟨before, word, after, htext, hoffset, -⟩ := hplaced.split hp
    exact position_inText htext (hoffset.trans (Nat.zero_add _))
  · rw [Form.walk_of_read h, hfaults, ← kind_of hof]

theorem Form.rejects_of_read {f : Fault} (h : form.read text = .error f) : form.Rejects text f := by
  refine ⟨fun s hs hcut => ?_, Form.walk_of_error h⟩
  obtain ⟨a, ha⟩ := form.read_of_cut hs hcut
  rw [ha] at h
  cases h

/-- A text that is read has no query only for its first fault. -/
theorem Form.first_fault {a : Grammar.Statement} (h : form.read text = .ok a) {f : Fault} :
    compileStatement a = .error f ↔ (Finding.faults a.findings).head? = some f := by
  obtain ⟨s, ps, hof, -, hplaced, hwords, -⟩ := form.read_located h
  exact compileStatement_eq_error_iff hof (spelled_of_cut (hwords ▸ hplaced.cut))

/-- Compiling fails with the first thing that a walk reports. -/
theorem Form.compile_eq_error_iff {known : List CompileError} {e : CompileError} :
    form.compile text = .error e ↔ ((form.walk text known).errors.drop known.length).head? = some e := by
  rw [form.compile_eq, mapError_eq_error_iff]
  cases h : form.read text with
  | error f =>
    rw [Form.walk_of_error h]
    simp [Except.bind]
  | ok a =>
    rw [Form.walk_of_read h]
    simp only [Except.bind, Form.first_fault h, List.drop_left, List.head?_map, Option.map_eq_some_iff]

/-- A walk accounts for every clause and every fault of a statement, and reports what is no statement once.
    What was known before is kept in front and changes nothing, and compiling fails exactly when something is
    reported, with the first of it. -/
theorem Form.walk_accounts (form : Form) (text : String) :
    ((∃ s ps events, form.Accounts text s ps events) ∨ ∃ f, form.Rejects text f) ∧
      ∀ known e, form.compile text = .error e ↔
        ((form.walk text known).errors.drop known.length).head? = some e := by
  refine ⟨?_, fun _ _ => Form.compile_eq_error_iff⟩
  cases h : form.read text with
  | ok a =>
    obtain ⟨s, ps, haccounts⟩ := Form.accounts_of_read h
    exact Or.inl ⟨s, ps, _, haccounts⟩
  | error f => exact Or.inr ⟨f, Form.rejects_of_read h⟩

-- Both bounds are at fault, and the clause behind them is still read
example : ((Form.any.walk "SELECT * FROM t WHERE x BETWEEN 1e999 AND -1e999 LIMIT 3" []).errors.map
    (·.location.position)) = [32, 42] := by decide +kernel

end Forms

end EntityQuery
