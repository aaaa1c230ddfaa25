import EntityQuery.Proofs.Language.Walked

/-! # Errors are true to their text

Compiling fails with the report of one fault: of the parts that were looked for at a byte of the text, or of the
literal or the count that stands there (`Form.Reports`). A walk has an answer for texts without a statement and
for signs that are no operator, and a compiler that makes a query from what a walk gives (`Form.compileGuarded`)
needs one for statements without an entity or of another form; none of these answers is ever given. -/

namespace EntityQuery
open Grammar EntityQuery.Language

/-! ### Guards -/

/-- The messages for what no statement that is read lacks. -/
def guardMessages : List String :=
  ["Empty query", "Expected SELECT statement", "Expected DELETE statement", "Expected entity name",
    "Unknown comparison operator"]

/-- Compiles what a walk gives: the first error, or the query of the events. -/
def Form.compileGuarded (form : Form) (text : String) : Except CompileError Query :=
  let walk := form.walk text []
  match walk.kind, walk.errors.head? with
  | _, some e => .error e
  | some kind, none =>
    ((Draft.ofEvents walk.events).finish kind).mapError fun e => .malformedAt text e.location.position e.message
  | none, none => .error (.malformedAt text 0 "Empty query")

/-- Compiles a statement that reads rows, with an answer for the other form. -/
def compileSelectGuarded (text : String) : Except CompileError SelectQuery :=
  ((Form.only .select).compileGuarded text).bind fun
    | .select q => .ok q
    | .delete _ => .error (.malformedAt text 0 "Expected SELECT statement")

/-- Compiles a statement that deletes rows, with an answer for the other form. -/
def compileDeleteGuarded (text : String) : Except CompileError DeleteQuery :=
  ((Form.only .delete).compileGuarded text).bind fun
    | .delete q => .ok q
    | .select _ => .error (.malformedAt text 0 "Expected DELETE statement")

section Guards
variable {form : Form} {text : String}

theorem compileStatement_eq (a : Grammar.Statement) :
    compileStatement a = (Finding.collect a.findings).bind fun events => (Draft.ofEvents events).toQuery a.kind := by
  cases a with
  | select a =>
    rw [compileStatement, compileSelectStatement]
    show ((Finding.collect a.findings).bind _).map _ = (Finding.collect a.findings).bind _
    cases Finding.collect a.findings <;> rfl
  | delete a =>
    rw [compileStatement, compileDeleteStatement]
    show ((Finding.collect a.findings).bind _).map _ = (Finding.collect a.findings).bind _
    cases Finding.collect a.findings <;> rfl

theorem Form.compileGuarded_eq (form : Form) (text : String) : form.compileGuarded text = form.compile text := by
  rw [Form.compileGuarded, form.compile_eq]
  cases h : form.read text with
  | error f =>
    rw [Form.walk_of_error h]
    rfl
  | ok a =>
    rw [Form.walk_of_read h]
    cases hq : compileStatement a with
    | error f => simp [Except.bind, Except.mapError, hq, (Form.first_fault h).mp hq]
    | ok q =>
      -- Without a first fault there is none at all, and the walk gives the events of every clause.
      have hnone : Finding.faults a.findings = [] := by
        refine List.head?_eq_none_iff.mp (Option.eq_none_iff_forall_ne_some.mpr fun f hf => ?_)
        rw [(Form.first_fault h).mpr hf] at hq
        cases hq
      have hdraft : (Draft.ofEvents (Finding.events a.findings)).toQuery a.kind = .ok q := by
        rw [compileStatement_eq, bind_eq_ok_iff] at hq
        obtain ⟨events, hevents, hdraft⟩ := hq
        rwa [collect_eq_ok_iff.mp hevents, events_map_ok]
      simp [Except.bind, Except.mapError, hnone, Draft.finish, hdraft, hq]

theorem compileSelectGuarded_eq (text : String) : compileSelectGuarded text = compileSelect text := by
  rw [compileSelectGuarded, Form.compileGuarded_eq, Form.compile]
  cases compileSelect text <;> rfl

theorem compileDeleteGuarded_eq (text : String) : compileDeleteGuarded text = compileDelete text := by
  rw [compileDeleteGuarded, Form.compileGuarded_eq, Form.compile]
  cases compileDelete text <;> rfl

/-- Every sign of a text is the sign of the operator that it is read as. -/
theorem sign_known {ps : List (Nat × Word)} (h : Placed 0 text.toList ps) {p : Nat} {o : Operator}
    (hp : (p, .sign o) ∈ ps) : ∃ before sign after, text.toList = before ++ (sign ++ after) ∧
      Text.byteLength before = p ∧ Operator.ofSymbol? (String.ofList sign) = some o := by
  obtain ⟨before, sign, after, htext, hoffset, ⟨hrange, rfl⟩, -⟩ := h.split hp
  refine ⟨before, _, after, htext, (hoffset.trans (Nat.zero_add _)).symm, ?_⟩
  rw [String.ofList_toList]
  exact Operator.ofSymbol?_eq_some_iff.mpr ⟨hrange, rfl⟩

end Guards

/-! ### Reports -/

/-- What can be reported at a byte of a text: parts of the grammar that were looked for, or the literal or the
    count of a statement that stands there. -/
inductive Form.Reports (form : Form) (text : String) (position : Nat) : String → Prop
  | expected {rules : List Rule} : rules ≠ [] → (∀ r ∈ rules, r ∈ form.pattern.names) →
      Reports form text position ("expected " ++ Text.alternatives ((Rule.sorted rules).map (·.label)))
  | literal {s : Language.Statement} {ps : List (Nat × Word)} {l : List Char} : form.LetsIn s.kind →
      Placed 0 text.toList ps → ps.map Prod.snd = s.words → (position, .literal l) ∈ ps →
      Reports form text position ("Unrecognized literal: " ++ String.ofList l)
  | count {s : Language.Statement} {ps : List (Nat × Word)} {ds : List Char} : form.LetsIn s.kind →
      Placed 0 text.toList ps → ps.map Prod.snd = s.words → (position, .count ds) ∈ ps →
      Reports form text position ("Integer out of range: " ++ String.ofList ds)

/-- An error that is true to the text: all of it follows from the place and the message, the place is one
    between two characters, and the message is about what stands there. -/
structure Form.Faithful (form : Form) (text : String) (e : CompileError) : Prop where
  kind : e.kind = .malformed
  report : e = .malformedAt text e.location.position e.message
  boundary : ∃ before after, text.toList = before ++ after ∧ Text.byteLength before = e.location.position
  reason : form.Reports text e.location.position e.message
  unguarded : e.message ∉ guardMessages

section Reports
variable {form : Form} {text : String}

theorem Form.Reports.unguarded {position : Nat} {message : String} (h : form.Reports text position message) :
    message ∉ guardMessages := by
  have differs : ∀ {front rest : String}, (∀ g ∈ guardMessages, ¬front.toList <+: g.toList) →
      front ++ rest ∉ guardMessages := by
    intro front rest hfront hmem
    refine hfront _ hmem ?_
    rw [String.toList_append]
    exact List.prefix_append _ _
  cases h with
  | expected => exact differs (by decide +kernel)
  | literal => exact differs (by decide +kernel)
  | count => exact differs (by decide +kernel)

theorem Form.read_error_names {f : Fault} (h : form.read text = .error f) :
    ∃ rules, f.cause = .expected rules ∧ rules ≠ [] ∧ ∀ r ∈ rules, r ∈ form.pattern.names := by
  have named : ∀ {α : Type} {rule : Rule} {p : Pattern α}, (Pattern.named rule p).read text = .error f →
      ∃ rules, f.cause = .expected rules ∧ rules ≠ [] ∧ ∀ r ∈ rules, r ∈ (Pattern.named rule p).names := by
    intro α rule p hread
    obtain ⟨rules, hcause, hne, hall⟩ := Pattern.read_named_error hread
    refine ⟨rules, hcause, hne, fun r hr => ?_⟩
    obtain ⟨d, htries, -⟩ := hall r hr
    exact htries.mem_names
  rcases form with _ | _ | _
  · rw [Form.read] at h
    exact named h
  · rw [Form.read, map_eq_error_iff] at h
    exact named h
  · rw [Form.read, map_eq_error_iff] at h
    exact named h

theorem faithful_of_fault {f : Fault} {before after : List Char} (htext : text.toList = before ++ after)
    (hoffset : f.offset = Text.byteLength before) (h : form.Reports text f.offset f.cause.message) :
    form.Faithful text (f.inText text) := by
  have hposition := position_inText htext hoffset
  have hreason : form.Reports text (f.inText text).location.position (f.inText text).message := hposition ▸ h
  exact
    { kind := rfl
      report := by rw [hposition]; rfl
      boundary := ⟨before, after, htext, hoffset.symm.trans hposition.symm⟩
      reason := hreason
      unguarded := hreason.unguarded }

theorem Form.faithful_of_read_error {f : Fault} (h : form.read text = .error f) :
    form.Faithful text (f.inText text) := by
  obtain ⟨-, before, after, -, -, htext, hlen, -⟩ := Form.read_error_continues h
  obtain ⟨rules, hcause, hne, hnames⟩ := Form.read_error_names h
  refine faithful_of_fault htext hlen.symm ?_
  rw [hcause]
  exact .expected hne hnames

theorem Form.faithful_of_read {a : Grammar.Statement} (h : form.read text = .ok a) {f : Fault}
    (hf : f ∈ Finding.faults a.findings) : form.Faithful text (f.inText text) := by
  obtain ⟨s, ps, -, hs, hplaced, hwords, hfaults⟩ := form.read_located h
  -- The fault is that of a word, and stands where the word stands.
  obtain ⟨w, hp, hw⟩ := mem_placedFaults.mp (hfaults ▸ hf)
  obtain ⟨before, word, after, htext, hoffset, -⟩ := hplaced.split hp
  refine faithful_of_fault htext (hoffset.trans (Nat.zero_add _)) ?_
  cases w with
  | literal l =>
    rw [Word.cause?, Option.ite_none_right_eq_some] at hw
    rw [← Option.some.inj hw.2]
    exact .literal hs hplaced hwords hp
  | count ds =>
    rw [Word.cause?, Option.ite_none_right_eq_some] at hw
    rw [← Option.some.inj hw.2]
    exact .count hs hplaced hwords hp
  | _ => cases hw

/-- All that a walk reports is true to the text, and not only what it reports first. -/
theorem Form.faithful_of_reported {e : CompileError} (h : e ∈ (form.walk text []).errors) : form.Faithful text e := by
  cases hread : form.read text with
  | error f =>
    rw [Form.walk_of_error hread] at h
    obtain rfl := List.mem_singleton.mp h
    exact Form.faithful_of_read_error hread
  | ok a =>
    rw [Form.walk_of_read hread] at h
    obtain ⟨f, hf, rfl⟩ := List.mem_map.mp h
    exact Form.faithful_of_read hread hf

theorem Form.faithful_of_error {e : CompileError} (h : form.compile text = .error e) : form.Faithful text e := by
  have hfirst : (form.walk text []).errors.head? = some e :=
    (@Form.compile_eq_error_iff form text [] e).mp h
  exact Form.faithful_of_reported (List.mem_of_mem_head? hfirst)

/-- Every error of the three compilers is true to its text, the answers for what no statement lacks are never
    given, and every sign of a statement is known. -/
theorem compile_faithful (text : String) :
    (∀ e, compile text = .error e → Form.any.Faithful text e) ∧
    (∀ e, compileSelect text = .error e → (Form.only .select).Faithful text e) ∧
    (∀ e, compileDelete text = .error e → (Form.only .delete).Faithful text e) ∧
    (∀ form : Form, form.compileGuarded text = form.compile text) ∧
    compileSelectGuarded text = compileSelect text ∧ compileDeleteGuarded text = compileDelete text ∧
    ∀ ps, Placed 0 text.toList ps → ∀ p o, (p, .sign o) ∈ ps → ∃ before sign after,
      text.toList = before ++ (sign ++ after) ∧ Text.byteLength before = p ∧
        Operator.ofSymbol? (String.ofList sign) = some o := by
  refine ⟨fun e h => Form.faithful_of_error h, fun e h => ?_, fun e h => ?_, fun form => form.compileGuarded_eq text,
    compileSelectGuarded_eq text, compileDeleteGuarded_eq text, fun ps h p o hp => sign_known h hp⟩
  · have herror : (Form.only .select).compile text = .error e := by rw [Form.compile, map_eq_error_iff, h]
    exact Form.faithful_of_error herror
  · have herror : (Form.only .delete).compile text = .error e := by rw [Form.compile, map_eq_error_iff, h]
    exact Form.faithful_of_error herror

-- An overflowing literal is reported where it stands, and not as a missing condition
example : compile "DELETE FROM T WHERE a = -1e999" =
    .error (.malformedAt "DELETE FROM T WHERE a = -1e999" 24 "Unrecognized literal: -1e999") := by decide +kernel

end Reports

end EntityQuery
