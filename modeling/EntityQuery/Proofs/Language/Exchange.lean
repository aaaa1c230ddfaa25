import EntityQuery.Proofs.Language.Forms
import EntityQuery.Proofs.Language.Printed

/-! # Quoted literals can be exchanged

Any quoted literal can be written in the place of a quoted literal of the condition: the text around it is cut
into the same words, and the query changes in this value only. What stands between the quotes is free, once a
backslash is put before each backslash and each quote (`Form.compile_enclose`). -/

namespace EntityQuery

/-! ### The literals of a condition -/

/-- Where a literal stands in a condition. -/
inductive Slot
  | operand
  | low
  | high
  deriving DecidableEq, Repr

/-- An operand with another value in a slot. -/
def Slot.put : Slot → Value → Value → Value
  | .operand, v, _ => v
  | .low, v, .pair _ second => .pair v second
  | .high, v, .pair first _ => .pair first v
  | _, _, old => old

/-- A condition with another value in a slot. -/
def Condition.put (c : Condition) (slot : Slot) (v : Value) : Condition :=
  { c with operand := slot.put v c.operand }

/-- A query with another value in a slot of its condition. -/
def Query.put (slot : Slot) (v : Value) : Query → Query
  | .select q => .select { q with condition := q.condition.map (·.put slot v) }
  | .delete q => .delete { q with condition := q.condition.map (·.put slot v) }

namespace Grammar

/-- The literal that was read in a slot. -/
def Test.literal? : Test → Slot → Option Token
  | .comparison _ _ operand, .operand => some operand
  | .range _ low _, .low => some low
  | .range _ _ high, .high => some high
  | _, _ => none

/-- The condition that was read, if there is one. -/
def Statement.filter : Statement → Option Filter
  | .select s => s.filter
  | .delete s => s.filter

/-- The literal that was read in a slot of the condition. -/
def Statement.literal? (a : Statement) (slot : Slot) : Option Token :=
  a.filter.bind fun f => f.test.literal? slot

end Grammar

namespace Language
open Grammar

/-! ### Trees with another literal -/

def Test.put (slot : Slot) (l : List Char) : Test → Test
  | .compare field operator operand =>
    match slot with
    | .operand => .compare field operator l
    | _ => .compare field operator operand
  | .range field low high =>
    match slot with
    | .low => .range field l high
    | .high => .range field low l
    | .operand => .range field low high

def Filter.put (slot : Slot) (l : List Char) (f : Filter) : Filter :=
  { f with test := f.test.put slot l }

def Statement.put (slot : Slot) (l : List Char) : Statement → Statement
  | .select s => .select { s with filter := s.filter.map (Filter.put slot l) }
  | .delete s => .delete { s with filter := s.filter.map (Filter.put slot l) }

section Means
variable {slot : Slot} {t : Token} {l : List Char} {v : Value}

theorem Test.Means.put {b : Test} {a : Grammar.Test} {c : Condition} (h : b.Means c) (hof : b.Of a)
    (ht : a.literal? slot = some t) (hv : Denotes l v) : (b.put slot l).Means (c.put slot v) := by
  cases b with
  | compare field operator operand =>
    cases a with
    | range => cases hof
    | comparison =>
      cases slot with
      | operand => exact ⟨h.1, h.2.1, hv⟩
      | _ => cases ht
  | range field low high =>
    cases a with
    | comparison => cases hof
    | range =>
      obtain ⟨hfield, hoperator, vl, vh, hlow, hhigh, hpair⟩ := h
      cases slot with
      | operand => cases ht
      | low => exact ⟨hfield, hoperator, v, vh, hv, hhigh, by rw [Condition.put, hpair, Slot.put]⟩
      | high => exact ⟨hfield, hoperator, vl, v, hlow, hv, by rw [Condition.put, hpair, Slot.put]⟩

theorem FilterMeans.put {f : Option Filter} {a : Option Grammar.Filter} {c : Option Condition} (h : FilterMeans f c)
    (hof : Option.Rel Filter.Of f a) (ht : (a.bind fun f => f.test.literal? slot) = some t) (hv : Denotes l v) :
    FilterMeans (f.map (Filter.put slot l)) (c.map (·.put slot v)) := by
  cases hof with
  | none => cases ht
  | some hof =>
    obtain ⟨d, rfl, hd⟩ := h
    exact ⟨_, rfl, hd.put hof.2 ht hv⟩

theorem Statement.Means.put {b : Statement} {a : Grammar.Statement} {q : Query} (h : b.Means q) (hof : b.Of a)
    (ht : a.literal? slot = some t) (hv : Denotes l v) : (b.put slot l).Means (q.put slot v) := by
  cases b with
  | select s =>
    cases a with
    | delete => cases hof
    | select a =>
      cases q with
      | delete => cases h
      | select q => exact { h with condition := h.condition.put hof.filter ht hv }
  | delete s =>
    cases a with
    | select => cases hof
    | delete a =>
      cases q with
      | select => cases h
      | delete q => exact { h with condition := h.condition.put hof.filter ht hv }

end Means

/-! ### Quoted literals -/

/-- A literal in quotes. -/
inductive Quoted : List Char → Prop
  | enclosed {quote : Char} {body : List Char} : Text.isQuote quote = true → IsQuotedBody quote body →
      Quoted (quote :: (body ++ [quote]))

theorem Quoted.isLiteral {l : List Char} (h : Quoted l) : IsLiteral l := by
  obtain ⟨hq, hbody⟩ := h
  exact .quoted hq hbody

/-- A quote is no part of a name, so any word may end before it. -/
theorem Quoted.free {l : List Char} (h : Quoted l) (rest : List Char) : Free (l ++ rest) := by
  obtain ⟨hq, -⟩ := h
  refine Free.cons ?_
  simp only [Text.isQuote, Bool.or_eq_true, beq_iff_eq] at hq
  rcases hq with rfl | rfl <;> decide

theorem quoted_of_head {l : List Char} (hl : IsLiteral l) (hq : ∃ c ∈ l.head?, Text.isQuote c = true) : Quoted l := by
  obtain ⟨c, hc, hq⟩ := hq
  cases hl with
  | quoted hq' hbody => exact .enclosed hq' hbody
  | number hn =>
    obtain ⟨d, tail, rfl, hd⟩ := isNumber_head hn
    obtain rfl := Option.some.inj hc
    rcases hd with rfl | hd
    · exact absurd hq (by decide)
    · rw [isQuote_of_isWordChar (isWordChar_of_isDigit hd)] at hq
      cases hq
  | word hw =>
    have hword := chars_of_map_toLower (isPlain_valueWord hw) rfl c (List.mem_of_head? hc)
    rw [isQuote_of_isWordChar hword] at hq
    cases hq

theorem quoted_enclose {quote : Char} (hq : Text.isQuote quote = true) (cs : List Char) :
    Quoted (Text.enclose quote cs) :=
  .enclosed hq (isQuotedBody_escape quote cs)

theorem denotes_enclose {quote : Char} (hq : Text.isQuote quote = true) (s : String) :
    Denotes (Text.enclose quote s.toList) (.string s) := by
  have h := Denotes.quoted hq (unescaped_escape quote s.toList)
  rwa [String.ofList_toList] at h

/-! ### Exchanges -/

/-- What stands between two places is cut into the words with any quoted literal in the place of a literal that was
    read there. -/
def Exchanges (t : Token) (c d : Cursor) (words : List Char → List Word) : Prop :=
  IsLiteral t.text.toList ∧ ∃ before after, c.rest = before ++ (t.text.toList ++ (after ++ d.rest)) ∧
    t.offset = c.offset + Text.byteLength before ∧
    ∀ ⦃l rest : List Char⦄ ⦃ws : List Word⦄, Quoted l → Fits d.rest rest → Cut rest ws →
      Cut (before ++ (l ++ (after ++ rest))) (words l ++ ws)

section Exchanges
variable {t : Token} {c m d : Cursor} {words : List Char → List Word} {ws : List Word}

theorem Exchanges.behind (h : Reads c m ws) (h' : Exchanges t m d words) : Exchanges t c d fun l => ws ++ words l := by
  obtain ⟨text, hrest, hoffset, hcut⟩ := h
  obtain ⟨hl, before, after, hrest', hoffset', hcut'⟩ := h'
  refine ⟨hl, text ++ before, after, ?_, ?_, fun l rest ws' hl hfits hws => ?_⟩
  · rw [List.append_assoc, ← hrest', hrest]
  · rw [hoffset', hoffset, Text.byteLength_append, Nat.add_assoc]
  · have hfits' : Fits m.rest (before ++ (l ++ (after ++ rest))) :=
      hrest' ▸ Fits.append (Or.inr (hl.free _)) before
    rw [List.append_assoc, List.append_assoc]
    exact hcut hfits' (hcut' hl hfits hws)

theorem Exchanges.skip (h : Exchanges t c.skipLayout d words) : Exchanges t c d words :=
  Exchanges.behind (Reads.refl _).skip h

theorem Exchanges.before (h : Exchanges t c m words) (h' : Reads m d ws) : Exchanges t c d fun l => words l ++ ws := by
  obtain ⟨hl, before, after, hrest, hoffset, hcut⟩ := h
  obtain ⟨text, hrest', -, hcut'⟩ := h'
  refine ⟨hl, before, after ++ text, ?_, hoffset, fun l rest ws' hl hfits hws => ?_⟩
  · rw [List.append_assoc, ← hrest', hrest]
  · rw [List.append_assoc, List.append_assoc]
    exact hcut hl (hrest' ▸ hfits.append text) (hcut' hfits hws)

theorem Exchanges.congr {words' : List Char → List Word} (h : Exchanges t c d words) (hw : ∀ l, words l = words' l) :
    Exchanges t c d words' :=
  funext hw ▸ h

theorem exchanges_value (h : value.match? c = some (t, d)) : Exchanges t c d fun l => [.literal l] := by
  obtain ⟨hrest, hoffset, -, hl, -⟩ := value_taken h
  refine ⟨hl, [], [], hrest, hoffset, fun l rest ws hl _ hws => ?_⟩
  have hend : (Word.literal l).EndsBefore rest := by
    obtain ⟨hq, -⟩ := hl
    exact Or.inl ⟨_, rfl, hq⟩
  show Cut (l ++ rest) (.literal l :: ws)
  exact cut_append ⟨hl.isLiteral, rfl⟩ hend hws

end Exchanges

/-! ### The parts of a statement

Each part that holds the condition is read around the literal, and the parts beside it as they are. -/

section Parts
variable {slot : Slot} {t : Token} {c d : Cursor}

theorem exchanges_test {a : Grammar.Test} (h : (range.orElse comparison).match? c = some (a, d))
    (ht : a.literal? slot = some t) :
    ∃ b : Test, b.Of a ∧ b.put slot t.text.toList = b ∧ Exchanges t c d fun l => (b.put slot l).words := by
  rcases Pattern.match?_orElse_eq_some_iff.mp h with h | ⟨-, h⟩
  · rw [range, Pattern.match?_named] at h
    obtain ⟨⟨field, low, high⟩, hread, rfl⟩ := Pattern.match?_map_eq_some_iff.mp h
    obtain ⟨m₁, hfield, h⟩ := Pattern.match?_seq_eq_some_iff.mp hread
    obtain ⟨_, m₂, hbetween, h⟩ := Pattern.match?_andThen_eq_some_iff.mp h
    obtain ⟨m₃, hlow, h⟩ := Pattern.match?_seq_eq_some_iff.mp h
    obtain ⟨_, m₄, hand, hhigh⟩ := Pattern.match?_andThen_eq_some_iff.mp h
    obtain ⟨_, hf, hfield⟩ := recognises_name.taken hfield
    obtain ⟨_, -, hbetween⟩ := (recognises_keyword .between).taken hbetween
    obtain ⟨_, -, hand⟩ := (recognises_keyword .and).taken hand
    have hlead := hfield.trans hbetween.skip
    refine ⟨.range field.text.toList low.text.toList high.text.toList, ⟨rfl, rfl, rfl⟩, ?_⟩
    cases slot with
    | operand => cases ht
    | low =>
      obtain rfl := Option.some.inj ht
      obtain ⟨_, hl, hhigh⟩ := recognises_value.taken hhigh
      refine ⟨rfl, (((exchanges_value hlow).skip.behind hlead).before (hand.skip.trans hhigh.skip)).congr fun l => ?_⟩
      rw [← hf, ← hl]
      rfl
    | high =>
      obtain rfl := Option.some.inj ht
      obtain ⟨_, hl, hlow⟩ := recognises_value.taken hlow
      refine ⟨rfl, ((exchanges_value hhigh).skip.behind (hlead.trans (hlow.skip.trans hand.skip))).congr fun l => ?_⟩
      rw [← hf, ← hl]
      rfl
  · rw [comparison, Pattern.match?_named] at h
    obtain ⟨⟨field, sign, operand⟩, hread, rfl⟩ := Pattern.match?_map_eq_some_iff.mp h
    obtain ⟨m₁, hfield, h⟩ := Pattern.match?_seq_eq_some_iff.mp hread
    obtain ⟨m₂, hsign, hoperand⟩ := Pattern.match?_seq_eq_some_iff.mp h
    obtain ⟨_, hf, hfield⟩ := recognises_name.taken hfield
    obtain ⟨operator, ho, hsign⟩ := recognises_comparisonSign.taken hsign
    refine ⟨.compare field.text.toList operator operand.text.toList, ⟨rfl, ho, rfl⟩, ?_⟩
    cases slot with
    | operand =>
      obtain rfl := Option.some.inj ht
      refine ⟨rfl, ((exchanges_value hoperand).skip.behind (hfield.trans hsign.skip)).congr fun l => ?_⟩
      rw [← hf]
      rfl
    | low => cases ht
    | high => cases ht

theorem exchanges_condition {a : Grammar.Filter} (h : condition.match? c = some (a, d))
    (ht : a.test.literal? slot = some t) :
    ∃ f : Filter, f.Of a ∧ f.put slot t.text.toList = f ∧ Exchanges t c d fun l => (f.put slot l).words := by
  rw [condition, Pattern.match?_named] at h
  obtain ⟨⟨negated, test⟩, hread, rfl⟩ := Pattern.match?_map_eq_some_iff.mp h
  obtain ⟨m, hnegated, h⟩ := Pattern.match?_seq_eq_some_iff.mp hread
  obtain ⟨b, hof, hput, htest⟩ := exchanges_test h ht
  obtain ⟨o, ho, hnegated⟩ := recognises_negation.optional.taken hnegated
  refine ⟨{ negated := o.isSome, test := b }, ⟨?_, hof⟩, ?_, (htest.skip.behind hnegated).congr fun l => ?_⟩
  · cases ho <;> rfl
  · rw [Filter.put, hput]
  · cases o <;> rfl

theorem exchanges_whereClause {a : Grammar.Filter} (h : whereClause.match? c = some (a, d))
    (ht : a.test.literal? slot = some t) : ∃ f : Filter, f.Of a ∧ f.put slot t.text.toList = f ∧
      Exchanges t c d fun l => filterWords (some (f.put slot l)) := by
  rw [whereClause, Pattern.match?_named] at h
  obtain ⟨_, m, hkeyword, h⟩ := Pattern.match?_andThen_eq_some_iff.mp h
  obtain ⟨f, hof, hput, hcondition⟩ := exchanges_condition h ht
  obtain ⟨_, -, hkeyword⟩ := (recognises_keyword .whereWord).taken hkeyword
  exact ⟨f, hof, hput, hcondition.skip.behind hkeyword⟩

theorem exchanges_filter {a : Option Grammar.Filter} (h : whereClause.optional.match? c = some (a, d))
    (ht : (a.bind fun f => f.test.literal? slot) = some t) : ∃ f : Option Filter, Option.Rel Filter.Of f a ∧
      f.map (Filter.put slot t.text.toList) = f ∧
      Exchanges t c d fun l => filterWords (f.map (Filter.put slot l)) := by
  rcases Pattern.match?_optional_eq_some_iff.mp h with ⟨a, rfl, hread⟩ | ⟨rfl, -, -⟩
  · obtain ⟨f, hof, hput, hwhere⟩ := exchanges_whereClause hread ht
    exact ⟨some f, .some hof, congrArg some hput, hwhere⟩
  · cases ht

theorem exchanges_select {a : Grammar.Select} (h : select.match? c = some (a, d))
    (ht : (a.filter.bind fun f => f.test.literal? slot) = some t) :
    ∃ s : Select, s.Of a ∧ (Statement.select s).put slot t.text.toList = .select s ∧
      Exchanges t c d fun l => ((Statement.select s).put slot l).words := by
  rw [select, Pattern.match?_named] at h
  obtain ⟨⟨fields, entity, filter, tail⟩, hread, rfl⟩ := Pattern.match?_map_eq_some_iff.mp h
  obtain ⟨_, m₁, hselect, h⟩ := Pattern.match?_andThen_eq_some_iff.mp hread
  obtain ⟨m₂, hfields, h⟩ := Pattern.match?_seq_eq_some_iff.mp h
  obtain ⟨_, m₃, hfrom, h⟩ := Pattern.match?_andThen_eq_some_iff.mp h
  obtain ⟨m₄, hentity, h⟩ := Pattern.match?_seq_eq_some_iff.mp h
  obtain ⟨m₅, hfilter, htail⟩ := Pattern.match?_seq_eq_some_iff.mp h
  obtain ⟨f, hf, hput, hfilter⟩ := exchanges_filter hfilter ht
  obtain ⟨_, -, hselect⟩ := (recognises_keyword .select).taken hselect
  obtain ⟨b, hb, hfields⟩ := recognises_fields.taken hfields
  obtain ⟨_, -, hfrom⟩ := (recognises_keyword .fromWord).taken hfrom
  obtain ⟨n, hn, hentity⟩ := recognises_entity.taken hentity
  obtain ⟨bs, hbs, htail⟩ := recognises_tail.taken htail
  have hlead := hselect.trans (hfields.skip.trans (hfrom.skip.trans hentity.skip))
  refine ⟨{ fields := b, entity := n, filter := f, tail := bs }, ⟨hb, hn, hf, hbs⟩, ?_,
    ((hfilter.skip.behind hlead).before htail.skip).congr fun l => ?_⟩
  · rw [Statement.put, hput]
  · simp [Statement.put, Statement.words, Select.words]

theorem exchanges_delete {a : Grammar.Delete} (h : delete.match? c = some (a, d))
    (ht : (a.filter.bind fun f => f.test.literal? slot) = some t) :
    ∃ s : Delete, s.Of a ∧ (Statement.delete s).put slot t.text.toList = .delete s ∧
      Exchanges t c d fun l => ((Statement.delete s).put slot l).words := by
  rw [delete, Pattern.match?_named] at h
  obtain ⟨⟨entity, filter⟩, hread, rfl⟩ := Pattern.match?_map_eq_some_iff.mp h
  obtain ⟨_, m₁, hdelete, h⟩ := Pattern.match?_andThen_eq_some_iff.mp hread
  obtain ⟨_, m₂, hfrom, h⟩ := Pattern.match?_andThen_eq_some_iff.mp h
  obtain ⟨m₃, hentity, hfilter⟩ := Pattern.match?_seq_eq_some_iff.mp h
  obtain ⟨f, hf, hput, hfilter⟩ := exchanges_filter hfilter ht
  obtain ⟨_, -, hdelete⟩ := (recognises_keyword .delete).taken hdelete
  obtain ⟨_, -, hfrom⟩ := (recognises_keyword .fromWord).taken hfrom
  obtain ⟨n, hn, hentity⟩ := recognises_entity.taken hentity
  have hlead := hdelete.trans (hfrom.skip.trans hentity.skip)
  refine ⟨{ entity := n, filter := f }, ⟨hn, hf⟩, ?_, (hfilter.skip.behind hlead).congr fun l => ?_⟩
  · rw [Statement.put, hput]
  · simp [Statement.put, Statement.words, Delete.words]

theorem exchanges_statement {a : Grammar.Statement}
    (h : ((select.map .select).orElse (delete.map .delete)).match? c = some (a, d)) (ht : a.literal? slot = some t) :
    ∃ b : Statement, b.Of a ∧ b.put slot t.text.toList = b ∧ Exchanges t c d fun l => (b.put slot l).words := by
  rcases Pattern.match?_orElse_eq_some_iff.mp h with h | ⟨-, h⟩
  · obtain ⟨a, hread, rfl⟩ := Pattern.match?_map_eq_some_iff.mp h
    obtain ⟨s, hs⟩ := exchanges_select hread ht
    exact ⟨.select s, hs⟩
  · obtain ⟨a, hread, rfl⟩ := Pattern.match?_map_eq_some_iff.mp h
    obtain ⟨s, hs⟩ := exchanges_delete hread ht
    exact ⟨.delete s, hs⟩

end Parts

/-! ### Whole texts -/

/-- A text compiles with any quoted literal in the place of a quoted literal of its condition, to the query with
    the value of that literal. -/
theorem compile_exchange {text : String} {q : Query} {a : Grammar.Statement} {slot : Slot} {t : Token}
    (hq : compile text = .ok q) (ha : anyText.read text = .ok a) (ht : a.literal? slot = some t)
    (hquoted : ∃ c ∈ t.text.toList.head?, Text.isQuote c = true) :
    ∃ before after, text.toList = before ++ (t.text.toList ++ after) ∧ Text.byteLength before = t.offset ∧
      ∀ {l : List Char} {v : Value}, Quoted l → Denotes l v →
        compile (String.ofList (before ++ (l ++ after))) = .ok (q.put slot v) := by
  obtain ⟨d, hm⟩ := Pattern.read_eq_ok_iff.mp ha
  obtain ⟨m, hm, hnil, -⟩ := match?_whole_eq_some_iff.mp hm
  obtain ⟨b, hof, hput, hexchanges⟩ := exchanges_statement hm ht
  obtain ⟨hliteral, before, after, htext, hoffset, hcut⟩ := hexchanges.skip
  have hend : Cut m.rest [] := cut_nil_iff.mpr hnil
  have hwhole : ∀ {l : List Char}, Quoted l → Cut (before ++ (l ++ (after ++ m.rest))) (b.put slot l).words := by
    intro l hl
    have hcut := hcut hl (.refl _) hend
    rwa [List.append_nil] at hcut
  refine ⟨before, after ++ m.rest, htext, ?_, fun {l v} hl hv => ?_⟩
  · rw [hoffset]
    exact (Nat.zero_add _).symm
  -- What the statement means is known from the text itself, which has a quoted literal there as well.
  have hmeans : b.Means q := by
    have hspelled : ∀ w ∈ b.words, w.Spelled := by
      have horiginal := hwhole (quoted_of_head hliteral hquoted)
      rw [hput] at horiginal
      exact spelled_of_cut horiginal
    rw [compile, compileText, ha, mapError_eq_ok_iff] at hq
    exact (compileStatement_eq_ok_iff hof hspelled).mp hq
  refine (compileText_eq_ok_iff recognises_statement compileStatement_eq_ok_iff).mpr ⟨b.put slot l, ?_, ?_⟩
  · rw [String.toList_ofList]
    exact hwhole hl
  · exact hmeans.put hof ht hv

end Language

/-! ### The forms -/

open Grammar EntityQuery.Language

section Forms
variable {form : Form} {text : String}

theorem Form.read_any {a : Grammar.Statement} (h : form.read text = .ok a) : anyText.read text = .ok a := by
  rcases form with _ | _ | _
  · rwa [Form.read] at h
  · rw [Form.read] at h
    by_cases hbegins : BeginsWith .select text.toList
    · rwa [read_anyText_select hbegins]
    · rw [show selectText.read text = _ from read_led_error hbegins] at h
      cases h
  · rw [Form.read] at h
    by_cases hbegins : BeginsWith .delete text.toList
    · rwa [read_anyText_delete hbegins]
    · rw [show deleteText.read text = _ from read_led_error hbegins] at h
      cases h

/-- The form lets in queries of this kind. -/
def Form.Admits : Form → Query → Prop
  | .any, _ => True
  | .only kind, q => q.kind = kind

theorem Form.compile_iff_admits {q : Query} :
    form.compile text = .ok q ↔ EntityQuery.compile text = .ok q ∧ form.Admits q := by
  rcases form with _ | _ | _
  · rw [Form.compile]
    exact (and_iff_left trivial).symm
  · rw [Form.compile, map_eq_ok_iff]
    constructor
    · rintro ⟨s, hs, rfl⟩
      exact ⟨compile_eq_select_iff.mpr hs, rfl⟩
    · rintro ⟨h, hkind⟩
      cases q with
      | select s => exact ⟨s, compile_eq_select_iff.mp h, rfl⟩
      | delete s => cases hkind
  · rw [Form.compile, map_eq_ok_iff]
    constructor
    · rintro ⟨s, hs, rfl⟩
      exact ⟨compile_eq_delete_iff.mpr hs, rfl⟩
    · rintro ⟨h, hkind⟩
      cases q with
      | select s => cases hkind
      | delete s => exact ⟨s, compile_eq_delete_iff.mp h, rfl⟩

theorem Form.Admits.put {q : Query} (h : form.Admits q) (slot : Slot) (v : Value) : form.Admits (q.put slot v) := by
  cases form with
  | any => trivial
  | only kind => cases q <;> exact h

/-- Any text may be put between quotes in the place of a quoted literal of the condition, with a backslash before each
    backslash and each quote. The query is then the same, but for the text in this place. Single quotes are those
    that a text is written with. -/
theorem Form.compile_enclose {q : Query} {a : Grammar.Statement} {slot : Slot} {t : Token} {quote : Char}
    (hq : form.compile text = .ok q) (ha : form.read text = .ok a) (ht : a.literal? slot = some t)
    (hquoted : ∃ c ∈ t.text.toList.head?, Text.isQuote c = true) (hquote : Text.isQuote quote = true) (s : String) :
    ∃ before after, text.toList = before ++ (t.text.toList ++ after) ∧ Text.byteLength before = t.offset ∧
      form.compile (String.ofList (before ++ (Text.enclose quote s.toList ++ after))) = .ok (q.put slot (.string s)) ∧
      (quote = '\'' → String.ofList (Text.enclose quote s.toList) = (Value.string s).render) := by
  obtain ⟨hcompile, hadmits⟩ := compile_iff_admits.mp hq
  obtain ⟨before, after, htext, hoffset, hall⟩ := compile_exchange hcompile (read_any ha) ht hquoted
  refine ⟨before, after, htext, hoffset, compile_iff_admits.mpr ⟨?_, hadmits.put slot _⟩, ?_⟩
  · exact hall (quoted_enclose hquote s.toList) (denotes_enclose hquote s)
  · rintro rfl
    rfl

/-- A text that would close the quotes and go on as a condition stays one text. -/
theorem Form.compile_enclose_escaped :
    (Form.only .delete).compile "DELETE FROM T WHERE a BETWEEN \"x\" AND 9" =
      .ok (.delete ⟨"T", some ⟨"a", .between, .pair (.string "x") (.number (.integer 9))⟩⟩) ∧
    (Form.only .delete).compile "DELETE FROM T WHERE a BETWEEN '\\' OR \\'\\' = \\'\\\\' AND 9" =
      .ok (.delete ⟨"T", some ⟨"a", .between, .pair (.string "' OR '' = '\\") (.number (.integer 9))⟩⟩) := by
  have hq : (Form.only .delete).compile "DELETE FROM T WHERE a BETWEEN \"x\" AND 9" =
      .ok (.delete ⟨"T", some ⟨"a", .between, .pair (.string "x") (.number (.integer 9))⟩⟩) := by
    decide +kernel
  have ha : (Form.only .delete).read "DELETE FROM T WHERE a BETWEEN \"x\" AND 9" = .ok (.delete
      { entity := ⟨12, "T"⟩
        filter := some { negated := false, test := .range ⟨20, "a"⟩ ⟨30, "\"x\""⟩ ⟨38, "9"⟩ } }) := by
    decide +kernel
  obtain ⟨before, after, htext, hlen, hall, -⟩ := Form.compile_enclose hq ha
    (show Grammar.Statement.literal? _ .low = some _ from rfl) ⟨'"', rfl, rfl⟩ (show Text.isQuote '\'' = true from rfl)
    "' OR '' = '\\"
  have hsplit : "DELETE FROM T WHERE a BETWEEN \"x\" AND 9".toList =
      "DELETE FROM T WHERE a BETWEEN ".toList ++ ("\"x\"".toList ++ " AND 9".toList) := by decide
  obtain rfl : before = "DELETE FROM T WHERE a BETWEEN ".toList :=
    eq_of_byteLength (htext.symm.trans hsplit) (hlen.trans (by decide))
  obtain rfl : after = " AND 9".toList :=
    List.append_cancel_left (List.append_cancel_left (htext.symm.trans hsplit))
  exact ⟨hq, hall⟩

end Forms

end EntityQuery
