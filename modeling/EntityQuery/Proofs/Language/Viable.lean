import EntityQuery.Proofs.Language.Meaning

/-! # Refused texts can be mended

What stands before the place of an error is the beginning of an accepted text, and every part that the report
names is found next in such a text (`read_error_viable`). For each part that was tried at the place, what was
read up to there goes on to a whole statement with this part in it. -/

namespace EntityQuery.Grammar
open EntityQuery.Language

/-! ### Names of a pattern -/

namespace Pattern

/-- The names that occur in a pattern. -/
def names {α : Type} : Pattern α → List Rule
  | .nothing => []
  | .finish => []
  | .symbol _ => []
  | .word l => [.word l]
  | .seq first second => first.names ++ second.names
  | .orElse first second => first.names ++ second.names
  | .optional p => p.names
  | .many p => p.names
  | .map _ p => p.names
  | .named r p => r :: p.names

theorem Tries.mem_names {α : Type} {p : Pattern α} {rule : Rule} {c d : Cursor} (h : p.Tries rule d c) :
    rule ∈ p.names := by
  induction p generalizing c with
  | nothing => exact h.elim
  | finish => exact h.elim
  | symbol s => exact h.elim
  | word l =>
    rw [h.1]
    exact List.mem_singleton_self _
  | seq first second ih₁ ih₂ =>
    rcases h with h | ⟨a, m, -, h⟩
    · exact List.mem_append_left _ (ih₁ h)
    · exact List.mem_append_right _ (ih₂ h)
  | orElse first second ih₁ ih₂ =>
    rcases h with h | ⟨-, h⟩
    · exact List.mem_append_left _ (ih₁ h)
    · exact List.mem_append_right _ (ih₂ h)
  | optional p ih => exact ih h
  | many p ih =>
    obtain ⟨m, -, h⟩ := h
    exact ih h
  | map f p ih => exact ih h
  | named r p ih =>
    rcases h with ⟨rfl, -⟩ | h
    · exact List.mem_cons_self
    · exact List.mem_cons_of_mem _ (ih h)

/-! ### Accepted texts -/

/-- The pattern reads the text. -/
def Accepts {α : Type} (p : Pattern α) (cs : List Char) : Prop :=
  ∃ a, p.read (String.ofList cs) = .ok a

/-- The rule can come next behind the beginning of a text: some accepted text begins so and has the rule behind
    it, with layout between them. The end of the text comes next when the beginning itself is accepted. -/
def Continues {α : Type} (p : Pattern α) (before : List Char) (rule : Rule) : Prop :=
  if rule = .endOfInput then p.Accepts before
  else ∃ gap more, Layout gap ∧ p.Accepts (before ++ gap ++ more) ∧
    p.Finds rule { offset := Text.byteLength (before ++ gap), rest := more }
      (Cursor.start (String.ofList (before ++ gap ++ more)))

theorem Continues.accepts {α : Type} {p : Pattern α} {before : List Char} {rule : Rule}
    (h : p.Continues before rule) : ∃ more, p.Accepts (before ++ more) := by
  rw [Continues] at h
  split at h
  · exact ⟨[], by rwa [List.append_nil]⟩
  · obtain ⟨gap, more, -, h, -⟩ := h
    exact ⟨gap ++ more, by rwa [← List.append_assoc]⟩

theorem read_map {α β : Type} (f : α → β) (p : Pattern α) (text : String) :
    (p.map f).read text = (p.read text).map f := by
  rw [read_eq, read_eq, match?_map, account_map]
  cases p.match? (Cursor.start text) <;> rfl

theorem Accepts.map {α β : Type} {f : α → β} {p : Pattern α} {cs : List Char} (h : p.Accepts cs) :
    (p.map f).Accepts cs := by
  obtain ⟨a, ha⟩ := h
  exact ⟨f a, by rw [read_map, ha]; rfl⟩

theorem Continues.map {α β : Type} {f : α → β} {p : Pattern α} {before : List Char} {rule : Rule}
    (h : p.Continues before rule) : (p.map f).Continues before rule := by
  rw [Continues] at h ⊢
  split at h <;> rename_i hrule
  · rw [if_pos hrule]
    exact h.map
  · obtain ⟨gap, more, hgap, haccepts, hfinds⟩ := h
    rw [if_neg hrule]
    exact ⟨gap, more, hgap, haccepts.map, hfinds⟩

end Pattern

/-! ### Whole texts -/

section Whole
variable {α β : Type} {rule r : Rule} {p : Pattern α} {c d : Cursor}

theorem tries_whole (h : (whole rule p).Tries r d c) : (r = rule ∧ d = c) ∨ p.Tries r d c.skipLayout ∨
    ∃ a m, p.match? c.skipLayout = some (a, m) ∧ r = .endOfInput ∧ d = m.skipLayout := by
  rcases h with h | h | ⟨u, n, hn, h⟩
  · exact Or.inl h
  · exact h.elim
  · obtain ⟨-, rfl⟩ := Prod.mk.inj (Option.some.inj hn)
    rcases h with h | ⟨a, m, hm, h | h⟩
    · exact Or.inr (Or.inl h)
    · exact Or.inr (Or.inr ⟨a, m, hm, h⟩)
    · exact h.elim

theorem finds_whole {a : α} (hm : (whole rule p).match? c = some (a, d)) {e : Cursor}
    (h : p.Finds r e c.skipLayout) : (whole rule p).Finds r e c := by
  have hsome : (Pattern.nothing.seq (p.followedBy (.named .endOfInput .finish))).match? c ≠ none := by
    intro hnone
    have hwhole : (whole rule p).match? c = none := Pattern.match?_map_eq_none_iff.mpr hnone
    rw [hm] at hwhole
    cases hwhole
  obtain ⟨m, hp, hnil, -⟩ := match?_whole_eq_some_iff.mp hm
  have hend : (Pattern.named .endOfInput .finish).match? m.skipLayout = some ((), m.skipLayout) :=
    if_pos (List.isEmpty_iff.mpr hnil)
  have hclosed : ((p.seq (.named .endOfInput .finish)).match? c.skipLayout).isSome = true :=
    Option.isSome_of_eq_some (Pattern.match?_seq_eq_some_iff.mpr ⟨m, hp, hend⟩)
  exact Or.inr ⟨Option.isSome_iff_ne_none.mpr hsome, Or.inr ⟨(), c, rfl, hclosed, Or.inl h⟩⟩

end Whole

end EntityQuery.Grammar

namespace EntityQuery.Language
open Grammar

/-! ### What was tried may come next -/

section Whole
variable {α β : Type} {p : Pattern α} {of : β → α → Prop} {words : β → List Word} {rule : Rule}

theorem Recognises.accepts (hp : Recognises p of words (fun ws => ws = [])) {cs : List Char} {b : β}
    (h : Cut cs (words b ++ [])) : (whole rule p).Accepts cs := by
  have hcut : Cut (String.ofList cs).toList (words b) := by
    rwa [String.toList_ofList, ← List.append_nil (words b)]
  obtain ⟨a, ha, -⟩ := hp.whole_read hcut
  exact ⟨a, ha⟩

theorem Recognises.continues (hp : Recognises p of words (fun ws => ws = [])) (hrule : rule ≠ .endOfInput)
    (hnames : Rule.endOfInput ∉ p.names) {text : String} {r : Rule} {d : Cursor}
    (h : (whole rule p).Tries r d (Cursor.start text)) : ∃ before after, text.toList = before ++ after ∧
      Text.byteLength before = d.offset ∧ (whole rule p).Continues before r := by
  have hdone : Cut [] [] := .done fun _ hc => absurd hc List.not_mem_nil
  rcases tries_whole h with ⟨rfl, rfl⟩ | htries | ⟨a, m, hm, rfl, rfl⟩
  · -- The whole text has its name at the front, so any accepted text will do.
    refine ⟨[], text.toList, rfl, rfl, ?_⟩
    obtain ⟨b, more, hprints⟩ := hp.sample
    have haccepts : (whole r p).Accepts (more ++ []) := hp.accepts (hprints Free.nil hdone)
    rw [List.append_nil] at haccepts
    rw [Pattern.Continues, if_neg hrule]
    refine ⟨[], more, fun _ hc => absurd hc List.not_mem_nil, haccepts, Or.inl ⟨⟨rfl, ?_⟩, ?_⟩⟩
    · rw [Cursor.start, String.toList_ofList]
      rfl
    · obtain ⟨a, ha⟩ := haccepts
      obtain ⟨e, he⟩ := Pattern.read_eq_ok_iff.mp ha
      exact Option.isSome_of_eq_some he
  · obtain ⟨b, before, more, hrest, hoffset, hall⟩ := hp.resume htries
    obtain ⟨hcut, hfinds⟩ := hall Free.nil hdone rfl
    rw [List.append_nil] at hcut hfinds
    have hbefore : d.offset = Text.byteLength before := hoffset.trans (Nat.zero_add _)
    have hsplit : before ++ (' ' :: more).takeWhile isLayout ++ (' ' :: more).dropWhile isLayout =
        before ++ ' ' :: more := by
      rw [List.append_assoc, List.takeWhile_append_dropWhile]
    refine ⟨before, d.rest, hrest, hbefore.symm, ?_⟩
    have hmem := htries.mem_names
    rw [Pattern.Continues, if_neg (ne_of_mem_of_not_mem hmem hnames)]
    refine ⟨(' ' :: more).takeWhile isLayout, (' ' :: more).dropWhile isLayout, layout_takeWhile _, ?_⟩
    rw [hsplit]
    obtain ⟨a, ha⟩ : (whole rule p).Accepts (before ++ ' ' :: more) := hp.accepts hcut
    obtain ⟨e, he⟩ := Pattern.read_eq_ok_iff.mp ha
    refine ⟨⟨a, ha⟩, finds_whole he ?_⟩
    rw [Cursor.start, String.toList_ofList, Text.byteLength_append, ← hbefore]
    exact hfinds
  · obtain ⟨b, before, hrest, hoffset, hall⟩ := hp.replace hm
    refine ⟨before ++ m.rest.takeWhile isLayout, m.skipLayout.rest, ?_, ?_, ?_⟩
    · have hskip : m.rest.takeWhile isLayout ++ m.skipLayout.rest = m.rest := List.takeWhile_append_dropWhile
      rw [List.append_assoc, hskip]
      exact hrest
    · rw [Text.byteLength_append]
      show _ = m.offset + _
      rw [hoffset]
      exact congrArg (· + _) (Nat.zero_add _).symm
    · have hgap := layout_takeWhile m.rest
      rw [Pattern.Continues, if_pos rfl]
      exact hp.accepts (hall (Or.inr (.layout hgap)) (.done hgap) rfl).1

end Whole

/-- A refused text is reported at a place behind which every part named may come next. -/
theorem Recognises.read_error {α β : Type} {p : Pattern α} {of : β → α → Prop} {words : β → List Word} {rule : Rule}
    (hp : Recognises p of words (fun ws => ws = [])) (hrule : rule ≠ .endOfInput)
    (hnames : Rule.endOfInput ∉ p.names) {text : String} {f : Fault} (h : (whole rule p).read text = .error f) :
    ∃ rules before after, f.cause = .expected rules ∧ rules ≠ [] ∧ text.toList = before ++ after ∧
      Text.byteLength before = f.offset ∧ ∀ r ∈ rules, (whole rule p).Continues before r := by
  obtain ⟨rules, hcause, hne, hall⟩ := Pattern.read_named_error h
  have hcontinues : ∀ r ∈ rules, ∃ before after, text.toList = before ++ after ∧
      Text.byteLength before = f.offset ∧ (whole rule p).Continues before r := by
    intro r hr
    obtain ⟨d, htries, hd⟩ := hall r hr
    rw [← hd]
    exact hp.continues hrule hnames htries
  obtain ⟨r₀, hr₀⟩ := List.exists_mem_of_ne_nil rules hne
  obtain ⟨before, after, htext, hlen, -⟩ := hcontinues r₀ hr₀
  refine ⟨rules, before, after, hcause, hne, htext, hlen, fun r hr => ?_⟩
  obtain ⟨before', after', htext', hlen', hr'⟩ := hcontinues r hr
  rwa [eq_of_byteLength (htext.symm.trans htext') (hlen.trans hlen'.symm)]

end EntityQuery.Language

namespace EntityQuery
open Grammar EntityQuery.Language

/-! ### The forms -/

/-- The pattern of the texts that a form lets in. -/
def Form.pattern : Form → Pattern Grammar.Statement
  | .any => anyText
  | .only .select => selectText.map .select
  | .only .delete => deleteText.map .delete

theorem Form.read_eq (form : Form) (text : String) : form.read text = form.pattern.read text := by
  rcases form with _ | _ | _
  · rw [Form.read, Form.pattern]
  · rw [Form.read, Form.pattern, Pattern.read_map]
  · rw [Form.read, Form.pattern, Pattern.read_map]

theorem compileText_of_read_error {σ α : Type} {p : Pattern σ} {text : String} {f : Fault} (h : p.read text = .error f)
    (make : σ → Except Fault α) : compileText p make text = .error (f.inText text) := by
  rw [compileText, h]
  rfl

theorem Form.compile_of_read_error {form : Form} {text : String} {f : Fault} (h : form.read text = .error f) :
    form.compile text = .error (f.inText text) := by
  rcases form with _ | _ | _
  · rw [Form.read] at h
    rw [Form.compile, EntityQuery.compile, compileText_of_read_error h]
  · rw [Form.read, map_eq_error_iff] at h
    rw [Form.compile, compileSelect, compileText_of_read_error h, Except.map]
  · rw [Form.read, map_eq_error_iff] at h
    rw [Form.compile, compileDelete, compileText_of_read_error h, Except.map]

theorem Form.read_error_continues {form : Form} {text : String} {f : Fault} (h : form.read text = .error f) :
    ∃ rules before after, f.cause = .expected rules ∧ rules ≠ [] ∧ text.toList = before ++ after ∧
      Text.byteLength before = f.offset ∧ ∀ r ∈ rules, form.pattern.Continues before r := by
  rcases form with _ | _ | _
  · rw [Form.read] at h
    exact recognises_statement.read_error (by decide) (by decide) h
  · rw [Form.read, map_eq_error_iff] at h
    obtain ⟨rules, before, after, hcause, hne, htext, hlen, hall⟩ :=
      recognises_select.read_error (by decide) (by decide) h
    exact ⟨rules, before, after, hcause, hne, htext, hlen, fun r hr => (hall r hr).map⟩
  · rw [Form.read, map_eq_error_iff] at h
    obtain ⟨rules, before, after, hcause, hne, htext, hlen, hall⟩ :=
      recognises_delete.read_error (by decide) (by decide) h
    exact ⟨rules, before, after, hcause, hne, htext, hlen, fun r hr => (hall r hr).map⟩

/-- A text that the grammar of a form refuses is reported at a place behind the beginning of an accepted text, with
    the names of parts that may all come next there. -/
theorem Form.read_error_viable {form : Form} {text : String} {f : Fault} (h : form.read text = .error f) :
    form.compile text = .error (f.inText text) ∧ (f.inText text).location.position = f.offset ∧
    ∃ rules before after, f.cause = .expected rules ∧
      (f.inText text).message = "expected " ++ Text.alternatives ((Rule.sorted rules).map (·.label)) ∧
      text.toList = before ++ after ∧ Text.byteLength before = f.offset ∧
      (∃ more, form.pattern.Accepts (before ++ more)) ∧ ∀ r ∈ rules, form.pattern.Continues before r := by
  obtain ⟨rules, before, after, hcause, hne, htext, hlen, hall⟩ := read_error_continues h
  have hposition : (f.inText text).location.position = f.offset := by
    refine Nat.min_eq_left ?_
    rw [← hlen, htext, Text.byteLength_append]
    exact Nat.le_add_right _ _
  obtain ⟨r, hr⟩ := List.exists_mem_of_ne_nil rules hne
  refine ⟨compile_of_read_error h, hposition, rules, before, after, hcause, ?_, htext, hlen, (hall r hr).accepts, hall⟩
  exact congrArg Fault.Cause.message hcause

/-- Behind a sort key may stand its direction, and nothing at all. -/
theorem Form.read_error_viable_sort :
    ∃ f, Form.any.read "SELECT a FROM T ORDER BY n 5" = .error f ∧
      f.cause.message = "expected EOI, kw_order, kw_skip, kw_limit, or direction" ∧
      Form.any.pattern.Accepts "SELECT a FROM T ORDER BY n ".toList ∧
      Form.any.pattern.Continues "SELECT a FROM T ORDER BY n ".toList .direction := by
  have h : Form.any.read "SELECT a FROM T ORDER BY n 5" = .error
      { offset := 27
        cause := .expected [.endOfInput, .word (.keyword .order), .word (.keyword .skip), .word (.keyword .limit),
          .direction] } := by
    decide +kernel
  obtain ⟨-, -, rules, before, after, hcause, -, htext, hlen, -, hall⟩ := Form.read_error_viable h
  obtain rfl := Fault.Cause.expected.inj hcause
  have hsplit : "SELECT a FROM T ORDER BY n 5".toList = "SELECT a FROM T ORDER BY n ".toList ++ "5".toList := by decide
  obtain rfl : before = "SELECT a FROM T ORDER BY n ".toList :=
    eq_of_byteLength (htext.symm.trans hsplit) (hlen.trans (by decide))
  have hend : Form.any.pattern.Continues "SELECT a FROM T ORDER BY n ".toList .endOfInput := hall _ (by decide)
  rw [Pattern.Continues, if_pos rfl] at hend
  exact ⟨_, h, by decide +kernel, hend, hall _ (by decide)⟩

end EntityQuery
