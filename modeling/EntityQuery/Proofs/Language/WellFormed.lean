import EntityQuery.Proofs.Language.Meaning
import EntityQuery.Proofs.Decimal.Bits

/-! # Compiled queries are well formed

Every query that a text compiles to has valid names only, each of them a word of the text, and a condition
whose operator and operand belong together, with finite floats (`Query.Accepted`). Names are taken from
the text as they stand: the entity is trimmed, but a name has no blanks around it. -/

open EntityQuery.Language

namespace EntityQuery

/-! ### Well-formed queries -/

/-- A single value. A float among them is finite. -/
def Value.IsScalar : Value → Prop
  | .number (.float x) => x.isFinite = true
  | .pair _ _ => False
  | _ => True

/-- A range has a pair of single values for its bounds, and every other operator a single value. -/
structure Condition.WellFormed (c : Condition) : Prop where
  fits : c.operator = .between ↔ c.operand.isPair = true
  operand : c.operand.IsScalar ∨ ∃ low high, c.operand = .pair low high ∧ low.IsScalar ∧ high.IsScalar

/-- The name in a condition. -/
def conditionNames (c : Option Condition) : List String :=
  (c.map Condition.field).toList

/-- The names in a query: the entity, the fields, and the fields of the sort keys and of the condition. -/
def Query.names : Query → List String
  | .select q => q.entity :: (q.fields ++ q.sorts.map SortKey.field ++ conditionNames q.condition)
  | .delete q => q.entity :: conditionNames q.condition

/-- Every name is a valid one, and so is the condition. -/
structure Query.WellFormed (q : Query) : Prop where
  names : ∀ n ∈ q.names, IsName n.toList
  condition : ∀ c ∈ q.condition, c.WellFormed

/-- What holds of each query that a text compiles to. -/
structure Query.Accepted (q : Query) (text : String) : Prop where
  wellFormed : q.WellFormed
  /-- The query equals itself, its floats compared as numbers. -/
  beq_self : (q == q) = true
  /-- Each name is a word of the text. -/
  written : ∃ ws, Cut text.toList ws ∧ ∀ n ∈ q.names, Word.name n.toList ∈ ws

/-! ### Equality -/

theorem Value.IsScalar.beq_self {v : Value} (h : v.IsScalar) : (v == v) = true := by
  cases v with
  | string text => simp [BEq.beq, instBEqValue.beq]
  | number n =>
    cases n with
    | integer i => simp [BEq.beq, instBEqValue.beq, instBEqNumber.beq]
    | float x => exact Decimal.beq_self h
  | boolean b => simp [BEq.beq, instBEqValue.beq]
  | null => rfl
  | pair low high => cases h

theorem Condition.WellFormed.beq_self {c : Condition} (h : c.WellFormed) : (c == c) = true := by
  have hoperand : (c.operand == c.operand) = true := by
    rcases h.operand with h | ⟨low, high, hpair, hlow, hhigh⟩
    · exact h.beq_self
    · rw [hpair]
      exact Bool.and_eq_true_iff.mpr ⟨hlow.beq_self, hhigh.beq_self⟩
  show instBEqCondition.beq c c = true
  simp [instBEqCondition.beq, hoperand]

theorem Query.WellFormed.beq_self {q : Query} (h : q.WellFormed) : (q == q) = true := by
  have hcondition : (q.condition == q.condition) = true := by
    cases hc : q.condition with
    | none => rfl
    | some c => exact (h.condition c hc).beq_self
  cases q with
  | select q =>
    show instBEqSelectQuery.beq q q = true
    simp only [instBEqSelectQuery.beq, beq_self_eq_true, Bool.true_and]
    exact hcondition
  | delete q =>
    show instBEqDeleteQuery.beq q q = true
    simp only [instBEqDeleteQuery.beq, beq_self_eq_true, Bool.true_and]
    exact hcondition

namespace Language

/-! ### Meanings are well formed -/

theorem Denotes.isScalar {l : List Char} {v : Value} (h : Denotes l v) : v.IsScalar := by
  cases h with
  | float _ _ _ hfinite => exact hfinite
  | _ => trivial

theorem Test.Means.wellFormed {t : Test} {c : Condition} (h : t.Means c) (ht : ∀ w ∈ t.words, w.Spelled) :
    c.WellFormed where
  fits := by
    have hfits : c.operator.isRange = c.operand.isPair := h.fits ht
    rw [← hfits, Operator.isRange_iff]
  operand := by
    cases t with
    | compare field operator operand => exact Or.inl h.2.2.isScalar
    | range field low high =>
      obtain ⟨-, -, l, h, hl, hh, hv⟩ := h
      exact Or.inr ⟨l, h, hv, hl.isScalar, hh.isScalar⟩

theorem Test.Means.name_mem {t : Test} {c : Condition} (h : t.Means c) : Word.name c.field.toList ∈ t.words := by
  cases t with
  | compare field operator operand => simp [h.1, Test.words]
  | range field low high => simp [h.1, Test.words]

theorem FilterMeans.wellFormed {f : Option Filter} {c : Option Condition} (h : FilterMeans f c)
    (hf : ∀ w ∈ filterWords f, w.Spelled) : ∀ d ∈ c, d.WellFormed := by
  cases f with
  | none =>
    obtain rfl := h
    exact fun _ hd => absurd hd (Option.not_mem_none _)
  | some f =>
    obtain ⟨d, rfl, hd⟩ := h
    rintro d' hd'
    obtain rfl := Option.some.inj hd'
    exact hd.wellFormed fun w hw => hf w (by simp [filterWords, Filter.words, hw])

theorem FilterMeans.name_mem {f : Option Filter} {c : Option Condition} (h : FilterMeans f c) :
    ∀ n ∈ conditionNames c, Word.name n.toList ∈ filterWords f := by
  cases f with
  | none =>
    obtain rfl := h
    exact fun _ hn => absurd hn List.not_mem_nil
  | some f =>
    obtain ⟨d, rfl, hd⟩ := h
    intro n hn
    obtain rfl := List.mem_singleton.mp hn
    have := hd.name_mem
    simp [filterWords, Filter.words, this]

theorem lastOf_nil_or_mem {α : Type} (read : Clause → Option (List α)) (tail : List Clause) :
    lastOf read tail [] = [] ∨ ∃ b ∈ tail, read b = some (lastOf read tail []) := by
  rw [lastOf]
  cases h : (tail.filterMap read).getLast? with
  | none => exact Or.inl rfl
  | some l =>
    obtain ⟨b, hb, hread⟩ := List.mem_filterMap.mp (List.mem_of_getLast? h)
    exact Or.inr ⟨b, hb, hread⟩

theorem SortItem.name_mem (i : SortItem) : Word.name i.field ∈ i.words := List.mem_cons_self

theorem sort_name_mem {first : SortItem} {more : List SortItem} {i : SortItem} (h : i ∈ first :: more) :
    Word.name i.field ∈ Clause.words (.order first more) := by
  simp only [Clause.words, listed, List.mem_cons, List.mem_append, List.mem_flatMap, List.mem_map]
  rcases List.mem_cons.mp h with rfl | h
  · exact Or.inr (Or.inr (Or.inl i.name_mem))
  · exact Or.inr (Or.inr (Or.inr ⟨i.words, ⟨i, h, rfl⟩, Or.inr i.name_mem⟩))

theorem field_name_mem {f : Fields} {n : List Char} (h : n ∈ f.names) : Word.name n ∈ f.words := by
  cases f with
  | star => cases h
  | named first more =>
    simp only [Fields.words, listed, List.mem_append, List.mem_flatMap, List.mem_map, List.mem_singleton]
    rcases List.mem_cons.mp h with rfl | h
    · exact Or.inl rfl
    · exact Or.inr ⟨[.name n], ⟨n, h, rfl⟩, by simp⟩

/-- Each name of the query is a word of the statement. -/
theorem Select.Means.name_mem {s : Select} {q : SelectQuery} (h : s.Means q) :
    ∀ n ∈ (Query.select q).names, Word.name n.toList ∈ s.words := by
  intro n hn
  simp only [Query.names, List.mem_cons, List.mem_append, h.fields, h.sorts, List.mem_map] at hn
  simp only [Select.words, List.mem_cons, List.mem_append, List.mem_flatMap]
  rcases hn with rfl | (⟨m, hm, rfl⟩ | ⟨k, hk, rfl⟩) | hn
  · rw [h.entity, String.toList_ofList]
    exact Or.inr (Or.inr (Or.inr (Or.inl rfl)))
  · rw [String.toList_ofList]
    exact Or.inr (Or.inl (field_name_mem hm))
  · rcases lastOf_nil_or_mem Clause.sorts? s.tail with hnil | ⟨b, hb, hread⟩
    · rw [hnil] at hk
      cases hk
    · cases b with
      | order first more =>
        rw [← Option.some.inj hread] at hk
        obtain ⟨i, hi, rfl⟩ := List.mem_map.mp hk
        rw [SortItem.key, String.toList_ofList]
        exact Or.inr (Or.inr (Or.inr (Or.inr (Or.inr ⟨_, hb, sort_name_mem hi⟩))))
      | _ => cases hread
  · exact Or.inr (Or.inr (Or.inr (Or.inr (Or.inl (h.condition.name_mem n hn)))))

theorem Delete.Means.name_mem {s : Delete} {q : DeleteQuery} (h : s.Means q) :
    ∀ n ∈ (Query.delete q).names, Word.name n.toList ∈ s.words := by
  intro n hn
  simp only [Query.names, List.mem_cons] at hn
  simp only [Delete.words, List.mem_cons]
  rcases hn with rfl | hn
  · rw [h.entity, String.toList_ofList]
    exact Or.inr (Or.inr (Or.inl rfl))
  · exact Or.inr (Or.inr (Or.inr (h.condition.name_mem n hn)))

/-- A query whose names are words of a cut of the text and whose condition is well formed is accepted. -/
theorem accepted_of_cut {text : String} {ws : List Word} {q : Query} (hcut : Cut text.toList ws)
    (hnames : ∀ n ∈ q.names, Word.name n.toList ∈ ws) (hcondition : ∀ c ∈ q.condition, c.WellFormed) :
    q.Accepted text := by
  have hq : q.WellFormed := ⟨fun n hn => isName_of_spelled (spelled_of_cut hcut _ (hnames n hn)), hcondition⟩
  exact ⟨hq, hq.beq_self, ws, hcut, hnames⟩

theorem Select.Means.accepted {s : Select} {q : SelectQuery} {text : String} (h : s.Means q)
    (hcut : Cut text.toList s.words) : (Query.select q).Accepted text :=
  accepted_of_cut hcut h.name_mem (h.condition.wellFormed (s.spelled_filter (spelled_of_cut hcut)))

theorem Delete.Means.accepted {s : Delete} {q : DeleteQuery} {text : String} (h : s.Means q)
    (hcut : Cut text.toList s.words) : (Query.delete q).Accepted text :=
  accepted_of_cut hcut h.name_mem (h.condition.wellFormed (s.spelled_filter (spelled_of_cut hcut)))

/-- Whatever a text compiles to is well formed, under every entry point. -/
theorem accepted_of_compile (text : String) :
    (∀ q, compile text = .ok q → q.Accepted text) ∧
      (∀ q, compileSelect text = .ok q → (Query.select q).Accepted text) ∧
      ∀ q, compileDelete text = .ok q → (Query.delete q).Accepted text := by
  refine ⟨fun q h => ?_, fun q h => ?_, fun q h => ?_⟩
  · obtain ⟨s, hcut, hmeans⟩ := (compileText_eq_ok_iff recognises_statement compileStatement_eq_ok_iff).mp h
    cases s with
    | select s =>
      cases q with
      | select q => exact Select.Means.accepted hmeans hcut
      | delete => cases hmeans
    | delete s =>
      cases q with
      | select => cases hmeans
      | delete q => exact Delete.Means.accepted hmeans hcut
  · obtain ⟨s, hcut, hmeans⟩ := (compileText_eq_ok_iff recognises_select compileSelectStatement_eq_ok_iff).mp h
    exact hmeans.accepted hcut
  · obtain ⟨s, hcut, hmeans⟩ := (compileText_eq_ok_iff recognises_delete compileDeleteStatement_eq_ok_iff).mp h
    exact hmeans.accepted hcut

/-- Names that only begin like a keyword are names, and `-0` is a whole number. -/
theorem accepted_of_compile_like_keywords :
    (compile "\tselect selected,_a.b From\r\nfrom_ where not n BETWEEN -0 AND 1e3 ORDER BY asc1 desc" =
        .ok (.select ⟨"from_", ["selected", "_a.b"], [.desc "asc1"], 0, 0,
          some ⟨"n", .between, .pair (.number (.integer 0)) (.number (.float 1000.0))⟩⟩) ∧
      (Query.select ⟨"from_", ["selected", "_a.b"], [.desc "asc1"], 0, 0,
        some ⟨"n", .between, .pair (.number (.integer 0)) (.number (.float 1000.0))⟩⟩).Accepted
          "\tselect selected,_a.b From\r\nfrom_ where not n BETWEEN -0 AND 1e3 ORDER BY asc1 desc") ∧
    (compileSelect "SELECT * FROM T SKIP 3" = .ok ⟨"T", [], [], 3, 0, none⟩ ∧
      (Query.select ⟨"T", [], [], 3, 0, none⟩).Accepted "SELECT * FROM T SKIP 3") ∧
    (compileDelete "delete from T.from where not1 = 'it\\'s'" = .ok ⟨"T.from", some ⟨"not1", .equal, .string "it's"⟩⟩ ∧
      (Query.delete ⟨"T.from", some ⟨"not1", .equal, .string "it's"⟩⟩).Accepted
        "delete from T.from where not1 = 'it\\'s'") := by
  have hrange : compile "\tselect selected,_a.b From\r\nfrom_ where not n BETWEEN -0 AND 1e3 ORDER BY asc1 desc" =
      .ok (.select ⟨"from_", ["selected", "_a.b"], [.desc "asc1"], 0, 0,
        some ⟨"n", .between, .pair (.number (.integer 0)) (.number (.float 1000.0))⟩⟩) := by
    decide +kernel
  have hselect : compileSelect "SELECT * FROM T SKIP 3" = .ok ⟨"T", [], [], 3, 0, none⟩ := by
    decide +kernel
  have hdelete : compileDelete "delete from T.from where not1 = 'it\\'s'" =
      .ok ⟨"T.from", some ⟨"not1", .equal, .string "it's"⟩⟩ := by
    decide +kernel
  exact ⟨⟨hrange, (accepted_of_compile _).1 _ hrange⟩, ⟨hselect, (accepted_of_compile _).2.1 _ hselect⟩,
    ⟨hdelete, (accepted_of_compile _).2.2 _ hdelete⟩⟩

end Language

end EntityQuery
