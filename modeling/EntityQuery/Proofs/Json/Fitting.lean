import EntityQuery.Json.Reader
import EntityQuery.Proofs.Draft.Slots
import EntityQuery.Proofs.Json.Presented
import EntityQuery.Proofs.Language.Faithful

/-! # Conditions that are built and conditions that are read

The conditions that can be made one by one are those that fit, and so are those that some events or a text leave in a
query. Reading does not ask: the conditions that can be read are those with finite floats, and a condition that is read
fits when its tree names the operator of ranges and a pair, or neither (`Condition.TreeFits`). -/

namespace EntityQuery

/-! ### Conditions that are built -/

namespace Condition

theorem fits_iff {c : Condition} : c.Fits ↔ (c.operator = .between ↔ c.operand.isPair = true) := by
  rw [Fits, Bool.eq_iff_iff, Operator.isRange_iff]

theorem exists_make?_iff {c : Condition} :
    (∃ field operator operand, make? field operator operand = some c) ↔ c.Fits := by
  constructor
  · rintro ⟨field, operator, operand, h⟩
    exact fits_of_make? h
  · intro h
    exact ⟨c.field, c.operator, c.operand, if_pos h⟩

end Condition

namespace Draft
variable {events : List Event} {kind : Kind} {q : Query}

theorem fits_of_tells {e : Event} {c : Condition} (h : e.tells .condition = some c) : c.Fits := by
  cases e with
  | condition field operator operand negated =>
    simp only [Event.tells, Option.ite_none_right_eq_some, Option.some.injEq] at h
    obtain ⟨hfits, rfl⟩ := h
    exact Condition.fits_iff.mpr hfits
  | _ => cases h

theorem fits_ofEvents : ∀ c ∈ (ofEvents events).condition, c.Fits := by
  intro c hc
  rw [condition_ofEvents] at hc
  obtain ⟨e, -, he⟩ := List.mem_filterMap.mp (List.mem_of_getLast? hc)
  exact fits_of_tells he

theorem condition_queryOf (d : Draft) (kind : Kind) (name : String) :
    (d.queryOf kind name).condition = d.condition := by
  cases kind <;> rfl

theorem fits_of_finish (h : (ofEvents events).finish kind = .ok q) : ∀ c ∈ q.condition, c.Fits := by
  rw [finish_eq, Language.mapError_eq_ok_iff, Language.map_eq_ok_iff] at h
  obtain ⟨name, -, rfl⟩ := h
  rw [condition_queryOf]
  exact fits_ofEvents

end Draft

theorem Form.fits_of_compile {form : Form} {text : String} {q : Query} (h : form.compile text = .ok q) :
    ∀ c ∈ q.condition, c.Fits := by
  rw [form.compile_eq, Language.mapError_eq_ok_iff, Language.bind_eq_ok_iff] at h
  obtain ⟨a, -, ha⟩ := h
  rw [compileStatement_eq, Language.bind_eq_ok_iff] at ha
  obtain ⟨events, -, hq⟩ := ha
  exact Draft.fits_of_finish (Language.mapError_eq_ok_iff.mpr hq)

/-! ### Floats that are read -/

theorem Json.isFinite_of_float? {j : Json} {x : Float} (h : j.float? = some x) : x.isFinite = true := by
  cases j with
  | number n =>
    rw [float?, Option.filter_eq_some_iff] at h
    exact h.2
  | _ => cases h

theorem Number.isFinite_of_ofJson? {j : Json} {n : Number} (h : ofJson? j = some n) : n.IsFinite := by
  unfold ofJson? at h
  split at h
  · obtain ⟨i, -, rfl⟩ := Option.map_eq_some_iff.mp h
    trivial
  · obtain ⟨x, hx, rfl⟩ := Option.map_eq_some_iff.mp h
    exact Json.isFinite_of_float? hx
  · cases h

theorem Value.isFinite_of_ofJson? {j : Json} {v : Value} (h : ofJson? j = some v) : v.IsFinite := by
  fun_induction ofJson? j generalizing v with
  | case3 content =>
    obtain ⟨n, hn, rfl⟩ := Option.map_eq_some_iff.mp h
    exact Number.isFinite_of_ofJson? hn
  | case6 first second ihfirst ihsecond =>
    obtain ⟨a, ha, hpair⟩ := Option.bind_eq_some_iff.mp h
    obtain ⟨b, hb, rfl⟩ := Option.map_eq_some_iff.mp hpair
    exact ⟨ihfirst ha, ihsecond hb⟩
  | case1 | case5 =>
    cases h
    trivial
  | case2 | case4 =>
    obtain ⟨_, -, rfl⟩ := Option.map_eq_some_iff.mp h
    trivial
  | case7 | case8 => cases h

/-! ### The parts of a tree -/

namespace Json

/-- The name of a variant, whatever it holds. -/
def variantName? (j : Json) : Option String :=
  j.variant?.map Prod.fst

/-- The part of a record that stands for a field. -/
def part? (names : List String) (name : String) (j : Json) : Option Json :=
  (j.fields? false names).bind fun values => ((names.zip values).lookup name).join

theorem part?_of_fields? {names : List String} {name : String} {j : Json} {values : List (Option Json)}
    (h : j.fields? false names = some values) : j.part? names name = ((names.zip values).lookup name).join := by
  rw [part?, h, Option.bind_some]

theorem variantName?_of_emptyVariant? {j : Json} {name : String} (h : j.emptyVariant? = some name) :
    j.variantName? = some name := by
  unfold emptyVariant? at h
  split at h <;> simp_all [variantName?]

end Json

theorem Operator.variantName?_of_ofJson? {j : Json} {o : Operator} (h : ofJson? j = some o) :
    j.variantName? = some o.name := by
  obtain ⟨name, hname, hfind⟩ := Option.bind_eq_some_iff.mp h
  obtain rfl : o.name = name := by simpa using List.find?_some hfind
  exact Json.variantName?_of_emptyVariant? hname

theorem Operator.eq_between_iff {o : Operator} : o = .between ↔ o.name = "Between" := by
  cases o <;> simp [name]

theorem Value.isPair_iff {v : Value} : v.isPair = true ↔ v.toJson.variantName? = some "Pair" := by
  cases v <;> simp [isPair, toJson, Json.tagged, Json.variantName?, Json.variant?]

/-- A tree is of the same variant as the plain form of the value that is read from it. -/
theorem Value.variantName?_of_ofJson? {j : Json} {v : Value} (h : ofJson? j = some v) :
    j.variantName? = v.toJson.variantName? := by
  fun_induction ofJson? j generalizing v with
  | case6 first second =>
    obtain ⟨a, -, hpair⟩ := Option.bind_eq_some_iff.mp h
    obtain ⟨b, -, rfl⟩ := Option.map_eq_some_iff.mp hpair
    rfl
  | case1 | case5 =>
    cases h
    rfl
  | case2 | case3 | case4 =>
    obtain ⟨_, -, rfl⟩ := Option.map_eq_some_iff.mp h
    rfl
  | case7 | case8 => cases h

/-- The fields of a condition, of a query that reads rows, and of one that deletes rows. -/
def Condition.fieldNames : List String := ["field", "operator", "operand"]

def SelectQuery.fieldNames : List String := ["entity", "fields", "sorts", "skip", "limit", "where"]

def DeleteQuery.fieldNames : List String := ["entity", "where"]

/-- The tree of the condition in the tree of a query. -/
def Query.conditionTree? (j : Json) : Option Json :=
  match j.variant? with
  | some ("Select", some content) => content.part? SelectQuery.fieldNames "where"
  | some ("Delete", some content) => content.part? DeleteQuery.fieldNames "where"
  | _ => none

/-- The tree of a condition names the operator of ranges exactly when its operand is a pair. -/
def Condition.TreeFits (j : Json) : Prop :=
  (j.part? fieldNames "operator").bind Json.variantName? = some "Between" ↔
    (j.part? fieldNames "operand").bind Json.variantName? = some "Pair"

/-! ### Conditions that are read -/

theorem Condition.parts_of_ofJson? {j : Json} {c : Condition} (h : ofJson? j = some c) :
    ∃ operator operand, j.part? fieldNames "operator" = some operator ∧ j.part? fieldNames "operand" = some operand ∧
      Operator.ofJson? operator = some c.operator ∧ Value.ofJson? operand = some c.operand := by
  unfold ofJson? at h
  split at h
  case h_1 field operator operand hfields =>
    simp only [Option.bind_eq_bind, Option.bind_eq_some_iff, Option.some.injEq] at h
    obtain ⟨_, -, o, ho, v, hv, rfl⟩ := h
    exact ⟨operator, operand, Json.part?_of_fields? hfields, Json.part?_of_fields? hfields, ho, hv⟩
  case h_2 => cases h

theorem Condition.fits_iff_treeFits {j : Json} {c : Condition} (h : ofJson? j = some c) : c.Fits ↔ TreeFits j := by
  obtain ⟨operator, operand, hoperator, hoperand, ho, hv⟩ := parts_of_ofJson? h
  rw [fits_iff, TreeFits, hoperator, hoperand, Option.bind_some, Option.bind_some,
    Operator.variantName?_of_ofJson? ho, Value.variantName?_of_ofJson? hv, Option.some.injEq]
  exact iff_congr Operator.eq_between_iff Value.isPair_iff

theorem Condition.isFinite_of_ofJson? {j : Json} {c : Condition} (h : ofJson? j = some c) : c.operand.IsFinite := by
  obtain ⟨_, _, -, -, -, hv⟩ := parts_of_ofJson? h
  exact Value.isFinite_of_ofJson? hv

/-- A condition with finite floats can be read, whatever its operator and its operand. -/
theorem Condition.exists_ofJson?_iff {c : Condition} : (∃ j, ofJson? j = some c) ↔ c.operand.IsFinite := by
  constructor
  · rintro ⟨j, h⟩
    exact isFinite_of_ofJson? h
  · intro h
    exact ⟨c.toJson, ofJson?_of_presents h c.presents_toJson⟩

theorem ofJson?_of_conditionOfJson? {part : Option Json} {condition : Option Condition} {c : Condition}
    (h : conditionOfJson? part = some condition) (hc : c ∈ condition) :
    ∃ k, part = some k ∧ Condition.ofJson? k = some c := by
  unfold conditionOfJson? at h
  split at h
  · cases h
    cases hc
  · cases h
    cases hc
  · obtain ⟨d, hd, rfl⟩ := Option.map_eq_some_iff.mp h
    cases hc
    exact ⟨_, rfl, hd⟩

/-- The condition of a query that is read is read from its part of the tree. -/
theorem SelectQuery.condition_of_ofJson? {j : Json} {q : SelectQuery} (h : ofJson? j = some q) :
    ∀ c ∈ q.condition, ∃ k, j.part? fieldNames "where" = some k ∧ Condition.ofJson? k = some c := by
  unfold ofJson? at h
  split at h
  case h_2 => cases h
  case h_1 entity fields sorts skip limit part hfields =>
    simp only [Option.bind_eq_bind, Option.bind_eq_some_iff, Option.some.injEq] at h
    obtain ⟨_, -, _, -, _, -, _, -, _, -, condition, hcondition, rfl⟩ := h
    intro c hc
    obtain ⟨k, rfl, hk⟩ := ofJson?_of_conditionOfJson? hcondition hc
    exact ⟨k, Json.part?_of_fields? hfields, hk⟩

theorem DeleteQuery.condition_of_ofJson? {j : Json} {q : DeleteQuery} (h : ofJson? j = some q) :
    ∀ c ∈ q.condition, ∃ k, j.part? fieldNames "where" = some k ∧ Condition.ofJson? k = some c := by
  unfold ofJson? at h
  split at h
  case h_2 => cases h
  case h_1 entity part hfields =>
    simp only [Option.bind_eq_bind, Option.bind_eq_some_iff, Option.some.injEq] at h
    obtain ⟨_, -, condition, hcondition, rfl⟩ := h
    intro c hc
    obtain ⟨k, rfl, hk⟩ := ofJson?_of_conditionOfJson? hcondition hc
    exact ⟨k, Json.part?_of_fields? hfields, hk⟩

theorem Query.condition_of_ofJson? {j : Json} {q : Query} (h : ofJson? j = some q) :
    ∀ c ∈ q.condition, ∃ k, conditionTree? j = some k ∧ Condition.ofJson? k = some c := by
  unfold ofJson? at h
  split at h
  case h_1 content hvariant =>
    obtain ⟨q, hq, rfl⟩ := Option.map_eq_some_iff.mp h
    rw [conditionTree?, hvariant]
    exact SelectQuery.condition_of_ofJson? hq
  case h_2 content hvariant =>
    obtain ⟨q, hq, rfl⟩ := Option.map_eq_some_iff.mp h
    rw [conditionTree?, hvariant]
    exact DeleteQuery.condition_of_ofJson? hq
  case h_3 => cases h

theorem Query.exists_ofJson?_iff {q : Query} : (∃ j, ofJson? j = some q) ↔ ∀ c ∈ q.condition, c.operand.IsFinite := by
  constructor
  · rintro ⟨j, h⟩ c hc
    obtain ⟨k, -, hk⟩ := condition_of_ofJson? h c hc
    exact Condition.isFinite_of_ofJson? hk
  · intro h
    exact ⟨q.toJson, ofJson?_of_presents h q.presents_toJson⟩

/-- The conditions that are made are those that fit, and only these are left in a query by events or by a statement.
    A condition that is read from a tree, alone or in a query, fits exactly when its tree does; the conditions and
    the queries that can be read are those with finite floats. -/
theorem fits_built_or_read (events : List Event) (kind : Kind) (form : Form) (text : String) (j : Json) :
    (∀ c : Condition, (∃ field operator operand, Condition.make? field operator operand = some c) ↔ c.Fits) ∧
    (∀ q, (Draft.ofEvents events).finish kind = .ok q → ∀ c ∈ q.condition, c.Fits) ∧
    (∀ q, form.compile text = .ok q → ∀ c ∈ q.condition, c.Fits) ∧
    (∀ c, Condition.ofJson? j = some c → (c.Fits ↔ Condition.TreeFits j)) ∧
    (∀ q, SelectQuery.ofJson? j = some q → ∀ c ∈ q.condition,
      ∃ k, j.part? SelectQuery.fieldNames "where" = some k ∧ (c.Fits ↔ Condition.TreeFits k)) ∧
    (∀ q, DeleteQuery.ofJson? j = some q → ∀ c ∈ q.condition,
      ∃ k, j.part? DeleteQuery.fieldNames "where" = some k ∧ (c.Fits ↔ Condition.TreeFits k)) ∧
    (∀ q, Query.ofJson? j = some q → ∀ c ∈ q.condition,
      ∃ k, Query.conditionTree? j = some k ∧ (c.Fits ↔ Condition.TreeFits k)) ∧
    (∀ c, (∃ j, Condition.ofJson? j = some c) ↔ c.operand.IsFinite) ∧
    ∀ q, (∃ j, Query.ofJson? j = some q) ↔ ∀ c ∈ q.condition, c.operand.IsFinite := by
  have hread : ∀ {tree : Option Json} {c : Condition}, (∃ k, tree = some k ∧ Condition.ofJson? k = some c) →
      ∃ k, tree = some k ∧ (c.Fits ↔ Condition.TreeFits k) := by
    rintro tree c ⟨k, hk, hc⟩
    exact ⟨k, hk, Condition.fits_iff_treeFits hc⟩
  refine ⟨fun _ => Condition.exists_make?_iff, fun _ => Draft.fits_of_finish, fun _ => Form.fits_of_compile,
    fun _ => Condition.fits_iff_treeFits, fun q h c hc => ?_, fun q h c hc => ?_, fun q h c hc => ?_,
    fun _ => Condition.exists_ofJson?_iff, fun _ => Query.exists_ofJson?_iff⟩
  · exact hread (SelectQuery.condition_of_ofJson? h c hc)
  · exact hread (DeleteQuery.condition_of_ofJson? h c hc)
  · exact hread (Query.condition_of_ofJson? h c hc)

/-- A range without bounds is passed over among events, but read from the array of a query's fields. -/
theorem fits_built_or_read_positional :
    let range : Condition := ⟨"f", .between, .pair (.number (.integer 1)) .null⟩
    let below : Condition := ⟨"f", .less, .string "s"⟩
    let unbounded : Condition := ⟨"f", .between, .null⟩
    let query (c : Condition) : Query := .delete { entity := "T", condition := some c }
    let told (c : Condition) : Event := .condition c.field c.operator c.operand true
    let events : List Event := [.entity "T", told range, told unbounded]
    let condition : Json := .array [.string "f", .object [("Between", .null)], .string "Null"]
    let tree : Json := .object [("Delete", .array [.string "T", condition])]
    ((Draft.ofEvents events).finish .delete = .ok (query range) ∧ range.Fits) ∧
      ((Form.only .delete).compile "delete from T where not f < 's'" = .ok (query below) ∧ below.Fits) ∧
      Query.ofJson? tree = some (query unbounded) ∧ ¬unbounded.Fits := by
  intro range below unbounded query told events condition tree
  obtain ⟨-, hbuilt, hcompiled, -, -, -, hread, -⟩ :=
    fits_built_or_read events .delete (.only .delete) "delete from T where not f < 's'" tree
  have hrange : (Draft.ofEvents events).finish .delete = .ok (query range) := by decide
  have hbelow : (Form.only .delete).compile "delete from T where not f < 's'" = .ok (query below) := by decide +kernel
  have htree : Query.ofJson? tree = some (query unbounded) := by decide +kernel
  obtain ⟨k, hk, hfits⟩ := hread (query unbounded) htree unbounded rfl
  obtain rfl : condition = k := Option.some.inj hk
  have hunfit : ¬Condition.TreeFits condition := by
    intro h
    exact absurd (h.mp rfl) (by decide)
  exact ⟨⟨hrange, hbuilt _ hrange range rfl⟩, ⟨hbelow, hcompiled _ hbelow below rfl⟩, htree, mt hfits.mp hunfit⟩

/-- The text of a range with a single value is read. -/
theorem not_fits_of_read : ¬∀ text c, (Json.read text).bind Condition.ofJson? = some c → c.Fits := by
  have hread : (Json.read
      "\x7b\"field\": \"f\", \"operator\": \"Between\", \"operand\": \x7b\"String\": \"s\"\x7d\x7d").bind
      Condition.ofJson? = some ⟨"f", .between, .string "s"⟩ := by
    decide +kernel
  intro h
  exact absurd (h _ _ hread) (by decide)

end EntityQuery
