import EntityQuery.Proofs.Json.Record
import EntityQuery.Proofs.Language.Numeral
import EntityQuery.Query.Json

/-! # Queries read back from every presentation

The JSON form of a query is read back as the query, and so is every other presentation of it: its records may have
their members in any order with unknown ones among them, may be arrays of their fields, and may lack a condition that
is null. Each kind of value is read back on its own; a record is then read field by field. -/

namespace EntityQuery

/-! ### Simple values -/

namespace Json

theorem uint64?_ofInt (n : UInt64) : (ofInt n.toNat).uint64? = some n := by
  have hsize : n.toNat < UInt64.size := n.toNat_lt
  have hsign : ¬((n.toNat : Int) < 0) := by omega
  simp [ofInt, uint64?, hsize, hsign]

theorem int64?_ofInt (n : Int64) : (ofInt n.toInt).int64? = some n := by
  have hleast := n.minValue_le_toInt
  have hgreatest := n.toInt_le
  rw [ofInt, int64?, if_pos rfl]
  by_cases hsign : n.toInt < 0
  · have habs : -(n.toInt.natAbs : Int) = n.toInt := by omega
    have hpos := Int.natAbs_pos.mpr (Int.ne_of_lt hsign)
    rw [if_pos (decide_eq_true hsign), habs, if_pos ⟨hpos, hleast⟩, Int64.ofInt_toInt]
  · have habs : (n.toInt.natAbs : Int) = n.toInt := by omega
    rw [if_neg (by simpa using hsign), habs, if_pos hgreatest, Int64.ofInt_toInt]

theorem float?_ofFloat {x : Float} (h : x.isFinite = true) : (ofFloat x).float? = some x := by
  obtain ⟨d, hclass, hcanonical, hx⟩ := Decimal.classify_finite h
  have hnearest : Decimal.nearest d.negative d.shortest.1 d.shortest.2 = x := by
    rw [Decimal.nearest, (Language.decimalMagnitude_shortest hcanonical).1, hx]
  rw [ofFloat, hclass]
  show (some (Decimal.nearest d.negative d.shortest.1 d.shortest.2)).filter Float.isFinite = some x
  rw [hnearest, Option.filter_some, if_pos h]

end Json

/-- A number that is no float, or a finite one. -/
def Number.IsFinite : Number → Prop
  | .integer _ => True
  | .float x => x.isFinite = true

/-- All floats in a value are finite, however deep they stand in pairs. -/
def Value.IsFinite : Value → Prop
  | .number n => n.IsFinite
  | .pair first second => first.IsFinite ∧ second.IsFinite
  | _ => True

theorem Number.ofJson?_toJson {n : Number} (h : n.IsFinite) : ofJson? n.toJson = some n := by
  cases n with
  | integer i => simp [toJson, Json.tagged, ofJson?, Json.variant?, Json.int64?_ofInt]
  | float x => simp [toJson, Json.tagged, ofJson?, Json.variant?, Json.float?_ofFloat h]

theorem Value.ofJson?_toJson {v : Value} (h : v.IsFinite) : ofJson? v.toJson = some v := by
  induction v with
  | string text => simp [toJson, Json.tagged, ofJson?, Json.string?]
  | number n => simp [toJson, Json.tagged, ofJson?, Number.ofJson?_toJson h]
  | boolean b => simp [toJson, Json.tagged, ofJson?, Json.boolean?]
  | null => simp [toJson, ofJson?]
  | pair first second ihfirst ihsecond =>
    simp [toJson, Json.tagged, ofJson?, ihfirst h.1, ihsecond h.2]

theorem Operator.ofJson?_name (o : Operator) : ofJson? (.string o.name) = some o := by
  cases o <;> rfl

theorem Direction.ofJson?_name (d : Direction) : ofJson? (.string d.name) = some d := by
  cases d <;> rfl

/-! ### Presentations -/

/-- An array whose items are presented one by one. -/
inductive Json.PresentsItems (presents : Json → Json → Prop) : Json → Json → Prop
  | items {js ks} : List.Forall₂ presents js ks → PresentsItems presents (.array js) (.array ks)

/-- The condition of a query, null when there is none. -/
inductive Json.PresentsOptional (presents : Json → Json → Prop) : Json → Json → Prop
  | none : PresentsOptional presents .null .null
  | some {j k} : presents j k → PresentsOptional presents j k

/-- A variant whose content is presented. -/
def Json.PresentsTagged (name : String) (presents : Json → Json → Prop) (j k : Json) : Prop :=
  ∃ content content', j = tagged name content ∧ k = tagged name content' ∧ presents content content'

open Json

def SortKey.Presents : Json → Json → Prop :=
  Json.Presents [{ name := "field", presents := Eq }, { name := "direction", presents := Eq }]

def Condition.Presents : Json → Json → Prop :=
  Json.Presents [{ name := "field", presents := Eq }, { name := "operator", presents := Eq },
    { name := "operand", presents := Eq }]

def whereField : Json.Field :=
  { name := "where", presents := PresentsOptional Condition.Presents, mayLack := True }

def SelectQuery.Presents : Json → Json → Prop :=
  Json.Presents [{ name := "entity", presents := Eq }, { name := "fields", presents := Eq },
    { name := "sorts", presents := PresentsItems SortKey.Presents }, { name := "skip", presents := Eq },
    { name := "limit", presents := Eq }, whereField]

def DeleteQuery.Presents : Json → Json → Prop :=
  Json.Presents [{ name := "entity", presents := Eq }, whereField]

def Query.Presents (j k : Json) : Prop :=
  PresentsTagged "Select" SelectQuery.Presents j k ∨ PresentsTagged "Delete" DeleteQuery.Presents j k

theorem SortKey.ofJson?_of_presents {s : SortKey} {k : Json} (h : Presents s.toJson k) : ofJson? k = some s := by
  obtain ⟨values, hgiven, hfields⟩ := Json.Presents.fields? h (by simp)
  obtain _ | ⟨rfl, _ | ⟨rfl, _ | _⟩⟩ := hgiven
  simp only [List.map_cons, List.map_nil] at hfields
  rw [ofJson?, hfields]
  simp [Json.string?, Direction.ofJson?_name]

theorem Condition.ofJson?_of_presents {c : Condition} {k : Json} (hfinite : c.operand.IsFinite)
    (h : Presents c.toJson k) : ofJson? k = some c := by
  obtain ⟨values, hgiven, hfields⟩ := Json.Presents.fields? h (by simp)
  generalize hoperand : c.operand.toJson = operand at hgiven
  obtain _ | ⟨rfl, _ | ⟨rfl, _ | ⟨rfl, _ | _⟩ | ⟨⟨⟩, _⟩⟩⟩ := hgiven
  simp only [List.map_cons, List.map_nil] at hfields
  rw [ofJson?, hfields]
  simp [Json.string?, Operator.ofJson?_name, ← hoperand, Value.ofJson?_toJson hfinite]

theorem Json.list?_of_presents {α : Type} {toJson : α → Json} {read : Json → Option α} {presents : Json → Json → Prop}
    (hread : ∀ {a : α} {k : Json}, presents (toJson a) k → read k = some a) {as : List α} {k : Json}
    (h : PresentsItems presents (.array (as.map toJson)) k) : k.list? read = some as := by
  obtain @⟨_, ks, hitems⟩ := h
  rw [list?]
  induction as generalizing ks with
  | nil =>
    cases hitems
    rfl
  | cons a as ih =>
    obtain _ | ⟨ha, has⟩ := hitems
    simp [hread ha, ih has]

theorem conditionOfJson?_some {d : Condition} {k : Json} (h : Condition.ofJson? k = some d) :
    conditionOfJson? (some k) = some (some d) := by
  cases k with
  | null => cases h
  | _ => simp [conditionOfJson?, h]

/-- The condition of a query is read back, whether its field is there or left out. -/
theorem conditionOfJson?_of_given {c : Option Condition} {values : List (Option Json)}
    (hfinite : ∀ d ∈ c, d.operand.IsFinite) (h : Given [whereField] [("where", conditionToJson c)] values) :
    ∃ condition, values = [condition] ∧ conditionOfJson? condition = some c := by
  cases c with
  | none =>
    obtain _ | ⟨⟨⟩ | ⟨⟨⟩⟩, ⟨⟩⟩ | ⟨-, ⟨⟩⟩ := h
    · exact ⟨some .null, rfl, rfl⟩
    · exact ⟨none, rfl, rfl⟩
  | some d =>
    obtain _ | ⟨hd, ⟨⟩⟩ := h
    obtain _ | hd := hd
    exact ⟨_, rfl, conditionOfJson?_some (Condition.ofJson?_of_presents (hfinite d rfl) hd)⟩

theorem SelectQuery.ofJson?_of_presents {q : SelectQuery} {k : Json} (hfinite : ∀ c ∈ q.condition, c.operand.IsFinite)
    (h : Presents q.toJson k) : ofJson? k = some q := by
  obtain ⟨values, hgiven, hfields⟩ := Json.Presents.fields? h (by simp [whereField])
  obtain _ | ⟨rfl, _ | ⟨rfl, _ | ⟨hitems, _ | ⟨rfl, _ | ⟨rfl, hlast⟩⟩⟩⟩⟩ := hgiven
  obtain ⟨condition, rfl, hcondition⟩ := conditionOfJson?_of_given hfinite hlast
  have hnames : (array (q.fields.map .string)).list? Json.string? = some q.fields :=
    list?_of_presents (fun h => by rw [← h]; rfl) (⟨List.forall₂_refl _⟩ : PresentsItems Eq _ _)
  have hsorts := list?_of_presents SortKey.ofJson?_of_presents hitems
  simp only [List.map_cons, List.map_nil, whereField] at hfields
  rw [ofJson?, hfields]
  simp [Json.string?, hnames, hsorts, uint64?_ofInt, hcondition]

theorem DeleteQuery.ofJson?_of_presents {q : DeleteQuery} {k : Json} (hfinite : ∀ c ∈ q.condition, c.operand.IsFinite)
    (h : Presents q.toJson k) : ofJson? k = some q := by
  obtain ⟨values, hgiven, hfields⟩ := Json.Presents.fields? h (by simp [whereField])
  obtain _ | ⟨rfl, hlast⟩ := hgiven
  obtain ⟨condition, rfl, hcondition⟩ := conditionOfJson?_of_given hfinite hlast
  simp only [List.map_cons, List.map_nil, whereField] at hfields
  rw [ofJson?, hfields]
  simp [Json.string?, hcondition]

theorem Query.ofJson?_of_presents {q : Query} {k : Json} (hfinite : ∀ c ∈ q.condition, c.operand.IsFinite)
    (h : Presents q.toJson k) : ofJson? k = some q := by
  cases q with
  | select q =>
    obtain ⟨_, _, hq, rfl, h⟩ | ⟨_, _, hq, -, -⟩ := h
    · obtain rfl : q.toJson = _ := by simpa [toJson, tagged] using hq
      simp [ofJson?, tagged, variant?, SelectQuery.ofJson?_of_presents hfinite h]
    · simp [toJson, tagged] at hq
  | delete q =>
    obtain ⟨_, _, hq, -, -⟩ | ⟨_, _, hq, rfl, h⟩ := h
    · simp [toJson, tagged] at hq
    · obtain rfl : q.toJson = _ := by simpa [toJson, tagged] using hq
      simp [ofJson?, tagged, variant?, DeleteQuery.ofJson?_of_presents hfinite h]

/-! ### The plain form among them -/

theorem SortKey.presents_toJson (s : SortKey) : Presents s.toJson s.toJson :=
  .object [] (.value rfl (.value rfl .nil)) (.refl _) (by simp)

theorem Condition.presents_toJson (c : Condition) : Presents c.toJson c.toJson :=
  .object [] (.value rfl (.value rfl (.value rfl .nil))) (.refl _) (by simp)

theorem presentsOptional_toJson (c : Option Condition) :
    PresentsOptional Condition.Presents (conditionToJson c) (conditionToJson c) := by
  cases c with
  | none => exact .none
  | some c => exact .some c.presents_toJson

theorem SelectQuery.presents_toJson (q : SelectQuery) : Presents q.toJson q.toJson := by
  have hsorts : List.Forall₂ SortKey.Presents (q.sorts.map SortKey.toJson) (q.sorts.map SortKey.toJson) :=
    List.forall₂_same.mpr (by simp [SortKey.presents_toJson])
  exact .object [] (.value rfl (.value rfl (.value ⟨hsorts⟩ (.value rfl (.value rfl
    (.value (presentsOptional_toJson q.condition) .nil)))))) (.refl _) (by simp)

theorem DeleteQuery.presents_toJson (q : DeleteQuery) : Presents q.toJson q.toJson :=
  .object [] (.value rfl (.value (presentsOptional_toJson q.condition) .nil)) (.refl _) (by simp)

theorem Query.presents_toJson (q : Query) : Presents q.toJson q.toJson := by
  cases q with
  | select q => exact Or.inl ⟨_, _, rfl, rfl, q.presents_toJson⟩
  | delete q => exact Or.inr ⟨_, _, rfl, rfl, q.presents_toJson⟩

/-! ### The law -/

/-- What is written is read back, bit for bit, from its JSON form and from every presentation of it. -/
theorem ofJson?_presentations :
    (∀ n : Number, n.IsFinite → Number.ofJson? n.toJson = some n) ∧
    (∀ v : Value, v.IsFinite → Value.ofJson? v.toJson = some v) ∧
    (∀ s : SortKey,
      SortKey.Presents s.toJson s.toJson ∧ ∀ k, SortKey.Presents s.toJson k → SortKey.ofJson? k = some s) ∧
    (∀ c : Condition, c.operand.IsFinite →
      Condition.Presents c.toJson c.toJson ∧ ∀ k, Condition.Presents c.toJson k → Condition.ofJson? k = some c) ∧
    (∀ q : SelectQuery, (∀ c ∈ q.condition, c.operand.IsFinite) →
      SelectQuery.Presents q.toJson q.toJson ∧ ∀ k, SelectQuery.Presents q.toJson k → SelectQuery.ofJson? k = some q) ∧
    (∀ q : DeleteQuery, (∀ c ∈ q.condition, c.operand.IsFinite) →
      DeleteQuery.Presents q.toJson q.toJson ∧ ∀ k, DeleteQuery.Presents q.toJson k → DeleteQuery.ofJson? k = some q) ∧
    (∀ q : Query, (∀ c ∈ q.condition, c.operand.IsFinite) →
      Query.Presents q.toJson q.toJson ∧ ∀ k, Query.Presents q.toJson k → Query.ofJson? k = some q) :=
  ⟨fun _ h => Number.ofJson?_toJson h, fun _ h => Value.ofJson?_toJson h,
    fun s => ⟨s.presents_toJson, fun _ => SortKey.ofJson?_of_presents⟩,
    fun c h => ⟨c.presents_toJson, fun _ => Condition.ofJson?_of_presents h⟩,
    fun q h => ⟨q.presents_toJson, fun _ => SelectQuery.ofJson?_of_presents h⟩,
    fun q h => ⟨q.presents_toJson, fun _ => DeleteQuery.ofJson?_of_presents h⟩,
    fun q h => ⟨q.presents_toJson, fun _ => Query.ofJson?_of_presents h⟩⟩

/-- A query whose members stand in another order with unknown ones in front; its condition and the second of its sort
    keys are arrays. The bounds are a negative zero and a pair. -/
theorem ofJson?_presentations_shuffled :
    let bounds : Value := .pair (.number (.float (-0.0))) (.pair .null (.number (.integer (-3))))
    let q : Query := .select ⟨"t", ["b", "a"], [.desc "y", .asc "x"], 0, 7, some ⟨"n", .between, bounds⟩⟩
    let sorts : Json := .array [(SortKey.desc "y").toJson, .array [.string "x", .string "Ascending"]]
    let condition : Json := .array [.string "n", .string "Between", bounds.toJson]
    Query.ofJson? (.object [("Select", .object [("where_clause", .null), ("skipped", .array []), ("where", condition),
      ("limit", .ofInt 7), ("skip", .ofInt 0), ("sorts", sorts), ("fields", .array [.string "b", .string "a"]),
      ("entity", .string "t")])]) = some q := by
  intro bounds q sorts condition
  have hzero : (-0.0 : Float).isFinite = true := by decide
  have hcondition : Condition.Presents (Condition.mk "n" .between bounds).toJson condition :=
    .array (.value rfl (.value rfl (.value rfl .nil)))
  have hx : SortKey.Presents (SortKey.asc "x").toJson (.array [.string "x", .string "Ascending"]) :=
    .array (.value rfl (.value rfl .nil))
  have hsorts := PresentsItems.items (.cons (SortKey.desc "y").presents_toJson (.cons hx .nil))
  have hfinite : ∀ c ∈ q.condition, c.operand.IsFinite := by
    rintro c ⟨⟩
    exact ⟨hzero, trivial, trivial⟩
  have hperm : ∀ known unknown : List (String × Json), (unknown ++ known.reverse).Perm (known ++ unknown) :=
    fun known unknown => List.perm_append_comm.trans ((List.reverse_perm known).append_right unknown)
  have hmembers := hperm [("entity", .string "t"), ("fields", .array [.string "b", .string "a"]), ("sorts", sorts),
    ("skip", .ofInt 0), ("limit", .ofInt 7), ("where", condition)] [("where_clause", .null), ("skipped", .array [])]
  refine (ofJson?_presentations.2.2.2.2.2.2 q hfinite).2 _ (Or.inl ⟨_, _, rfl, rfl, ?_⟩)
  exact .object [("where_clause", .null), ("skipped", .array [])] (.value rfl (.value rfl (.value hsorts (.value rfl
    (.value rfl (.value (.some hcondition) .nil)))))) hmembers (by simp [whereField])

end EntityQuery
