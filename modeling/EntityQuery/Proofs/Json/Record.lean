import Mathlib.Data.List.Nodup
import EntityQuery.Json.Record

/-! # Presentations of a record

A record that is written as an object of its fields may be presented otherwise: with its members in another order and
unknown ones among them, without a member that is null where the field may be absent, or as the array of all its
fields. Whatever the presentation, its fields are read as what the members stand for (`Presents.fields?`). -/

namespace EntityQuery.Json

/-- A field of a record, and how its content may be presented. -/
structure Field where
  name : String
  presents : Json → Json → Prop
  /-- The field may be left out when it is null. -/
  mayLack : Prop := False

/-- The members of a record, and the values that present them. -/
inductive Given : List Field → List (String × Json) → List (Option Json) → Prop
  | nil : Given [] [] []
  | value {f fs j k members values} :
      f.presents j k → Given fs members values → Given (f :: fs) ((f.name, j) :: members) (some k :: values)
  | absent {f fs members values} :
      f.mayLack → Given fs members values → Given (f :: fs) ((f.name, .null) :: members) (none :: values)

/-- The members of the fields that are not absent. -/
def known : List Field → List (Option Json) → List (String × Json)
  | f :: fs, value :: values => value.toList.map (f.name, ·) ++ known fs values
  | _, _ => []

/-- The second value presents the record that the first one is. -/
inductive Presents (fields : List Field) : Json → Json → Prop
  | object {members values members'} (unknown : List (String × Json)) :
      Given fields members values → members'.Perm (known fields values ++ unknown) →
        (∀ m ∈ unknown, m.1 ∉ fields.map Field.name) → Presents fields (.object members) (.object members')
  | array {members items} :
      Given fields members (items.map some) → Presents fields (.object members) (.array items)

/-! ### Reading the fields -/

theorem notMem_known {name : String} {fields : List Field} (h : name ∉ fields.map Field.name)
    (values : List (Option Json)) : ∀ m ∈ known fields values, m.1 ≠ name := by
  induction fields generalizing values with
  | nil => simp [known]
  | cons f fs ih =>
    cases values with
    | nil => simp [known]
    | cons value values =>
      obtain ⟨hf, hfs⟩ : name ≠ f.name ∧ name ∉ fs.map Field.name := by simpa [not_or] using h
      intro m hm
      rcases List.mem_append.mp hm with hm | hm
      · obtain ⟨j, -, rfl⟩ := List.mem_map.mp hm
        exact hf.symm
      · exact ih hfs values m hm

theorem filter_of_ne {name : String} {members : List (String × Json)} (h : ∀ m ∈ members, m.1 ≠ name) :
    members.filter (·.1 == name) = [] := by
  rw [List.filter_eq_nil_iff]
  intro m hm
  simpa using h m hm

/-- A name is read as the value that the members have for it, wherever they stand. -/
theorem member?_of_perm {name : String} {value : Option Json} {members members' : List (String × Json)}
    (hperm : members'.Perm members) (hvalue : members.filter (·.1 == name) = value.toList.map (name, ·)) :
    member? members' name = some value := by
  have hfilter := hperm.filter (·.1 == name)
  rw [hvalue] at hfilter
  rw [member?]
  cases value with
  | none => simp [hfilter.eq_nil]
  | some j => simp [List.perm_singleton.mp hfilter]

/-- The fields are read one after the other; the members of those that were read stand `before` the others. -/
theorem mapM_member? {fields : List Field} {values : List (Option Json)} {unknown members' : List (String × Json)}
    (before : List (String × Json)) (hlength : values.length = fields.length) (hnames : (fields.map Field.name).Nodup)
    (hperm : members'.Perm (before ++ known fields values ++ unknown))
    (hbefore : ∀ m ∈ before, m.1 ∉ fields.map Field.name) (hunknown : ∀ m ∈ unknown, m.1 ∉ fields.map Field.name) :
    (fields.map Field.name).mapM (member? members') = some values := by
  induction fields generalizing before values with
  | nil =>
    obtain rfl := List.eq_nil_of_length_eq_zero hlength
    rfl
  | cons f fs ih =>
    obtain ⟨value, values, rfl⟩ := List.exists_cons_of_length_eq_add_one hlength
    obtain ⟨hf, hfs⟩ := List.nodup_cons.mp hnames
    have hother : ∀ {members : List (String × Json)}, (∀ m ∈ members, m.1 ∉ (f :: fs).map Field.name) →
        (∀ m ∈ members, m.1 ≠ f.name) ∧ ∀ m ∈ members, m.1 ∉ fs.map Field.name := by
      intro members h
      exact ⟨fun m hm heq => h m hm (heq ▸ List.mem_cons_self), fun m hm hmem => h m hm (List.mem_cons_of_mem _ hmem)⟩
    have hmember : member? members' f.name = some value := by
      refine member?_of_perm hperm ?_
      rw [known, List.filter_append, List.filter_append, List.filter_append, filter_of_ne (hother hbefore).1,
        filter_of_ne (notMem_known hf values), filter_of_ne (hother hunknown).1]
      cases value <;> simp
    have hrest : (fs.map Field.name).mapM (member? members') = some values := by
      refine ih (before ++ value.toList.map (f.name, ·)) (Nat.succ.inj hlength) hfs ?_ ?_ (hother hunknown).2
      · simpa [known] using hperm
      · intro m hm
        rcases List.mem_append.mp hm with hm | hm
        · exact (hother hbefore).2 m hm
        · obtain ⟨j, -, rfl⟩ := List.mem_map.mp hm
          exact hf
    simp [hmember, hrest]

theorem Given.length_eq {fields : List Field} {members : List (String × Json)} {values : List (Option Json)}
    (h : Given fields members values) : values.length = fields.length := by
  induction h with
  | nil => rfl
  | value _ _ ih => simp [ih]
  | absent _ _ ih => simp [ih]

/-- However a record is presented, its fields are read as values that present its members. -/
theorem Presents.fields? {fields : List Field} {members : List (String × Json)} {k : Json}
    (h : Presents fields (.object members) k) (hnames : (fields.map Field.name).Nodup) :
    ∃ values, Given fields members values ∧ k.fields? false (fields.map Field.name) = some values := by
  cases h with
  | object unknown hgiven hperm hunknown =>
    exact ⟨_, hgiven, mapM_member? [] hgiven.length_eq hnames hperm (by simp) hunknown⟩
  | @array _ items hgiven =>
    have hlength : items.length = fields.length := by simpa using hgiven.length_eq
    exact ⟨_, hgiven, by simp [Json.fields?, hlength]⟩

end EntityQuery.Json
