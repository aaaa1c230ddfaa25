/-! # Trees of settings

Every source of settings gives a tree: tables, lists and simple values. One tree is laid over
another key by key (`Node.over`): where both have a table the tables are merged, and everywhere else
the upper tree wins. -/

namespace EntityQuery.Settings

/-- A tree of settings. -/
inductive Node
  | text (value : String)
  | integer (value : Int)
  | float (value : Float)
  | boolean (value : Bool)
  | list (items : List Node)
  | table (members : List (String × Node))
  deriving Repr

/-- The members of a table. -/
abbrev Members := List (String × Node)

/-- Gives a name a value: in its place if it is there, else behind all others. -/
def put {α : Type} (name : String) (value : α) : List (String × α) → List (String × α)
  | [] => [(name, value)]
  | (n, v) :: rest => if n = name then (n, value) :: rest else (n, v) :: put name value rest

theorem lookup_put {α : Type} (name other : String) (value : α) (ms : List (String × α)) :
    (put name value ms).lookup other = if other = name then some value else ms.lookup other := by
  induction ms with
  | nil => simp only [put, List.lookup_cons, List.lookup_nil]; split <;> simp_all
  | cons m ms ih =>
    obtain ⟨n, v⟩ := m
    by_cases h : n = name
    · subst h
      simp only [put, if_true, List.lookup_cons]
      split <;> simp_all
    · simp only [put, h, if_false, List.lookup_cons, ih]
      split <;> simp_all

mutual

/-- Lays a tree over another one. -/
def Node.over (upper lower : Node) : Node :=
  match upper, lower with
  | .table us, .table ls => .table (membersOver us ls)
  | u, _ => u

/-- Lays the members of a table over those of another one. -/
def membersOver : Members → Members → Members
  | [], ls => ls
  | (name, u) :: us, ls =>
    membersOver us (put name (match ls.lookup name with
      | some l => u.over l
      | none => u) ls)

end

/-- The tree in which a value stands at the end of a path. -/
def Node.atPath (value : Node) : List String → Node
  | [] => value
  | name :: rest => .table [(name, value.atPath rest)]

end EntityQuery.Settings
