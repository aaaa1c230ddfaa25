/-! # JSON trees

A JSON text as a tree. Numbers are kept as they are written, digits and exponent, so that it is for
whoever reads them to ask for a whole number or for a double. The members of an object keep their
order, and a name may come twice. A part that cannot be read is a value of its own kind: it does no
harm where nobody asks for it. -/

namespace EntityQuery

/-- A number as it is written: `± digits * 10 ^ exponent`. -/
structure Json.Numeral where
  negative : Bool
  digits : Nat
  exponent : Int
  /-- It has neither a fraction nor an exponent. -/
  whole : Bool
  deriving DecidableEq, Repr

/-- A JSON value. -/
inductive Json
  | null
  | boolean (value : Bool)
  | number (value : Json.Numeral)
  | string (text : String)
  /-- A value that nobody can read: a string with half of a surrogate pair in it, which is no text,
  an object with a name of that kind, or an array or object that is nested too deep. -/
  | unreadable
  | array (items : List Json)
  | object (members : List (String × Json))
  deriving Repr

namespace Json

/-- A whole number. -/
def ofInt (n : Int) : Json :=
  .number { negative := decide (n < 0), digits := n.natAbs, exponent := 0, whole := true }

mutual

/-- The tree as far as arrays and objects are nested at most `levels` deep. What is deeper cannot be
read. -/
def cut : Nat → Json → Json
  | 0, .array _ => .unreadable
  | 0, .object _ => .unreadable
  | levels + 1, .array items => .array (cutItems levels items)
  | levels + 1, .object members => .object (cutMembers levels members)
  | _, j => j

/-- The items, each as far as it is nested at most `levels` deep. -/
def cutItems (levels : Nat) : List Json → List Json
  | [] => []
  | j :: rest => j.cut levels :: cutItems levels rest

/-- The members, the value of each as far as it is nested at most `levels` deep. -/
def cutMembers (levels : Nat) : List (String × Json) → List (String × Json)
  | [] => []
  | (name, j) :: rest => (name, j.cut levels) :: cutMembers levels rest

end

end Json

end EntityQuery
