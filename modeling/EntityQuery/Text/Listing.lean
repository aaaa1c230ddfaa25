/-! # Listings

Names and sort keys are written one after another with a comma and a space between them; the
alternatives in a message have the word `or` before the last one. -/

namespace EntityQuery.Text

/-- The items with a comma and a space between neighbours. -/
def commaSeparated : List (List Char) → List Char
  | [] => []
  | first :: rest => first ++ rest.flatMap (", ".toList ++ ·)

/-- Alternatives in words: `a`, `a or b`, `a, b, or c`. -/
def alternatives : List String → String
  | [] => ""
  | [a] => a
  | [a, b] => a ++ " or " ++ b
  | a :: b :: rest => a ++ ", " ++ more b rest
where
  /-- All but the first of three or more alternatives. -/
  more (a : String) : List String → String
    | [] => "or " ++ a
    | b :: rest => a ++ ", " ++ more b rest

/-- Two texts that differ only in the case of ASCII letters. -/
def equalIgnoringCase (cs ds : List Char) : Bool :=
  cs.map Char.toLower == ds.map Char.toLower

end EntityQuery.Text
