/-! # Blank characters

A literal is read without the blanks around it. A character is blank when the Unicode property
`White_Space` holds of it, which is a wider class than the four layout characters that separate the
words of a statement (`EntityQuery.Grammar.Lexeme`). -/

namespace EntityQuery.Text

/-- The first and last code point of each run of characters with the property `White_Space`. -/
def blankRuns : List (Nat × Nat) :=
  [(0x9, 0xD), (0x20, 0x20), (0x85, 0x85), (0xA0, 0xA0), (0x1680, 0x1680), (0x2000, 0x200A),
    (0x2028, 0x2029), (0x202F, 0x202F), (0x205F, 0x205F), (0x3000, 0x3000)]

/-- A character is blank when one of the runs holds it. -/
def isBlank (c : Char) : Bool :=
  blankRuns.any fun run => run.1 ≤ c.toNat && c.toNat ≤ run.2

/-- A text without the blanks at its two ends. -/
def trim (cs : List Char) : List Char :=
  ((cs.dropWhile isBlank).reverse.dropWhile isBlank).reverse

/-- A text that neither begins nor ends with a blank is its own trimmed form. -/
theorem trim_eq_self {cs : List Char} (hhead : ∀ c, cs.head? = some c → isBlank c = false)
    (hlast : ∀ c, cs.getLast? = some c → isBlank c = false) : trim cs = cs := by
  have hfront : cs.dropWhile isBlank = cs := by
    cases cs with
    | nil => rfl
    | cons c cs => simp [hhead c rfl]
  have hback : cs.reverse.dropWhile isBlank = cs.reverse := by
    cases hr : cs.reverse with
    | nil => rfl
    | cons c r =>
      have hc : cs.getLast? = some c := by rw [← List.head?_reverse, hr]; rfl
      simp [hlast c hc]
  rw [trim, hfront, hback, List.reverse_reverse]

end EntityQuery.Text
