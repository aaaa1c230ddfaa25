import EntityQuery.Condition
import EntityQuery.Decimal.Whole
import EntityQuery.Grammar.Lexeme

/-! # Words of a text

What the words of a statement look like, said without a scanner: how each is spelled, what may stand
right behind it, and how a text is cut into words with layout between them (`Cut`). The patterns of
the grammar are compared with this in the modules after it. -/

namespace EntityQuery.Language
open Grammar (Keyword isLayout isNameChar isNameStart isWordChar startsWord)

/-! ### Classes of texts -/

/-- The letters, digits and underscores that a text begins with, in lower case. -/
def leadingWord (cs : List Char) : List Char :=
  (cs.takeWhile isWordChar).map Char.toLower

/-- A valid name: a letter or an underscore, then letters, digits, underscores and points; what stands
    before the first point is no keyword in any case. -/
structure IsName (cs : List Char) : Prop where
  start : ∃ c rest, cs = c :: rest ∧ isNameStart c = true
  chars : ∀ c ∈ cs, isNameChar c = true
  free : ∀ k : Keyword, leadingWord cs ≠ k.word.toList

instance (cs : List Char) : Decidable (IsName cs) :=
  decidable_of_iff (cs.head?.any isNameStart = true ∧ cs.all isNameChar = true ∧
      ∀ k ∈ Keyword.all, leadingWord cs ≠ k.word.toList) <| by
    rw [Option.any_eq_true, List.all_eq_true]
    constructor
    · rintro ⟨⟨c, hc, hstart⟩, hchars, hfree⟩
      obtain ⟨rest, rfl⟩ := List.head?_eq_some_iff.mp hc
      exact ⟨⟨c, rest, rfl, hstart⟩, hchars, fun k => hfree k k.mem_all⟩
    · rintro ⟨⟨c, rest, rfl, hstart⟩, hchars, hfree⟩
      exact ⟨⟨c, rfl, hstart⟩, hchars, fun k _ => hfree k⟩

/-- What may stand between two quotes: a backslash takes the next character along. -/
inductive IsQuotedBody (quote : Char) : List Char → Prop
  | nil : IsQuotedBody quote []
  | plain {c : Char} {cs : List Char} : c ≠ quote → c ≠ '\\' → IsQuotedBody quote cs →
      IsQuotedBody quote (c :: cs)
  | escaped {c : Char} {cs : List Char} : IsQuotedBody quote cs → IsQuotedBody quote ('\\' :: c :: cs)

/-- Nothing, or a point and digits. -/
inductive IsFraction : List Char → Prop
  | absent : IsFraction []
  | digits {ds : List Char} : Decimal.isDigits ds = true → IsFraction ('.' :: ds)

/-- Nothing, or the mark `e`, a sign or none, and digits. -/
inductive IsExponent : List Char → Prop
  | absent : IsExponent []
  | digits {mark : Char} {sign ds : List Char} : mark = 'e' ∨ mark = 'E' →
      sign = [] ∨ sign = ['+'] ∨ sign = ['-'] → Decimal.isDigits ds = true →
      IsExponent (mark :: (sign ++ ds))

/-- The text of a number. -/
inductive IsNumber : List Char → Prop
  | parts {sign whole fraction exponent : List Char} : sign = [] ∨ sign = ['-'] →
      Decimal.isDigits whole = true → IsFraction fraction → IsExponent exponent →
      IsNumber (sign ++ whole ++ fraction ++ exponent)

/-- The words that are values of their own. -/
def valueWords : List (List Char) :=
  ["true".toList, "false".toList, "null".toList]

/-- The text of a literal. -/
inductive IsLiteral : List Char → Prop
  | quoted {quote : Char} {body : List Char} : Text.isQuote quote = true → IsQuotedBody quote body →
      IsLiteral (quote :: (body ++ [quote]))
  | number {cs : List Char} : IsNumber cs → IsLiteral cs
  | word {cs : List Char} : cs.map Char.toLower ∈ valueWords → IsLiteral cs

/-! ### Words -/

/-- A word of a statement. Names, counts and literals have a text of their own; a keyword is the same
    word in any case. -/
inductive Word
  | keyword (k : Keyword)
  | star
  | comma
  | sign (o : Operator)
  | name (cs : List Char)
  | count (cs : List Char)
  | literal (cs : List Char)
  deriving DecidableEq, Repr

namespace Word

/-- The texts that a word can be written as. -/
def SpelledAs : Word → List Char → Prop
  | .keyword k, cs => cs.map Char.toLower = k.word.toList
  | .star, cs => cs = ['*']
  | .comma, cs => cs = [',']
  | .sign o, cs => o.isRange = false ∧ cs = o.symbol.toList
  | .name n, cs => IsName n ∧ cs = n
  | .count ds, cs => Decimal.isDigits ds = true ∧ cs = ds
  | .literal l, cs => IsLiteral l ∧ cs = l

/-- What may stand right behind a word. A name takes every character that it can; keywords, counts and
    literals without quotes are not followed by a letter, a digit or an underscore. -/
def EndsBefore : Word → List Char → Prop
  | .keyword _, rest => startsWord rest = false
  | .name _, rest => ∀ c ∈ rest.head?, isNameChar c = false
  | .count _, rest => startsWord rest = false
  | .literal l, rest => (∃ c ∈ l.head?, Text.isQuote c = true) ∨ startsWord rest = false
  | _, _ => True

end Word

/-! ### Cutting a text -/

/-- Spaces, tabs and line ends only. -/
def Layout (cs : List Char) : Prop :=
  ∀ c ∈ cs, isLayout c = true

/-- A text is a row of words with layout between them and at both ends. -/
inductive Cut : List Char → List Word → Prop
  | done {gap : List Char} : Layout gap → Cut gap []
  | word {gap cs rest : List Char} {w : Word} {ws : List Word} : Layout gap → w.SpelledAs cs →
      w.EndsBefore rest → Cut rest ws → Cut (gap ++ cs ++ rest) (w :: ws)

end EntityQuery.Language
