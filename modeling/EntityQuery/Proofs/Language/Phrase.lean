import EntityQuery.Decimal.Numeral
import EntityQuery.Proofs.Language.Word
import EntityQuery.Query

/-! # Statements and what they mean

A statement as a tree of its words: which words it is written with (`Statement.words`), and which query
it stands for (`Statement.Means`). A literal stands for a value by its form (`Denotes`); of several
clauses of one kind the last one counts, and the word `NOT` changes nothing. -/

namespace EntityQuery.Language

/-! ### Literals -/

/-- A whole number in decimal digits, with a minus sign or without. -/
inductive Whole : List Char → Int → Prop
  | positive {ds : List Char} : Decimal.isDigits ds = true → Whole ds (Nat.ofDigitChars 10 ds 0)
  | negative {ds : List Char} : Decimal.isDigits ds = true → Whole ('-' :: ds) (-(Nat.ofDigitChars 10 ds 0 : Int))

/-- The whole numbers of 64 bits with a sign. -/
def FitsInt64 (n : Int) : Prop :=
  Int64.minValue.toInt ≤ n ∧ n ≤ Int64.maxValue.toInt

/-- The text that is written between two quotes: a backslash is left out before a quote of the same kind
    and before another backslash, and stands for itself before any other character. -/
inductive Unescaped (quote : Char) : List Char → List Char → Prop
  | nil : Unescaped quote [] []
  | plain {c : Char} {cs text : List Char} : c ≠ quote → c ≠ '\\' → Unescaped quote cs text →
      Unescaped quote (c :: cs) (c :: text)
  | dropped {c : Char} {cs text : List Char} : c = '\\' ∨ c = quote → Unescaped quote cs text →
      Unescaped quote ('\\' :: c :: cs) (c :: text)
  | kept {c : Char} {cs text : List Char} : ¬(c = '\\' ∨ c = quote) → Unescaped quote cs text →
      Unescaped quote ('\\' :: c :: cs) ('\\' :: c :: text)

/-- The value that a literal stands for. A number is whole when it is written so and fits 64 bits, and
    else a finite double. -/
inductive Denotes : List Char → Value → Prop
  | quoted {quote : Char} {body text : List Char} : Text.isQuote quote = true → Unescaped quote body text →
      Denotes (quote :: (body ++ [quote])) (.string (String.ofList text))
  | integer {cs : List Char} {n : Int} : Whole cs n → FitsInt64 n →
      Denotes cs (.number (.integer (Int64.ofInt n)))
  | float {cs : List Char} {x : Float} : IsNumber cs → (∀ n, Whole cs n → ¬FitsInt64 n) →
      Decimal.readDecimal cs = some x → x.isFinite = true → Denotes cs (.number (.float x))
  | yes {cs : List Char} : cs.map Char.toLower = "true".toList → Denotes cs (.boolean true)
  | no {cs : List Char} : cs.map Char.toLower = "false".toList → Denotes cs (.boolean false)
  | null {cs : List Char} : cs.map Char.toLower = "null".toList → Denotes cs .null

/-! ### Trees -/

/-- A star, or the names of fields. -/
inductive Fields
  | star
  | named (first : List Char) (more : List (List Char))

/-- What a row is tested for. -/
inductive Test
  | compare (field : List Char) (operator : Operator) (operand : List Char)
  | range (field low high : List Char)

/-- A test, with the word `NOT` before it or without. -/
structure Filter where
  negated : Bool
  test : Test

/-- A field to sort by, with its direction if one is written. -/
structure SortItem where
  field : List Char
  direction : Option Direction

/-- A clause behind the condition. -/
inductive Clause
  | order (first : SortItem) (more : List SortItem)
  | skip (digits : List Char)
  | limit (digits : List Char)

structure Select where
  fields : Fields
  entity : List Char
  filter : Option Filter
  tail : List Clause

structure Delete where
  entity : List Char
  filter : Option Filter

inductive Statement
  | select (s : Select)
  | delete (s : Delete)

/-! ### The words of a tree -/

/-- One row of words or more, with commas between them. -/
def listed (first : List Word) (more : List (List Word)) : List Word :=
  first ++ more.flatMap (.comma :: ·)

def Fields.words : Fields → List Word
  | .star => [.star]
  | .named first more => listed [.name first] (more.map fun n => [.name n])

/-- The keyword of a direction. -/
def directionWord : Direction → Grammar.Keyword
  | .ascending => .asc
  | .descending => .desc

def SortItem.words (i : SortItem) : List Word :=
  .name i.field :: (i.direction.map fun d => Word.keyword (directionWord d)).toList

def Clause.words : Clause → List Word
  | .order first more => .keyword .order :: .keyword .byWord :: listed first.words (more.map SortItem.words)
  | .skip digits => [.keyword .skip, .count digits]
  | .limit digits => [.keyword .limit, .count digits]

def Test.words : Test → List Word
  | .compare field operator operand => [.name field, .sign operator, .literal operand]
  | .range field low high => [.name field, .keyword .between, .literal low, .keyword .and, .literal high]

def Filter.words (f : Filter) : List Word :=
  (if f.negated then [.keyword .not] else []) ++ f.test.words

/-- The clause of the condition, if there is one. -/
def filterWords (filter : Option Filter) : List Word :=
  filter.elim [] fun f => .keyword .whereWord :: f.words

def Select.words (s : Select) : List Word :=
  .keyword .select :: (s.fields.words ++ .keyword .fromWord :: .name s.entity ::
    (filterWords s.filter ++ s.tail.flatMap Clause.words))

def Delete.words (s : Delete) : List Word :=
  .keyword .delete :: .keyword .fromWord :: .name s.entity :: filterWords s.filter

def Statement.words : Statement → List Word
  | .select s => s.words
  | .delete s => s.words

/-! ### The meaning of a tree -/

/-- The names of the fields, none for a star. -/
def Fields.names : Fields → List (List Char)
  | .star => []
  | .named first more => first :: more

/-- A sort key ascends when no direction is written. -/
def SortItem.key (i : SortItem) : SortKey :=
  { field := String.ofList i.field, direction := i.direction.getD .ascending }

def Clause.sorts? : Clause → Option (List SortKey)
  | .order first more => some ((first :: more).map SortItem.key)
  | _ => none

def Clause.skip? : Clause → Option Nat
  | .skip digits => some (Nat.ofDigitChars 10 digits 0)
  | _ => none

def Clause.limit? : Clause → Option Nat
  | .limit digits => some (Nat.ofDigitChars 10 digits 0)
  | _ => none

/-- The count of a clause that has one. -/
def Clause.count? (b : Clause) : Option Nat :=
  b.skip?.or b.limit?

/-- What the last clause of a kind says, or else `default`. -/
def lastOf {α : Type} (read : Clause → Option α) (tail : List Clause) (default : α) : α :=
  (tail.filterMap read).getLast?.getD default

/-- The condition that a test stands for. -/
def Test.Means : Test → Condition → Prop
  | .compare field operator operand, c =>
    c.field = String.ofList field ∧ c.operator = operator ∧ Denotes operand c.operand
  | .range field low high, c =>
    c.field = String.ofList field ∧ c.operator = .between ∧
      ∃ l h, Denotes low l ∧ Denotes high h ∧ c.operand = .pair l h

/-- No condition for no test, and otherwise the one that the test stands for. -/
def FilterMeans : Option Filter → Option Condition → Prop
  | none, c => c = none
  | some f, c => ∃ d, c = some d ∧ f.test.Means d

/-- The query that a statement stands for. Every count has to fit 64 bits, also one that a later clause
    replaces. -/
structure Select.Means (s : Select) (q : SelectQuery) : Prop where
  entity : q.entity = String.ofList s.entity
  fields : q.fields = s.fields.names.map String.ofList
  condition : FilterMeans s.filter q.condition
  counts : ∀ n ∈ s.tail.filterMap Clause.count?, n < UInt64.size
  sorts : q.sorts = lastOf Clause.sorts? s.tail []
  skip : q.skip.toNat = lastOf Clause.skip? s.tail 0
  limit : q.limit.toNat = lastOf Clause.limit? s.tail 0

structure Delete.Means (s : Delete) (q : DeleteQuery) : Prop where
  entity : q.entity = String.ofList s.entity
  condition : FilterMeans s.filter q.condition

def Statement.Means : Statement → Query → Prop
  | .select s, .select q => s.Means q
  | .delete s, .delete q => s.Means q
  | _, _ => False

end EntityQuery.Language
