/-! # Quoted text

A quoted text stands between two equal quotes, single or double. Inside, a backslash before the
quote or before another backslash is dropped; before any other character, and at the end, it stands
for itself. Writing puts a backslash before each of the two (`unescape_escape`), so every text has a
quoted form in either quote. -/

namespace EntityQuery.Text

/-- The two characters that can enclose a quoted text. -/
def isQuote (c : Char) : Bool :=
  c == '\'' || c == '"'

/-- Puts a backslash before each backslash and each quote. -/
def escape (quote : Char) : List Char → List Char
  | [] => []
  | c :: cs => if c = '\\' ∨ c = quote then '\\' :: c :: escape quote cs else c :: escape quote cs

/-- Drops the backslash before each backslash and each quote. -/
def unescape (quote : Char) : List Char → List Char
  | [] => []
  | '\\' :: c :: cs =>
    if c = '\\' ∨ c = quote then c :: unescape quote cs else '\\' :: c :: unescape quote cs
  | c :: cs => c :: unescape quote cs

/-- A text between quotes. -/
def enclose (quote : Char) (cs : List Char) : List Char :=
  quote :: escape quote cs ++ [quote]

/-- The text between two equal quotes. Only the first and the last character are looked at: a quote
further in need not have a backslash. -/
def unquote : List Char → Option (List Char)
  | [] => none
  | quote :: rest =>
    if isQuote quote && rest.getLast? == some quote then some (unescape quote rest.dropLast)
    else none

theorem unescape_cons_of_ne {quote c : Char} (h : c ≠ '\\') (cs : List Char) :
    unescape quote (c :: cs) = c :: unescape quote cs := by
  cases cs with
  | nil => simp [unescape]
  | cons d ds =>
    rw [unescape.eq_def]
    split
    · rename_i heq; simp at heq
    · rename_i heq; exact absurd (List.cons.inj heq).1 h
    · rename_i heq; obtain ⟨rfl, rfl⟩ := List.cons.inj heq; rfl

theorem unescape_escape (quote : Char) (cs : List Char) :
    unescape quote (escape quote cs) = cs := by
  induction cs with
  | nil => rfl
  | cons c cs ih =>
    by_cases h : c = '\\' ∨ c = quote
    · simp [escape, unescape, h, ih]
    · rw [escape, if_neg h, unescape_cons_of_ne (fun hc => h (.inl hc)), ih]

end EntityQuery.Text
