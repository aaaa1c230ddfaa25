/-! # The front of a text

Scanners take what they look for from the front of a text: blanks, which are not the same characters
in each format, and letters that have to stand there. -/

namespace EntityQuery.Text

/-- A scanner takes something from the front of a text: what it is and what is left. -/
abbrev Scanner (α : Type) := List Char → Option (α × List Char)

/-- The text behind its blanks, which are the given characters. -/
def skip (blanks cs : List Char) : List Char :=
  cs.dropWhile blanks.contains

/-- The text behind the given letters, if it begins with them. -/
def expect (letters cs : List Char) : Option (List Char) :=
  if letters.isPrefixOf cs then some (cs.drop letters.length) else none

theorem skip_cons_of_notMem {blanks cs : List Char} {c : Char} (h : c ∉ blanks) :
    skip blanks (c :: cs) = c :: cs :=
  List.dropWhile_cons_of_neg (by rwa [List.contains_iff_mem])

theorem expect_eq_some_iff {letters cs rest : List Char} :
    expect letters cs = some rest ↔ cs = letters ++ rest := by
  rw [expect]
  constructor
  · intro h
    split at h
    · rename_i hprefix
      obtain ⟨after, rfl⟩ := List.isPrefixOf_iff_prefix.mp hprefix
      rw [List.drop_left] at h
      rw [Option.some.inj h]
    · cases h
  · rintro rfl
    rw [if_pos (List.isPrefixOf_iff_prefix.mpr (List.prefix_append _ _)), List.drop_left]

end EntityQuery.Text
