/-! # Places in a text

Places are byte offsets into the UTF-8 form of a text. A place may lie past the end or inside a
character; what is shown for it then belongs to the greatest character boundary at or before it
(`splitAtByte`): the line and the column, both counted from one, and a fragment of what follows. -/

namespace EntityQuery.Text

/-- The number of bytes in the UTF-8 form of a text. -/
def byteLength (cs : List Char) : Nat :=
  cs.foldr (fun c n => c.utf8Size + n) 0

@[simp] theorem byteLength_nil : byteLength [] = 0 := rfl

@[simp] theorem byteLength_cons (c : Char) (cs : List Char) :
    byteLength (c :: cs) = c.utf8Size + byteLength cs := rfl

@[simp] theorem byteLength_append (cs ds : List Char) :
    byteLength (cs ++ ds) = byteLength cs + byteLength ds := by
  induction cs with
  | nil => rw [List.nil_append, byteLength_nil, Nat.zero_add]
  | cons c cs ih => rw [List.cons_append, byteLength_cons, byteLength_cons, ih, Nat.add_assoc]

theorem byteLength_pos {cs : List Char} (h : cs ≠ []) : 0 < byteLength cs := by
  cases cs with
  | nil => exact absurd rfl h
  | cons c cs => exact Nat.add_pos_left c.utf8Size_pos _

/-- The longest beginning of a text that takes at most `limit` bytes, and the rest. -/
def splitAtByte (limit : Nat) : List Char → List Char × List Char
  | [] => ([], [])
  | c :: cs =>
    if c.utf8Size ≤ limit then
      let (before, after) := splitAtByte (limit - c.utf8Size) cs
      (c :: before, after)
    else ([], c :: cs)

theorem splitAtByte_append (limit : Nat) (cs : List Char) :
    (splitAtByte limit cs).1 ++ (splitAtByte limit cs).2 = cs := by
  induction cs generalizing limit with
  | nil => rfl
  | cons c cs ih =>
    rw [splitAtByte]
    split
    · simp [ih]
    · rfl

theorem byteLength_splitAtByte_le (limit : Nat) (cs : List Char) :
    byteLength (splitAtByte limit cs).1 ≤ limit := by
  induction cs generalizing limit with
  | nil => simp [splitAtByte]
  | cons c cs ih =>
    rw [splitAtByte]
    split
    · have := ih (limit - c.utf8Size)
      simp only [byteLength_cons]
      omega
    · simp

/-- The number of code points that a fragment holds at most. -/
def fragmentLength : Nat := 32

/-- What is shown for a place in a text. -/
structure Location where
  /-- The byte offset, at most the length of the text. -/
  position : Nat
  line : Nat
  column : Nat
  /-- The first code points from the place on. -/
  fragment : String
  deriving DecidableEq, Repr, Inhabited

/-- The place `position` bytes into `text`. -/
def locate (text : String) (position : Nat) : Location :=
  let position := min position (byteLength text.toList)
  let (before, after) := splitAtByte position text.toList
  { position
    line := before.count '\n' + 1
    column := (before.reverse.takeWhile (· != '\n')).length + 1
    fragment := String.ofList (after.take fragmentLength) }

end EntityQuery.Text
