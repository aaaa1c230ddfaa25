/-! # Whole numbers

Whole numbers in decimal digits, with a minus sign when they are negative. Writing gives no needless
zeros; reading takes any number of them in front, and nothing but digits and one minus sign. -/

namespace EntityQuery.Decimal

/-! ### Writing -/

/-- A whole number in decimal digits. -/
def writeNat (n : Nat) : List Char :=
  Nat.toDigits 10 n

/-- A whole number in decimal digits, with a sign when it is negative. -/
def writeInt (n : Int) : List Char :=
  if n < 0 then '-' :: writeNat n.natAbs else writeNat n.natAbs

/-! ### Reading -/

/-- The value of a run of decimal digits. -/
def digitsValue (ds : List Char) : Nat :=
  Nat.ofDigitChars 10 ds 0

/-- A text that is a run of one or more decimal digits. -/
def isDigits (cs : List Char) : Bool :=
  !cs.isEmpty && cs.all Char.isDigit

/-- A text without a minus sign in front, and whether there was one. -/
def takeMinus : List Char → Bool × List Char
  | '-' :: cs => (true, cs)
  | cs => (false, cs)

/-- A whole number: digits, with a minus sign in front of them or not. -/
def readInteger (cs : List Char) : Option Int :=
  let (negative, digits) := takeMinus cs
  if isDigits digits then
    some (if negative then -(digitsValue digits : Int) else digitsValue digits)
  else none

/-- A whole number of 64 bits without a sign. -/
def readUInt64 (cs : List Char) : Option UInt64 :=
  if isDigits cs && digitsValue cs < UInt64.size then some (UInt64.ofNat (digitsValue cs)) else none

/-- A whole number of 64 bits with a sign. -/
def readInt64 (cs : List Char) : Option Int64 :=
  (readInteger cs).bind fun n =>
    if Int64.minValue.toInt ≤ n ∧ n ≤ Int64.maxValue.toInt then some (Int64.ofInt n) else none

theorem digitsValue_eq (ds : List Char) : digitsValue ds = Nat.ofDigitChars 10 ds 0 := rfl

/-! ### Reading what was written -/

@[simp] theorem ofDigitChars_writeNat (n : Nat) : Nat.ofDigitChars 10 (writeNat n) 0 = n :=
  Nat.ofDigitChars_ten_toDigits

@[simp] theorem digitsValue_writeNat (n : Nat) : digitsValue (writeNat n) = n :=
  ofDigitChars_writeNat n

theorem isDigits_writeNat (n : Nat) : isDigits (writeNat n) = true := by
  simp only [isDigits, writeNat, Bool.and_eq_true, Bool.not_eq_true', List.isEmpty_eq_false_iff,
    List.all_eq_true]
  exact ⟨Nat.toDigits_ne_nil, fun c hc => Nat.isDigit_of_mem_toDigits (by decide) (by decide) hc⟩

end EntityQuery.Decimal
