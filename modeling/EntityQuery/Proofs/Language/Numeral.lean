import EntityQuery.Proofs.Decimal.Rounding
import EntityQuery.Proofs.Language.Denote

/-! # Written numbers read back

A number that is written is a literal for itself: a whole number is its own digits, and a double is
written with a point or an exponent, so it is never taken for a whole number, and its decimal lies in the
interval that rounds back to it. -/

namespace EntityQuery.Language
open Decimal

/-! ### Digits -/

theorem digitsValue_zeros_front (k : Nat) (ds : List Char) :
    digitsValue (List.replicate k '0' ++ ds) = digitsValue ds := by
  rw [digitsValue, Nat.ofDigitChars_append, Nat.ofDigitChars_replicate_zero, Nat.mul_zero]
  rfl

theorem digitsValue_zeros_back (ds : List Char) (k : Nat) :
    digitsValue (ds ++ List.replicate k '0') = digitsValue ds * 10 ^ k := by
  rw [digitsValue, Nat.ofDigitChars_append, Nat.ofDigitChars_replicate_zero, Nat.mul_comm]
  rfl

theorem isDigits_append {ds es : List Char} (hd : isDigits ds = true) (he : ∀ c ∈ es, c.isDigit = true) :
    isDigits (ds ++ es) = true := by
  obtain ⟨hne, hds⟩ := isDigits_iff.mp hd
  refine isDigits_iff.mpr ⟨List.append_ne_nil_of_left_ne_nil hne es, fun c hc => ?_⟩
  rcases List.mem_append.mp hc with hc | hc
  · exact hds c hc
  · exact he c hc

theorem isDigit_of_mem_zeros {k : Nat} {c : Char} (h : c ∈ List.replicate k '0') : c.isDigit = true := by
  rw [List.eq_of_mem_replicate h]
  decide

/-! ### Whole numbers -/

theorem whole_writeInt (n : Int) : Whole (writeInt n) n := by
  rw [writeInt]
  split
  · have h := Whole.negative (isDigits_writeNat n.natAbs)
    rw [ofDigitChars_writeNat] at h
    rwa [show -(n.natAbs : Int) = n by omega] at h
  · have h := Whole.positive (isDigits_writeNat n.natAbs)
    rw [ofDigitChars_writeNat] at h
    rwa [show (n.natAbs : Int) = n by omega] at h

/-! ### Reading decimals -/

section Reading
variable {whole fraction exponent : List Char} {e : Int}

theorem readUnsigned_point (hw : isDigits whole = true) (hf : ∀ c ∈ fraction, c.isDigit = true)
    (hend : ∀ c ∈ exponent.head?, c.isDigit = false) (he : readExponent exponent = some e) :
    readUnsigned (whole ++ '.' :: (fraction ++ exponent)) =
      some (digitsValue (whole ++ fraction), e - fraction.length) := by
  obtain ⟨hne, hds⟩ := isDigits_iff.mp hw
  have hpoint : ∀ c ∈ ('.' :: (fraction ++ exponent)).head?, c.isDigit = false := by
    intro c hc
    obtain rfl := Option.some.inj hc
    decide
  unfold readUnsigned
  simp only [takeWhile_exact hds hpoint, dropWhile_exact hds hpoint, takeWhile_exact hf hend,
    dropWhile_exact hf hend, he, Option.map_some]
  rw [if_neg (by simp [hne])]

theorem readUnsigned_plain (hw : isDigits whole = true) (hend : ∀ c ∈ exponent.head?, c.isDigit = false)
    (hpoint : exponent.head? ≠ some '.') (he : readExponent exponent = some e) :
    readUnsigned (whole ++ exponent) = some (digitsValue whole, e) := by
  obtain ⟨hne, hds⟩ := isDigits_iff.mp hw
  unfold readUnsigned
  simp only [takeWhile_exact hds hend, dropWhile_exact hds hend]
  cases exponent with
  | nil => simp [hne, he]
  | cons c rest =>
    have hc : c ≠ '.' := fun heq => hpoint (congrArg some heq)
    simp [hc, hne, he]

theorem readExponent_digits {mark : Char} {ds : List Char} (hmark : mark = 'e' ∨ mark = 'E')
    (hds : isDigits ds = true) : readExponent (mark :: ds) = some (digitsValue ds : Int) := by
  obtain ⟨hne, hchars⟩ := isDigits_iff.mp hds
  obtain ⟨d, ds, rfl⟩ := List.exists_cons_of_ne_nil hne
  have hd := hchars d List.mem_cons_self
  have hplus : d ≠ '+' := by
    rintro rfl
    exact absurd hd (by decide)
  have hminus : d ≠ '-' := by
    rintro rfl
    exact absurd hd (by decide)
  simp [readExponent, hplus, hminus, hds, hmark]

theorem readExponent_writeInt (n : Int) : readExponent ('e' :: writeInt n) = some n := by
  have hds := isDigits_writeNat n.natAbs
  rw [writeInt]
  split
  · simp only [readExponent, true_or, if_true, hds, digitsValue_writeNat, Option.some_inj]
    omega
  · rw [readExponent_digits (Or.inl rfl) hds, digitsValue_writeNat, Option.some_inj]
    omega

theorem isExponent_writeInt (n : Int) : IsExponent ('e' :: writeInt n) := by
  have hds := isDigits_writeNat n.natAbs
  rw [writeInt]
  split
  · exact .digits (Or.inl rfl) (Or.inr (Or.inr rfl) : ['-'] = [] ∨ _) hds
  · exact .digits (Or.inl rfl) (Or.inl rfl : [] = [] ∨ _) hds

end Reading

/-! ### Writing decimals -/

/-- The text of a number without a sign, with a point or an exponent, that is read as the decimal. -/
structure Writes (text : List Char) (digits : Nat) (exponent : Int) : Prop where
  parts : ∃ whole fraction mark, text = whole ++ fraction ++ mark ∧ isDigits whole = true ∧
    IsFraction fraction ∧ IsExponent mark ∧ (fraction ≠ [] ∨ mark ≠ [])
  read : readUnsigned text = some (digits, exponent)

/-- A point with digits around it, and an exponent or none. -/
theorem writes_point {whole fraction mark : List Char} {e : Int} (hw : isDigits whole = true)
    (hf : isDigits fraction = true) (hm : IsExponent mark) (hend : ∀ c ∈ mark.head?, c.isDigit = false)
    (he : readExponent mark = some e) :
    Writes (whole ++ '.' :: (fraction ++ mark)) (digitsValue (whole ++ fraction)) (e - fraction.length) where
  parts := ⟨whole, '.' :: fraction, mark, by simp, hw, .digits hf, hm, Or.inl (List.cons_ne_nil _ _)⟩
  read := readUnsigned_point hw (isDigits_iff.mp hf).2 hend he

theorem writes_point_only {whole fraction : List Char} (hw : isDigits whole = true)
    (hf : isDigits fraction = true) :
    Writes (whole ++ '.' :: fraction) (digitsValue (whole ++ fraction)) (-fraction.length) := by
  have h := writes_point hw hf .absent (fun _ h => by cases h) (e := 0) rfl
  rwa [List.append_nil, Int.zero_sub] at h

/-- The digits of a whole number with its zeros, a point and a zero. -/
theorem writes_positional_whole {ds : List Char} (hds : isDigits ds = true) {e : Int} (he : 0 ≤ e) :
    Writes (writePositional ds e) (digitsValue ds * 10 ^ (e.toNat + 1)) (-1) := by
  have hvalue : digitsValue (ds ++ List.replicate e.toNat '0' ++ ['0']) =
      digitsValue ds * 10 ^ (e.toNat + 1) := by
    rw [List.append_assoc, ← List.replicate_succ', digitsValue_zeros_back]
  rw [writePositional, if_pos he, ← hvalue]
  exact writes_point_only (isDigits_append hds fun _ => isDigit_of_mem_zeros) (by decide)

/-- The digits of a fraction behind as many zeros as it needs. -/
theorem writes_positional_fraction {ds : List Char} (hds : isDigits ds = true) {e : Int} (he : ¬0 ≤ e) :
    Writes (writePositional ds e) (digitsValue ds) e := by
  have hlength := List.length_pos_iff.mpr (isDigits_iff.mp hds).1
  rw [writePositional, if_neg he]
  dsimp only
  generalize hpadded : List.replicate ((-e).toNat + 1 - ds.length) '0' ++ ds = padded
  have hvalue : digitsValue padded = digitsValue ds := by
    rw [← hpadded, digitsValue_zeros_front]
  have hsize : (-e).toNat + 1 ≤ padded.length := by
    rw [← hpadded, List.length_append, List.length_replicate]
    omega
  have hchars : ∀ c ∈ padded, c.isDigit = true := by
    intro c hc
    rw [← hpadded] at hc
    rcases List.mem_append.mp hc with hc | hc
    · exact isDigit_of_mem_zeros hc
    · exact (isDigits_iff.mp hds).2 c hc
  have hwhole : isDigits (padded.take (padded.length - (-e).toNat)) = true := by
    refine isDigits_iff.mpr ⟨List.ne_nil_of_length_pos ?_, fun c hc => hchars c (List.mem_of_mem_take hc)⟩
    rw [List.length_take]
    omega
  have hfraction : isDigits (padded.drop (padded.length - (-e).toNat)) = true := by
    refine isDigits_iff.mpr ⟨List.ne_nil_of_length_pos ?_, fun c hc => hchars c (List.mem_of_mem_drop hc)⟩
    rw [List.length_drop]
    omega
  have h := writes_point_only hwhole hfraction
  rw [List.take_append_drop, hvalue, List.length_drop] at h
  rwa [show -((padded.length - (padded.length - (-e).toNat) : Nat) : Int) = e by omega] at h

/-- One digit before the point, and the rest of them behind it. -/
theorem writes_exponential {ds : List Char} (hds : isDigits ds = true) (leading : Int) :
    Writes (writeExponential ds leading) (digitsValue ds) (leading - ds.length + 1) := by
  have hend : ∀ c ∈ ('e' :: writeInt leading).head?, c.isDigit = false := by
    intro c hc
    obtain rfl := Option.some.inj hc
    decide
  obtain ⟨hne, hchars⟩ := isDigits_iff.mp hds
  match ds with
  | [] => exact absurd rfl hne
  | [d] =>
    refine ⟨⟨[d], [], 'e' :: writeInt leading, rfl, hds, .absent, isExponent_writeInt leading,
      Or.inr (List.cons_ne_nil _ _)⟩, ?_⟩
    rw [show leading - ([d].length : Int) + 1 = leading by simp]
    exact readUnsigned_plain hds hend (by simp) (readExponent_writeInt leading)
  | d :: r :: rest =>
    have hwhole : isDigits [d] = true := isDigits_iff.mpr ⟨List.cons_ne_nil _ _, fun c hc =>
      hchars c (List.mem_cons.mpr (Or.inl (List.mem_singleton.mp hc)))⟩
    have hfraction : isDigits (r :: rest) = true := isDigits_iff.mpr ⟨List.cons_ne_nil _ _, fun c hc =>
      hchars c (List.mem_cons_of_mem _ hc)⟩
    have h := writes_point hwhole hfraction (isExponent_writeInt leading) hend (readExponent_writeInt leading)
    rw [show leading - ((d :: r :: rest).length : Int) + 1 = leading - (r :: rest).length by simp; omega]
    exact h

/-- A decimal is written so that it is read with the same digits, or with more zeros behind them. -/
theorem writes_decimal (l : Decimal.Layout) (digits : Nat) (e : Int) :
    Writes (l.writeDecimal digits e) digits e ∨
      0 ≤ e ∧ Writes (l.writeDecimal digits e) (digits * 10 ^ (e.toNat + 1)) (-1) := by
  have hds := isDigits_writeNat digits
  have hvalue := digitsValue_writeNat digits
  rw [Decimal.Layout.writeDecimal]
  split
  · by_cases he : 0 ≤ e
    · right
      refine ⟨he, ?_⟩
      have h := writes_positional_whole hds he
      rwa [hvalue] at h
    · left
      have h := writes_positional_fraction hds he
      rwa [hvalue] at h
  · left
    have h := writes_exponential hds (e + (writeNat digits).length - 1)
    rwa [hvalue, show e + ((writeNat digits).length : Int) - 1 - (writeNat digits).length + 1 = e by omega] at h

/-! ### Doubles -/

/-- The decimal that is written for a double is read as its bits. -/
theorem decimalMagnitude_shortest {d : Double} (hc : d.IsCanonical) :
    decimalMagnitude d.shortest.1 d.shortest.2 = d.magnitude ∧
      (0 ≤ d.shortest.2 →
        decimalMagnitude (d.shortest.1 * 10 ^ (d.shortest.2.toNat + 1)) (-1) = d.magnitude) := by
  rcases Nat.eq_zero_or_pos d.mantissa with hzero | hpos
  · have hscale : d.scale = 0 := by
      have := hc.leading
      omega
    rw [Double.shortest, if_pos hzero, Double.magnitude, hzero, hscale]
    exact ⟨rfl, fun _ => rfl⟩
  · have h := reads_shortest hpos
    refine ⟨decimalMagnitude_of_reads h hc hpos, fun he => ?_⟩
    have hshift := h.shift (k := d.shortest.2.toNat + 1) (by omega)
    rw [show d.shortest.2 - ((d.shortest.2.toNat + 1 : Nat) : Int) = -1 by omega] at hshift
    exact decimalMagnitude_of_reads hshift hc hpos

/-- The text of a finite double without its sign. -/
theorem writes_double (l : Decimal.Layout) {d : Double} (hc : d.IsCanonical) :
    ∃ digits e, Writes (l.writeDecimal d.shortest.1 d.shortest.2) digits e ∧
      decimalMagnitude digits e = d.magnitude := by
  obtain ⟨h₁, h₂⟩ := decimalMagnitude_shortest hc
  rcases writes_decimal l d.shortest.1 d.shortest.2 with h | ⟨he, h⟩
  · exact ⟨_, _, h, h₁⟩
  · exact ⟨_, _, h, h₂ he⟩

theorem Writes.isNumber {text : List Char} {digits : Nat} {e : Int} (h : Writes text digits e)
    {sign : List Char} (hs : sign = [] ∨ sign = ['-']) : IsNumber (sign ++ text) := by
  obtain ⟨whole, fraction, mark, rfl, hw, hf, hm, -⟩ := h.parts
  rw [← List.append_assoc, ← List.append_assoc]
  exact .parts hs hw hf hm

theorem mem_of_whole {cs : List Char} {n : Int} (h : Whole cs n) {c : Char} (hc : c ∈ cs) :
    c = '-' ∨ c.isDigit = true := by
  cases h with
  | positive hds => exact Or.inr ((isDigits_iff.mp hds).2 c hc)
  | negative hds =>
    rcases List.mem_cons.mp hc with hc | hc
    · exact Or.inl hc
    · exact Or.inr ((isDigits_iff.mp hds).2 c hc)

/-- A point or an exponent keeps the text from being a whole number. -/
theorem Writes.not_whole {text : List Char} {digits : Nat} {e : Int} (h : Writes text digits e)
    (sign : List Char) (n : Int) : ¬Whole (sign ++ text) n := by
  intro hwhole
  obtain ⟨whole, fraction, mark, rfl, -, hf, hm, hne⟩ := h.parts
  have mem : ∀ c ∈ fraction ++ mark, c = '-' ∨ c.isDigit = true :=
    fun c hc => mem_of_whole hwhole (by simp only [List.mem_append] at hc ⊢; tauto)
  cases hf with
  | digits => exact absurd (mem '.' (by simp)) (by decide)
  | absent =>
    cases hm with
    | absent => simp at hne
    | digits hmark =>
      rcases hmark with rfl | rfl
      · exact absurd (mem 'e' (by simp)) (by decide)
      · exact absurd (mem 'E' (by simp)) (by decide)

theorem Writes.head {text : List Char} {digits : Nat} {e : Int} (h : Writes text digits e) :
    text.head? ≠ some '-' := by
  obtain ⟨whole, fraction, mark, rfl, hw, -⟩ := h.parts
  rw [List.append_assoc]
  exact head?_ne_of_isDigits hw (by decide)

theorem Writes.readDecimal {text : List Char} {digits : Nat} {e : Int} (h : Writes text digits e) (negative : Bool) :
    readDecimal (if negative then '-' :: text else text) = some (nearest negative digits e) := by
  cases negative with
  | true =>
    show (readUnsigned text).map _ = _
    rw [h.read]
    rfl
  | false =>
    rw [Decimal.readDecimal]
    simp only [Bool.false_eq_true, if_false, takeMinus_of_head h.head, h.read, Option.map_some]

/-- A finite double is written as a literal that stands for it. -/
theorem denotes_float {x : Float} (h : x.isFinite = true) :
    IsNumber (Number.layout.write x) ∧ Denotes (Number.layout.write x) (.number (.float x)) := by
  obtain ⟨d, hd, hc, hx⟩ := classify_finite h
  obtain ⟨digits, e, hw, hm⟩ := writes_double Number.layout hc
  have htext : Number.layout.write x =
      (if d.negative then ['-'] else []) ++ Number.layout.writeDecimal d.shortest.1 d.shortest.2 := by
    rw [Decimal.Layout.write, hd]
    show Number.layout.writeDouble d = _
    rw [Decimal.Layout.writeDouble]
    cases d.negative <;> rfl
  have hsign : (if d.negative then ['-'] else []) = [] ∨ (if d.negative then ['-'] else []) = ['-'] := by
    cases d.negative <;> simp
  have hread := hw.readDecimal d.negative
  rw [nearest, hm, hx] at hread
  rw [htext]
  refine ⟨hw.isNumber hsign, .float (hw.isNumber hsign) (fun n hn => absurd hn (hw.not_whole _ n)) ?_ h⟩
  rw [← hread]
  cases d.negative <;> rfl

theorem denotes_integer (n : Int64) : Denotes (writeInt n.toInt) (.number (.integer n)) := by
  have h := Denotes.integer (whole_writeInt n.toInt) ⟨n.minValue_le_toInt, n.toInt_le⟩
  rwa [Int64.ofInt_toInt] at h

end EntityQuery.Language
