import EntityQuery.Decimal.Shortest
import EntityQuery.Proofs.Decimal.Bits

/-! # The shortest digits read back

Every number in the interval of a positive double rounds to it (`decimalMagnitude_of_reads`), and the
search for the fewest digits stops at a number in the interval (`search_holds`). A number below a power
of two but above the lower end of its interval is rounded on the finer grid below, where it carries. -/

namespace EntityQuery.Decimal

/-! ### Rounding a quotient -/

/-- A quotient less than a half away from a whole number rounds to it; at a half away it does so when the
    number is even. -/
theorem roundHalfEven_eq {num den n : Nat} (hden : 0 < den) (hlow : 2 * n * den ≤ 2 * num + den)
    (hhigh : 2 * num ≤ (2 * n + 1) * den)
    (hodd : n % 2 = 1 → 2 * n * den ≠ 2 * num + den ∧ 2 * num ≠ (2 * n + 1) * den) :
    roundHalfEven num den = n := by
  have hdiv := Nat.div_add_mod num den
  have hmod := Nat.mod_lt num hden
  rw [roundHalfEven]
  generalize num / den = k at *
  generalize num % den = r at *
  subst hdiv
  have hk : 2 * k ≤ 2 * n + 1 := by
    refine Nat.le_of_mul_le_mul_right (Nat.le_trans ?_ hhigh) hden
    rw [Nat.mul_add, ← Nat.mul_assoc, Nat.mul_right_comm]
    omega
  have hn : 2 * n < 2 * k + 3 := by
    refine Nat.lt_of_mul_lt_mul_right (Nat.lt_of_le_of_lt hlow ?_) (a := den)
    rw [Nat.add_mul, Nat.mul_right_comm, Nat.mul_assoc 2 den k]
    omega
  obtain rfl | rfl : n = k ∨ n = k + 1 := by omega
  · have h : den * n = n * den := Nat.mul_comm _ _
    rw [Nat.add_mul, Nat.mul_assoc] at hhigh hodd
    split
    · rfl
    · split
      · omega
      · omega
  · have h : (k + 1) * den = den * k + den := by rw [Nat.add_mul, Nat.mul_comm, Nat.one_mul]
    rw [Nat.mul_assoc, h] at hlow hodd
    split
    · omega
    · split
      · rfl
      · omega

/-! ### The scale -/

theorem nearestMagnitude_eq (num den : Nat) : nearestMagnitude num den =
    min infinityMagnitude (((num / den).log2 - 52) * 2 ^ 52 +
      roundHalfEven num (den * 2 ^ ((num / den).log2 - 52))) := rfl

/-- The number `num / den` lies in the interval of the double, in quarters of its units. -/
structure Double.Near (d : Double) (num den : Nat) : Prop where
  low : (4 * d.mantissa - (if d.mantissa = 2 ^ 52 ∧ 0 < d.scale then 1 else 2)) * (2 ^ d.scale * den) ≤ 4 * num
  high : 4 * num ≤ (4 * d.mantissa + 2) * (2 ^ d.scale * den)
  odd : d.mantissa % 2 = 1 →
    (4 * d.mantissa - 2) * (2 ^ d.scale * den) ≠ 4 * num ∧ 4 * num ≠ (4 * d.mantissa + 2) * (2 ^ d.scale * den)

theorem log2_div_eq {num den k : Nat} (hden : 0 < den) (hlow : 2 ^ k * den ≤ num) (hhigh : num < 2 ^ (k + 1) * den) :
    (num / den).log2 = k := by
  have hle : 2 ^ k ≤ num / den := (Nat.le_div_iff_mul_le hden).mpr hlow
  have hlt : num / den < 2 ^ (k + 1) := (Nat.div_lt_iff_lt_mul hden).mpr hhigh
  exact (Nat.log2_eq_iff (by have := Nat.two_pow_pos k; omega)).mpr ⟨hle, hlt⟩

section Near
variable {d : Double} {num den : Nat}

theorem Double.Near.low_two (h : d.Near num den) : (4 * d.mantissa - 2) * (2 ^ d.scale * den) ≤ 4 * num := by
  refine Nat.le_trans (Nat.mul_le_mul_right _ ?_) h.low
  split <;> omega

/-- A number of the interval rounds to the mantissa on the grid of the double. -/
theorem roundHalfEven_of_near (h : d.Near num den) (hpos : 0 < d.mantissa) (hden : 0 < den) :
    roundHalfEven num (den * 2 ^ d.scale) = d.mantissa := by
  have hlow := h.low_two
  have hhigh := h.high
  have hodd := h.odd
  have hunit : 0 < 2 ^ d.scale * den := Nat.mul_pos (Nat.two_pow_pos _) hden
  rw [Nat.mul_comm den]
  generalize 2 ^ d.scale * den = unit at *
  have hlt : unit ≤ d.mantissa * unit := Nat.le_mul_of_pos_left _ hpos
  simp only [Nat.sub_mul, Nat.add_mul, Nat.mul_assoc] at hlow hhigh hodd
  refine roundHalfEven_eq hunit ?_ ?_ ?_ <;> simp only [Nat.add_mul, Nat.mul_assoc] <;> omega

theorem num_lt_of_near (h : d.Near num den) (hc : d.IsCanonical) (hden : 0 < den) :
    num < 2 ^ (52 + d.scale + 1) * den := by
  have hhigh := h.high
  have hunit : 0 < 2 ^ d.scale * den := Nat.mul_pos (Nat.two_pow_pos _) hden
  have hm := Nat.mul_le_mul_right (2 ^ d.scale * den) (Nat.le_of_lt_succ hc.mantissa_lt)
  rw [show 52 + d.scale + 1 = 53 + d.scale by omega, Nat.pow_add, Nat.mul_assoc]
  generalize 2 ^ d.scale * den = unit at *
  rw [Nat.add_mul, Nat.mul_assoc] at hhigh
  omega

/-- Off the carry the quotient has as many bits as the double. -/
theorem log2_of_near (h : d.Near num den) (hc : d.IsCanonical) (hden : 0 < den)
    (hcarry : d.scale = 0 ∨ 2 ^ (52 + d.scale) * den ≤ num) : (num / den).log2 - 52 = d.scale := by
  have hlt := num_lt_of_near h hc hden
  rcases hcarry with hzero | hle
  · rw [hzero] at hlt ⊢
    have hlt' : num / den < 2 ^ 53 := (Nat.div_lt_iff_lt_mul hden).mpr hlt
    rcases Nat.eq_zero_or_pos (num / den) with h0 | h0
    · rw [h0]
      rfl
    · have := (Nat.log2_lt (Nat.pos_iff_ne_zero.mp h0)).mpr hlt'
      omega
  · rw [log2_div_eq hden hle hlt]
    omega

/-- Below a power of two only the least mantissa is left, and the number is so close to it that it rounds
    up on the grid below. -/
theorem nearest_of_carry (h : d.Near num den) (hc : d.IsCanonical) (hden : 0 < den) (hs : d.scale ≠ 0)
    (hlt : num < 2 ^ (52 + d.scale) * den) : nearestMagnitude num den = d.magnitude := by
  have hmagnitude := hc.magnitude_lt
  obtain ⟨t, ht⟩ := Nat.exists_eq_succ_of_ne_zero hs
  have hunit : 0 < 2 ^ t * den := Nat.mul_pos (Nat.two_pow_pos _) hden
  have hgrid : 2 ^ d.scale * den = 2 * (2 ^ t * den) := by
    rw [ht, Nat.pow_succ, Nat.mul_comm _ 2, Nat.mul_assoc]
  have htop : 2 ^ (52 + d.scale) * den = 2 ^ 53 * (2 ^ t * den) := by
    rw [Nat.pow_add, Nat.mul_assoc, hgrid]
    omega
  -- A greater mantissa would leave no number of the interval below the power of two.
  have hm : d.mantissa = 2 ^ 52 := by
    have hlow := h.low_two
    have hleading := hc.leading.resolve_left hs
    rw [hgrid] at hlow
    refine Nat.le_antisymm (Nat.not_lt.mp fun hgt => ?_) hleading
    have hle := Nat.mul_le_mul_right (2 * (2 ^ t * den)) (show 4 * (2 ^ 52 + 1) - 2 ≤ 4 * d.mantissa - 2 by omega)
    omega
  have hlow := h.low
  rw [hgrid, hm, if_pos ⟨rfl, Nat.pos_of_ne_zero hs⟩] at hlow
  rw [htop] at hlt
  have hscale : (num / den).log2 - 52 = t := by
    rw [log2_div_eq (k := 52 + t) hden]
    · omega
    · rw [Nat.pow_add, Nat.mul_assoc]
      omega
    · rw [show 52 + t + 1 = 53 + t by omega, Nat.pow_add, Nat.mul_assoc]
      exact hlt
  -- On the grid below, the nearest mantissa is one more than there is, and carries into the scale.
  have hround : roundHalfEven num (den * 2 ^ t) = 2 ^ 53 := by
    rw [Nat.mul_comm den]
    exact roundHalfEven_eq hunit (by omega) (by omega) (by omega)
  rw [nearestMagnitude_eq, hscale, hround]
  rw [Double.magnitude, hm, ht] at hmagnitude ⊢
  rw [Nat.min_eq_right (by omega)]
  omega

/-- A number of the interval rounds to the double. -/
theorem nearestMagnitude_of_near (h : d.Near num den) (hc : d.IsCanonical) (hpos : 0 < d.mantissa)
    (hden : 0 < den) : nearestMagnitude num den = d.magnitude := by
  have hmagnitude := hc.magnitude_lt
  by_cases hcarry : d.scale = 0 ∨ 2 ^ (52 + d.scale) * den ≤ num
  · rw [nearestMagnitude_eq, log2_of_near h hc hden hcarry, roundHalfEven_of_near h hpos hden]
    exact Nat.min_eq_right (Nat.le_of_lt hmagnitude)
  · rw [not_or, Nat.not_le] at hcarry
    exact nearest_of_carry h hc hden hcarry.1 hcarry.2

end Near

/-! ### Numbers of the interval -/

/-- A quarter of the unit of a double, in the units of an interval. -/
def quarter : Nat := Nat.pow 5 1076

theorem quarter_pos : 0 < quarter :=
  Nat.pow_pos (by decide : 0 < 5)

theorem ten_pow_eq {k : Nat} (hk : k = 1076) : 10 ^ k = 4 * 2 ^ 1074 * quarter := by
  subst hk
  decide +kernel

theorem holds_iff {i : Interval} {n : Nat} :
    i.holds n = true ↔ i.low ≤ n ∧ n ≤ i.high ∧ (i.closed = false → i.low ≠ n ∧ n ≠ i.high) := by
  rw [Interval.holds]
  cases i.closed with
  | true => simp
  | false =>
    simp only [Bool.false_eq_true, if_false, Bool.and_eq_true, decide_eq_true_eq, true_imp_iff]
    omega

section Holds
variable {d : Double} {n num den digits : Nat} {exponent : Int}

theorem interval_low : d.interval.low =
    (4 * d.mantissa - (if d.mantissa = 2 ^ 52 ∧ 0 < d.scale then 1 else 2)) * (2 ^ d.scale * quarter) := rfl

theorem interval_value : d.interval.value = 4 * d.mantissa * (2 ^ d.scale * quarter) := rfl

theorem interval_high : d.interval.high = (4 * d.mantissa + 2) * (2 ^ d.scale * quarter) := rfl

/-- Numbers of the interval are quarters of the units of a double, in powers of ten. -/
theorem near_of_holds (h : d.interval.holds n = true) (hden : 0 < den) (hn : n * den = 4 * num * quarter) :
    d.Near num den := by
  obtain ⟨hlow, hhigh, hopen⟩ := holds_iff.mp h
  rw [interval_low] at hlow hopen
  rw [interval_high] at hhigh hopen
  have hq := quarter_pos
  have units : ∀ k : Nat, k * (2 ^ d.scale * den) * quarter = k * (2 ^ d.scale * quarter) * den := by
    intro k
    ring
  refine ⟨?_, ?_, fun hodd => ?_⟩
  · refine Nat.le_of_mul_le_mul_right (c := quarter) ?_ hq
    rw [units, ← hn]
    exact Nat.mul_le_mul_right den hlow
  · refine Nat.le_of_mul_le_mul_right (c := quarter) ?_ hq
    rw [units, ← hn]
    exact Nat.mul_le_mul_right den hhigh
  · rw [if_neg (by omega)] at hopen
    obtain ⟨hl, hh⟩ := hopen (decide_eq_false (by omega))
    constructor
    · intro heq
      refine hl (Nat.eq_of_mul_eq_mul_right hden ?_)
      rw [hn, ← heq, units]
    · intro heq
      refine hh (Nat.eq_of_mul_eq_mul_right hden ?_)
      rw [hn, heq, units]

theorem low_of_holds (h : d.interval.holds n = true) (hpos : 0 < d.mantissa) : 2 * quarter ≤ n := by
  refine Nat.le_trans ?_ (holds_iff.mp h).1
  rw [interval_low]
  refine Nat.mul_le_mul ?_ (Nat.le_mul_of_pos_left _ (Nat.two_pow_pos _))
  split <;> omega

theorem high_of_holds (h : d.interval.holds n = true) (hc : d.IsCanonical) {top : Nat} (htop : 2 ^ d.scale ≤ top) :
    n ≤ 2 ^ 55 * (top * quarter) := by
  have hm := hc.mantissa_lt
  refine Nat.le_trans (holds_iff.mp h).2.1 ?_
  rw [interval_high]
  exact Nat.mul_le_mul (by omega) (Nat.mul_le_mul_right _ htop)

/-- The decimal is a number of the interval. -/
structure Double.Reads (d : Double) (digits : Nat) (exponent : Int) : Prop where
  least : -1076 ≤ exponent
  holds : d.interval.holds (digits * 10 ^ (exponent + 1076).toNat) = true

/-- Zeros behind the digits do not change the decimal. -/
theorem Double.Reads.shift (h : d.Reads digits exponent) {k : Nat} (hk : -1076 ≤ exponent - k) :
    d.Reads (digits * 10 ^ k) (exponent - k) where
  least := hk
  holds := by
    have heq : k + (exponent - k + 1076).toNat = (exponent + 1076).toNat := by omega
    rw [Nat.mul_assoc, ← Nat.pow_add, heq]
    exact h.holds

/-- The exponents are variables here; with great numbers in their place the powers would be computed. -/
theorem pow_le {base a b : Nat} (hbase : 0 < base) (h : a ≤ b) : base ^ a ≤ base ^ b :=
  Nat.pow_le_pow_right hbase h

theorem top_lt_ten_pow : 2 ^ 55 * (2 ^ 2045 * quarter) < 10 ^ 1387 := by decide +kernel

theorem ten_pow_lt_bottom : 10 ^ 745 < 2 * quarter := by decide +kernel

theorem exponent_le_of_reads (h : d.Reads digits exponent) (hc : d.IsCanonical) (hd : 0 < digits) :
    exponent ≤ 310 := by
  refine Int.not_lt.mp fun hgt => ?_
  have hexp : 1387 ≤ (exponent + 1076).toNat := by omega
  refine Nat.lt_irrefl (2 ^ 55 * (2 ^ 2045 * quarter)) ?_
  calc 2 ^ 55 * (2 ^ 2045 * quarter)
      < 10 ^ 1387 := top_lt_ten_pow
    _ ≤ 10 ^ (exponent + 1076).toNat := pow_le (by decide) hexp
    _ ≤ digits * 10 ^ (exponent + 1076).toNat := Nat.le_mul_of_pos_left _ hd
    _ ≤ 2 ^ 55 * (2 ^ 2045 * quarter) := high_of_holds h.holds hc (pow_le (by decide) hc.scale_le)

theorem guard_of_reads (h : d.Reads digits exponent) (hpos : 0 < d.mantissa) :
    -330 ≤ exponent + digits.log2 + 1 := by
  refine Int.not_lt.mp fun hlt => ?_
  have hleast := h.least
  have hexp : digits.log2 + 1 + (exponent + 1076).toNat ≤ 745 := by omega
  have hdigits : digits < 10 ^ (digits.log2 + 1) :=
    Nat.lt_of_lt_of_le Nat.lt_log2_self (Nat.pow_le_pow_left (by decide) _)
  refine Nat.lt_irrefl (2 * quarter) ?_
  calc 2 * quarter
      ≤ digits * 10 ^ (exponent + 1076).toNat := low_of_holds h.holds hpos
    _ ≤ 10 ^ (digits.log2 + 1) * 10 ^ (exponent + 1076).toNat := Nat.mul_le_mul_right _ (Nat.le_of_lt hdigits)
    _ = 10 ^ (digits.log2 + 1 + (exponent + 1076).toNat) := (Nat.pow_add _ _ _).symm
    _ ≤ 10 ^ 745 := pow_le (by decide) hexp
    _ < 2 * quarter := ten_pow_lt_bottom

/-- A decimal of the interval is read as the double. -/
theorem decimalMagnitude_of_reads (h : d.Reads digits exponent) (hc : d.IsCanonical) (hpos : 0 < d.mantissa) :
    decimalMagnitude digits exponent = d.magnitude := by
  have hd : digits ≠ 0 := by
    rintro rfl
    have := low_of_holds h.holds hpos
    have := quarter_pos
    omega
  have hle := exponent_le_of_reads h hc (Nat.pos_of_ne_zero hd)
  have hge := guard_of_reads h hpos
  rw [decimalMagnitude, if_neg hd, if_neg (by omega), if_neg (by omega)]
  have hleast := h.least
  -- The great exponent stays a variable, so that no step computes the power.
  obtain ⟨k, hk⟩ : ∃ k, k = 1076 := ⟨_, rfl⟩
  simp only [Nat.pow_eq]
  split
  · have hexp : (exponent + 1076).toNat = exponent.toNat + k := by omega
    refine nearestMagnitude_of_near (near_of_holds h.holds Nat.one_pos ?_) hc hpos Nat.one_pos
    rw [hexp, Nat.pow_add, ten_pow_eq hk]
    ring
  · have hexp : (exponent + 1076).toNat + (-exponent).toNat = k := by omega
    have hden : 0 < 10 ^ (-exponent).toNat := Nat.pow_pos (by decide)
    refine nearestMagnitude_of_near (near_of_holds h.holds hden ?_) hc hpos hden
    rw [Nat.mul_assoc, ← Nat.pow_add, hexp, ten_pow_eq hk]
    ring

end Holds

/-! ### The search -/

theorem holds_of_onGrid {i : Interval} {step digits : Nat} (h : i.onGrid step = some digits) :
    i.holds (digits * 10 ^ step) = true := by
  rw [Interval.onGrid] at h
  split at h
  · obtain rfl := Option.some.inj h
    split <;> assumption
  · obtain rfl := Option.some.inj h
    assumption
  · obtain rfl := Option.some.inj h
    assumption
  · cases h

/-- The search stops at a number of the interval. -/
theorem search_holds {i : Interval} (hi : i.holds i.value = true) (step : Nat) :
    -1076 ≤ (i.search step).2 ∧
      i.holds ((i.search step).1 * 10 ^ ((i.search step).2 + 1076).toNat) = true := by
  induction step with
  | zero =>
    rw [Interval.search]
    refine ⟨Int.le_refl _, ?_⟩
    rw [show ((-1076 : Int) + 1076).toNat = 0 from rfl, Nat.pow_zero, Nat.mul_one]
    exact hi
  | succ step ih =>
    rw [Interval.search]
    split
    · rename_i digits hgrid
      refine ⟨by omega, ?_⟩
      rw [show (((step + 1 : Nat) : Int) - 1076 + 1076).toNat = step + 1 by omega]
      exact holds_of_onGrid hgrid
    · exact ih

theorem holds_value {d : Double} (hpos : 0 < d.mantissa) : d.interval.holds d.interval.value = true := by
  rw [holds_iff, interval_low, interval_value, interval_high]
  have hunit : 0 < 2 ^ d.scale * quarter := Nat.mul_pos (Nat.two_pow_pos _) quarter_pos
  generalize 2 ^ d.scale * quarter = unit at *
  have hlow : (4 * d.mantissa - if d.mantissa = 2 ^ 52 ∧ 0 < d.scale then 1 else 2) * unit <
      4 * d.mantissa * unit := by
    refine Nat.mul_lt_mul_of_pos_right ?_ hunit
    split <;> omega
  have hhigh : 4 * d.mantissa * unit < (4 * d.mantissa + 2) * unit :=
    Nat.mul_lt_mul_of_pos_right (by omega) hunit
  exact ⟨Nat.le_of_lt hlow, Nat.le_of_lt hhigh, fun _ => ⟨Nat.ne_of_lt hlow, Nat.ne_of_lt hhigh⟩⟩

/-- The fewest digits of a positive double are a number of its interval. -/
theorem reads_shortest {d : Double} (hpos : 0 < d.mantissa) : d.Reads d.shortest.1 d.shortest.2 := by
  obtain ⟨hleast, hholds⟩ := search_holds (holds_value hpos) (1076 + 310)
  rw [Double.shortest, if_neg (Nat.pos_iff_ne_zero.mp hpos)]
  exact ⟨hleast, hholds⟩

end EntityQuery.Decimal
