import EntityQuery.Proofs.Decimal.Rounding

/-! # Numbers out of range

A decimal is read as a finite double or as an infinite one, and never as a pattern that is no number
(`isFinite_nearest_iff`). It is infinite from halfway between the greatest double and the next power of
two on (`decimalMagnitude_eq_infinity_iff`); the half itself rounds up, because the greatest double is
odd. -/

namespace EntityQuery.Decimal
open Float.Model
open Float.Model.UnpackedFloat (unpackExponent unpackMantissa)

/-! ### Infinite patterns -/

section Pattern
variable {b : BitVec Format.binary64.numBits}

theorem toNat_unpackMantissa : (unpackMantissa b).toNat = b.toNat % 2 ^ 52 := by
  rw [unpackMantissa, BitVec.toNat_cast, BitVec.extractLsb_toNat, Nat.shiftRight_zero]
  rfl

theorem unpackMantissa_eq_zero_iff : unpackMantissa b = 0#_ ↔ b.toNat % 2 ^ 52 = 0 := by
  rw [← BitVec.toNat_inj, toNat_unpackMantissa]
  rfl

theorem isInf_unpack :
    (UnpackedFloat.unpack Format.binary64 b).isInf = true ↔
      unpackExponent b = -1#_ ∧ unpackMantissa b = 0#_ := by
  rw [UnpackedFloat.unpack.eq_1]
  split
  · split <;> simp_all [UnpackedFloat.isInf]
  · split
    · split <;> simp_all [UnpackedFloat.isInf]
    · simp_all [UnpackedFloat.isInf]

theorem infinite_iff :
    unpackExponent b = -1#_ ∧ unpackMantissa b = 0#_ ↔ b.toNat % 2 ^ 63 = infinityMagnitude := by
  have hb : b.toNat < 2 ^ 64 := b.isLt
  rw [← not_iff_not, not_and_or, unpackMantissa_eq_zero_iff, ← Ne, unpackExponent_ne_iff,
    infinityMagnitude_eq]
  omega

/-- Up to infinity every pattern stands for itself. -/
theorem valid_of_le (h : b.toNat % 2 ^ 63 ≤ infinityMagnitude) : Format.binary64.Valid b where
  eq_packedNaN := by
    intro hexp hmantissa
    have hlt : ¬b.toNat % 2 ^ 63 < infinityMagnitude := fun hlt => unpackExponent_ne_iff.mpr hlt hexp
    exact absurd (infinite_iff.mpr (by omega)).2 hmantissa

end Pattern

/-- A double is infinite when its bits without the sign are those of infinity. -/
theorem isInf_iff {x : Float} : x.isInf = true ↔ x.toBits.toNat % 2 ^ 63 = infinityMagnitude :=
  isInf_unpack.trans infinite_iff

theorem toBits_ofBits {n : UInt64} (h : n.toNat % 2 ^ 63 ≤ infinityMagnitude) : (Float.ofBits n).toBits = n := by
  let x : Float := .ofModel { toBits := n, valid := valid_of_le (b := n.toBitVec) h }
  show (Float.ofBits x.toBits).toBits = x.toBits
  rw [Float.ofBits_toBits]

/-! ### Reading gives a number -/

theorem toNat_toBits_ofMagnitude (negative : Bool) {m : Nat} (h : m ≤ infinityMagnitude) :
    (ofMagnitude negative m).toBits.toNat % 2 ^ 63 = m := by
  rw [infinityMagnitude_eq] at h
  have hn : (UInt64.ofNat (if negative then 2 ^ 63 + m else m)).toNat % 2 ^ 63 = m := by
    rw [UInt64.toNat_ofNat']
    split <;> omega
  rw [ofMagnitude_eq, toBits_ofBits]
  · exact hn
  · rw [hn, infinityMagnitude_eq]
    exact h

theorem decimalMagnitude_le (digits : Nat) (e : Int) : decimalMagnitude digits e ≤ infinityMagnitude := by
  rw [decimalMagnitude]
  split
  · exact Nat.zero_le _
  split
  · exact Nat.le_refl _
  split
  · exact Nat.zero_le _
  split <;> exact Nat.min_le_left _ _

section Nearest
variable (negative : Bool) (digits : Nat) (e : Int)

theorem isInf_nearest_iff :
    (nearest negative digits e).isInf = true ↔ decimalMagnitude digits e = infinityMagnitude := by
  rw [isInf_iff, nearest, toNat_toBits_ofMagnitude _ (decimalMagnitude_le digits e)]

/-- What is read is finite unless it is infinite: it is always a number. -/
theorem isFinite_nearest_iff :
    (nearest negative digits e).isFinite = true ↔ ¬(nearest negative digits e).isInf = true := by
  have hle := decimalMagnitude_le digits e
  rw [isInf_nearest_iff, isFinite_iff, nearest, toNat_toBits_ofMagnitude _ hle]
  omega

end Nearest

/-! ### Where rounding reaches -/

section Rounding
variable {num den n : Nat}

theorem roundHalfEven_le (hden : 0 < den) (h : num ≤ n * den) : roundHalfEven num den ≤ n := by
  have hdiv := Nat.div_add_mod num den
  have hmod := Nat.mod_lt num hden
  have hle : num / den ≤ n := Nat.div_le_of_le_mul (Nat.mul_comm n den ▸ h)
  rcases Nat.lt_or_eq_of_le hle with hlt | heq
  · rw [roundHalfEven]
    split
    · omega
    · split <;> omega
  · -- At the whole number itself nothing is left to round.
    have hrest : num % den = 0 := by
      rw [heq, Nat.mul_comm] at hdiv
      omega
    rw [roundHalfEven, hrest, heq, if_pos (by omega)]

theorem le_roundHalfEven (hden : 0 < den) (h : n * den ≤ num) : n ≤ roundHalfEven num den := by
  have hle : n ≤ num / den := (Nat.le_div_iff_mul_le hden).mpr h
  rw [roundHalfEven]
  split
  · exact hle
  · split <;> omega

/-- An even number is reached from half a unit below it on. -/
theorem even_le_roundHalfEven_iff (hden : 0 < den) (heven : n % 2 = 0) :
    n ≤ roundHalfEven num den ↔ (2 * n - 1) * den ≤ 2 * num := by
  have hdiv := Nat.div_add_mod num den
  have hmod := Nat.mod_lt num hden
  rw [Nat.sub_mul, Nat.mul_assoc, Nat.one_mul]
  by_cases hle : n ≤ num / den
  · have h := (Nat.le_div_iff_mul_le hden).mp hle
    exact iff_of_true (le_roundHalfEven hden h) (by omega)
  · rw [roundHalfEven]
    generalize num / den = k at *
    generalize num % den = r at *
    obtain hk | hk : n = k + 1 ∨ k + 2 ≤ n := by omega
    · have h : n * den = den * k + den := by rw [hk, Nat.add_mul, Nat.mul_comm, Nat.one_mul]
      split
      · omega
      · split <;> omega
    · have h : den * k + 2 * den ≤ n * den := by
        rw [Nat.mul_comm den k, ← Nat.add_mul]
        exact Nat.mul_le_mul_right den hk
      split
      · omega
      · split <;> omega

/-- A quotient rounds to infinity from half a unit above the greatest double on. -/
theorem nearestMagnitude_eq_infinity_iff (hden : 0 < den) {top : Nat} (htop : top = 2044) :
    nearestMagnitude num den = infinityMagnitude ↔ (2 ^ 54 - 1) * (2 ^ top * den) ≤ num := by
  have hlog : num / den < 2 ^ ((num / den).log2 + 1) := Nat.lt_log2_self
  rw [nearestMagnitude_eq, min_eq_left_iff, infinityMagnitude_eq]
  generalize hs : (num / den).log2 - 52 = s
  have hunit : 0 < den * 2 ^ s := Nat.mul_pos hden (Nat.two_pow_pos _)
  have hhigh : num < 2 ^ 53 * (den * 2 ^ s) := by
    have h := (Nat.div_lt_iff_lt_mul hden).mp hlog
    refine Nat.lt_of_lt_of_le h ?_
    rw [Nat.mul_comm den, ← Nat.mul_assoc, ← Nat.pow_add]
    exact Nat.mul_le_mul_right den (pow_le (by decide) (by omega))
  have hround := roundHalfEven_le hunit (Nat.le_of_lt hhigh)
  rcases Nat.lt_trichotomy s (top + 1) with hlt | rfl | hgt
  · refine iff_of_false (by omega) (Nat.not_le.mpr (Nat.lt_of_lt_of_le hhigh ?_))
    rw [Nat.mul_comm den]
    exact Nat.mul_le_mul (by decide) (Nat.mul_le_mul_right den (pow_le (by decide) (by omega)))
  · have hiff := @even_le_roundHalfEven_iff num _ _ hunit (show 2 ^ 53 % 2 = 0 by decide)
    rw [show den * 2 ^ (top + 1) = 2 * (2 ^ top * den) by ring] at hiff ⊢
    rw [show (2047 * 2 ^ 52 ≤ (top + 1) * 2 ^ 52 + roundHalfEven num (2 * (2 ^ top * den))) ↔
      2 ^ 53 ≤ roundHalfEven num (2 * (2 ^ top * den)) by omega, hiff]
    omega
  · have hlow : 2 ^ 52 * (den * 2 ^ s) ≤ num := by
      have hne : num / den ≠ 0 := by
        intro h
        rw [h, Nat.log2_zero] at hs
        omega
      have h := (Nat.le_div_iff_mul_le hden).mp (Nat.log2_self_le hne)
      refine Nat.le_trans (Nat.le_of_eq ?_) h
      rw [Nat.mul_comm den, ← Nat.mul_assoc, ← Nat.pow_add]
      congr 2
      omega
    have hge := le_roundHalfEven hunit hlow
    refine iff_of_true (by omega) (Nat.le_trans ?_ hlow)
    calc (2 ^ 54 - 1) * (2 ^ top * den)
        ≤ 2 ^ 52 * (den * 2 ^ (top + 2)) := by
          rw [show den * 2 ^ (top + 2) = 4 * (2 ^ top * den) by ring]
          omega
      _ ≤ 2 ^ 52 * (den * 2 ^ s) :=
          Nat.mul_le_mul_left _ (Nat.mul_le_mul_left _ (pow_le (by decide) hgt))

end Rounding

/-! ### The bound -/

/-- Halfway between the greatest double and the next power of two. -/
def overflow : ℚ := 2 ^ 1024 - 2 ^ 970

theorem overflow_eq : overflow = (2 ^ 54 - 1) * 2 ^ 970 := by
  rw [overflow, sub_mul, one_mul, ← pow_add]

theorem one_le_overflow : 1 ≤ overflow := by
  rw [overflow_eq]
  exact one_le_mul_of_one_le_of_one_le (by norm_num) (one_le_pow₀ (by norm_num))

theorem overflow_le_ten_pow : overflow ≤ 10 ^ 311 := by
  have h : 2 ^ 1024 ≤ 10 ^ 311 := by decide +kernel
  have hcast : (2 : ℚ) ^ 1024 ≤ 10 ^ 311 := by exact_mod_cast h
  rw [overflow]
  exact le_trans (sub_le_self _ (by positivity)) hcast

/-- The bound in units of a double. -/
theorem overflow_units_iff {num den k top : Nat} (hden : 0 < den) (htop : top = 970 + k) :
    (2 ^ 54 - 1) * (2 ^ top * den) ≤ num ↔ overflow * 2 ^ k ≤ num / den := by
  have hpos : (0 : ℚ) < den := Nat.cast_pos.mpr hden
  have hcast : ((2 ^ 54 - 1 : Nat) : ℚ) = 2 ^ 54 - 1 := by norm_num
  rw [le_div_iff₀ hpos, overflow_eq, ← @Nat.cast_le ℚ, htop, Nat.cast_mul, Nat.cast_mul, hcast,
    Nat.cast_pow, Nat.cast_ofNat, pow_add, mul_assoc, mul_assoc, mul_assoc]

/-- A decimal is read as infinite exactly from the bound on. -/
theorem decimalMagnitude_eq_infinity_iff (digits : Nat) (e : Int) :
    decimalMagnitude digits e = infinityMagnitude ↔ overflow ≤ digits * 10 ^ e := by
  have hinfinity : (0 : Nat) ≠ infinityMagnitude := by decide
  have hone := one_le_overflow
  rw [decimalMagnitude]
  split
  · rename_i hzero
    rw [hzero, Nat.cast_zero, zero_mul]
    exact iff_of_false hinfinity (by linarith)
  rename_i hdigits
  have hcast : (1 : ℚ) ≤ digits := Nat.one_le_cast.mpr (Nat.pos_of_ne_zero hdigits)
  split
  · rename_i hgreat
    refine iff_of_true rfl (le_trans overflow_le_ten_pow ?_)
    calc (10 : ℚ) ^ 311 = 10 ^ (311 : Int) := (zpow_ofNat 10 311).symm
      _ ≤ 10 ^ e := zpow_le_zpow_right₀ (by norm_num) (by omega)
      _ ≤ digits * 10 ^ e := le_mul_of_one_le_left (by positivity) hcast
  split
  · rename_i hsmall
    refine iff_of_false hinfinity (not_le.mpr (lt_of_lt_of_le ?_ hone))
    have hlog : digits < 10 ^ (digits.log2 + 1) :=
      Nat.lt_of_lt_of_le Nat.lt_log2_self (Nat.pow_le_pow_left (by decide) _)
    have hlog' : (digits : ℚ) < 10 ^ ((digits.log2 + 1 : Nat) : Int) := by
      rw [zpow_natCast]
      exact_mod_cast hlog
    calc (digits : ℚ) * 10 ^ e
        < 10 ^ ((digits.log2 + 1 : Nat) : Int) * 10 ^ e := mul_lt_mul_of_pos_right hlog' (by positivity)
      _ = 10 ^ (((digits.log2 + 1 : Nat) : Int) + e) := (zpow_add₀ (by norm_num) _ _).symm
      _ ≤ 10 ^ (0 : Int) := zpow_le_zpow_right₀ (by norm_num) (by omega)
      _ = 1 := zpow_zero _
  -- The great exponent stays a variable, so that no step computes the power.
  obtain ⟨k, hk⟩ : ∃ k, k = 1074 := ⟨_, rfl⟩
  have htop : 970 + k = 2044 := by omega
  have hunit : (0 : ℚ) < 2 ^ k := by positivity
  rw [← hk]
  simp only [Nat.pow_eq]
  split
  · rename_i hnonneg
    rw [nearestMagnitude_eq_infinity_iff Nat.one_pos htop, overflow_units_iff Nat.one_pos rfl]
    push_cast
    rw [div_one, mul_le_mul_iff_left₀ hunit, ← zpow_natCast (10 : ℚ), Int.toNat_of_nonneg hnonneg]
  · rename_i hnegative
    have hden : 0 < 10 ^ (-e).toNat := Nat.pow_pos (by decide)
    rw [nearestMagnitude_eq_infinity_iff hden htop, overflow_units_iff hden rfl]
    push_cast
    rw [mul_div_right_comm, mul_le_mul_iff_left₀ hunit, ← zpow_natCast (10 : ℚ),
      Int.toNat_of_nonneg (by omega), zpow_neg, div_inv_eq_mul]

end EntityQuery.Decimal
