import Mathlib
import EntityQuery.Decimal.Double

/-! # Bits of a double

The bits of a double without the sign tell whether it is finite (`isFinite_iff`). `classify` reads the same
pattern as a mantissa and a scale: they are those of a canonical double, and give the bits back
(`classify_finite`). -/

namespace EntityQuery.Decimal
open Float.Model
open Float.Model.UnpackedFloat (unpackExponent)

/-! ### Finite patterns -/

section Pattern
variable {b : BitVec Format.binary64.numBits}

theorem toNat_unpackExponent : (unpackExponent b).toNat = b.toNat / 2 ^ 52 % 2 ^ 11 := by
  rw [unpackExponent, BitVec.toNat_cast, BitVec.extractLsb_toNat, Nat.shiftRight_eq_div_pow]
  rfl

theorem isFinite_unpack :
    (UnpackedFloat.unpack Format.binary64 b).isFinite = !decide (unpackExponent b = -1#_) := by
  rw [UnpackedFloat.unpack.eq_1]
  split
  · split <;> simp_all [UnpackedFloat.isFinite]
  · split
    · split <;> simp_all [UnpackedFloat.isFinite]
    · simp_all [UnpackedFloat.isFinite]

theorem infinityMagnitude_eq : infinityMagnitude = 2047 * 2 ^ 52 := rfl

theorem unpackExponent_ne_iff : unpackExponent b ≠ -1#_ ↔ b.toNat % 2 ^ 63 < infinityMagnitude := by
  have hb : b.toNat < 2 ^ 64 := b.isLt
  rw [Ne, ← BitVec.toNat_inj, toNat_unpackExponent]
  show ¬b.toNat / 2 ^ 52 % 2 ^ 11 = 2047 ↔ _
  rw [infinityMagnitude_eq]
  omega

end Pattern

/-- A double is finite when its bits without the sign are below those of infinity. -/
theorem isFinite_iff {x : Float} : x.isFinite = true ↔ x.toBits.toNat % 2 ^ 63 < infinityMagnitude := by
  have hexp := unpackExponent_ne_iff (b := x.toBits.toBitVec)
  have hfin := isFinite_unpack (b := x.toBits.toBitVec)
  show (UnpackedFloat.unpack Format.binary64 x.toBits.toBitVec).isFinite = true ↔ _
  rw [hfin, Bool.not_eq_true', decide_eq_false_iff_not]
  exact hexp

theorem beq_self {x : Float} (h : x.isFinite = true) : (x == x) = true := by
  refine Float.beq_self_iff.mpr ?_
  rintro rfl
  exact absurd h (by decide)

/-! ### Mantissa and scale -/

/-- The mantissa and the scale of a finite double: 53 bits, of which the first is set except at scale
    zero. -/
structure Double.IsCanonical (d : Double) : Prop where
  mantissa_lt : d.mantissa < 2 ^ 53
  scale_le : d.scale ≤ 2045
  leading : d.scale = 0 ∨ 2 ^ 52 ≤ d.mantissa

/-- The bit pattern of a finite double, the sign bit apart. -/
def Double.magnitude (d : Double) : Nat :=
  d.scale * 2 ^ 52 + d.mantissa

theorem Double.IsCanonical.magnitude_lt {d : Double} (h : d.IsCanonical) : d.magnitude < infinityMagnitude := by
  have h₁ := h.mantissa_lt
  have h₂ := h.scale_le
  rw [magnitude, infinityMagnitude_eq]
  omega

theorem ofMagnitude_eq (negative : Bool) (magnitude : Nat) : ofMagnitude negative magnitude =
    Float.ofBits (UInt64.ofNat (if negative then 2 ^ 63 + magnitude else magnitude)) := rfl

theorem ofMagnitude_toBits (x : Float) :
    ofMagnitude (decide (2 ^ 63 ≤ x.toBits.toNat)) (x.toBits.toNat % 2 ^ 63) = x := by
  have hb := x.toBits.toNat_lt
  have hbits : (if decide (2 ^ 63 ≤ x.toBits.toNat) = true then 2 ^ 63 + x.toBits.toNat % 2 ^ 63
      else x.toBits.toNat % 2 ^ 63) = x.toBits.toNat := by
    split <;> rename_i hs <;> simp only [decide_eq_true_eq] at hs <;> omega
  rw [ofMagnitude_eq, hbits, UInt64.ofNat_toNat, Float.ofBits_toBits]

/-- A finite double is read as a canonical one with the same bits. -/
theorem classify_finite {x : Float} (h : x.isFinite = true) :
    ∃ d : Double, classify x = .finite d ∧ d.IsCanonical ∧ ofMagnitude d.negative d.magnitude = x := by
  have hlt := isFinite_iff.mp h
  have hclass : classify x = .finite
      { negative := decide (2 ^ 63 ≤ x.toBits.toNat)
        mantissa := x.toBits.toNat % 2 ^ 63 - (x.toBits.toNat % 2 ^ 63 / 2 ^ 52 - 1) * 2 ^ 52
        scale := x.toBits.toNat % 2 ^ 63 / 2 ^ 52 - 1 } := if_pos hlt
  refine ⟨_, hclass, ?_, ?_⟩
  · rw [infinityMagnitude_eq] at hlt
    exact ⟨by dsimp only; omega, by dsimp only; omega, by dsimp only; omega⟩
  · have hmagnitude : x.toBits.toNat % 2 ^ 63 =
        (x.toBits.toNat % 2 ^ 63 / 2 ^ 52 - 1) * 2 ^ 52 +
          (x.toBits.toNat % 2 ^ 63 - (x.toBits.toNat % 2 ^ 63 / 2 ^ 52 - 1) * 2 ^ 52) := by
      omega
    rw [Double.magnitude, ← hmagnitude]
    exact ofMagnitude_toBits x

end EntityQuery.Decimal
