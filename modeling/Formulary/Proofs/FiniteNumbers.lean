import Formulary.Lexeme
import Mathlib.Algebra.Group.Int.Defs
import Mathlib.Algebra.Group.Nat.Defs
import Mathlib.Data.Int.Order.Basic
import Mathlib.Data.Nat.Basic
import Mathlib.Order.Compare

/-!
# Whole numbers are finite

A whole number becomes a binary64 number by being multiplied by one, after it has been converted
from a word of 64 bits. Both steps round, and a rounded number is packed as an infinity if its
exponent is too large. It never is: rounding raises an exponent by little more than twice the number
of bits that it is given, and there are not many of them.

The bounds are far from sharp. The largest exponent that can be packed is 970, and it takes no more
than counting bits to stay below 400.

## Main definitions

* `ExponentLE` — finite numbers with a bounded exponent

## Main results

* `isFinite_eq` — a number is finite if it is neither a NaN nor infinite
* `exponentLE_roundWithAccuracy` — how far rounding raises an exponent
* `exponentLE_unpack_pack` — a number that fits is packed as it is
* `isFinite_ofNat` — whole numbers below `2 ^ 53` are finite
-/

namespace Formulary

open Float.Model Float.Model.UnpackedFloat

/-- A number is finite if it is neither a NaN nor infinite. -/
theorem isFinite_eq (x : Float) : x.isFinite = (!x.isNaN && !x.isInf) := by
  rw [Float.isFinite, Float.isNaN, Float.isInf, Float.Model.isFinite, Float.Model.isNaN,
    Float.Model.isInf]
  cases x.toModel.unpack <;> rfl

/-- Whether a number is finite and its exponent is at most `bound`; zeros have none. -/
def ExponentLE (bound : Int) : UnpackedFloat → Prop
  | .zero _ => True
  | .finite _ _ e _ => e ≤ bound
  | _ => False

theorem ExponentLE.mono {u : UnpackedFloat} {b c : Int} (h : ExponentLE b u) (hbc : b ≤ c) :
    ExponentLE c u := by
  cases u with
  | zero s => trivial
  | finite s m e hm => exact Int.le_trans h hbc
  | infinity s => exact h
  | notANumber => exact h

theorem ExponentLE.isFinite {u : UnpackedFloat} {b : Int} (h : ExponentLE b u) :
    u.isFinite = true := by
  cases u <;> first | rfl | exact h.elim

/-! ### Rounding -/

theorem log2_le_of_lt_two_pow {m k : Nat} (h : m < 2 ^ k) : m.log2 ≤ k := by
  rcases Nat.eq_zero_or_pos m with rfl | hm
  · simp
  · exact ((Nat.log2_lt (Nat.ne_of_gt hm)).mpr h).le

/-- Bits are only dropped. -/
theorem mantissa_shiftRight_le (em : ExtendedMantissa) (k : Nat) :
    (em >>> k).mantissa ≤ em.mantissa := by
  induction k generalizing em with
  | zero => exact Nat.le_refl _
  | succ k ih => exact (Nat.div_le_self _ _).trans (ih em)

theorem roundedMantissa_le (em : ExtendedMantissa) : em.roundedMantissa ≤ em.mantissa + 1 := by
  rw [ExtendedMantissa.roundedMantissa]
  cases em.accuracy with
  | exact => exact Nat.le_succ _
  | inexact side =>
    have hodd : em.mantissa % 2 ≤ 1 := Nat.le_of_lt_succ (Nat.mod_lt _ (by decide))
    cases side with
    | lt => exact Nat.le_succ _
    | eq => exact Nat.add_le_add_left hodd _
    | gt => exact Nat.le_refl _

/-- Dropping bits raises the exponent by the number of bits that are dropped, and there are at most
`k`. -/
theorem shiftToTargetExponent_le {m k : Nat} (hm : m < 2 ^ k) (e : Int) (accuracy : Accuracy) :
    (shiftToTargetExponent .binary64 m e accuracy).1.mantissa ≤ m ∧
      (shiftToTargetExponent .binary64 m e accuracy).2 ≤ max e (-1074) + k + 1 := by
  have hlog := log2_le_of_lt_two_pow hm
  constructor
  · refine (mantissa_shiftRight_le _ _).trans ?_
    cases accuracy with
    | exact => exact Nat.le_refl m
    | inexact o => cases o <;> exact Nat.le_refl m
  · have htarget : Format.binary64.targetExponent (totalExponent m e)
        = max ((m.log2 : Int) + 1 + e - 53) (-1074) := rfl
    rw [shiftToTargetExponent, htarget, shiftToExponent]
    dsimp only
    omega

/-- **Rounding raises an exponent by little.** Bits are dropped twice, the second time because
rounding up may have made one more. -/
theorem exponentLE_roundWithAccuracy {m k : Nat} (hm : m < 2 ^ k) (s : Sign) (e : Int)
    (accuracy : Accuracy) :
    ExponentLE (max e (-1074) + 2 * k + 3) (roundWithAccuracy .binary64 s m e accuracy) := by
  obtain ⟨hmantissa, hexponent⟩ := shiftToTargetExponent_le hm e accuracy
  rw [roundWithAccuracy]
  generalize shiftToTargetExponent .binary64 m e accuracy = first at *
  have hrounded : first.1.roundedMantissa < 2 ^ (k + 1) := by
    have := roundedMantissa_le first.1
    rw [Nat.pow_succ]
    omega
  have hexponent' := (shiftToTargetExponent_le hrounded first.2 .exact).2
  dsimp only
  generalize shiftToTargetExponent .binary64 first.1.roundedMantissa first.2 .exact = second at *
  by_cases hzero : second.1.mantissa = 0
  · rw [dif_pos hzero]
    trivial
  · rw [dif_neg hzero]
    exact hexponent'.trans (by omega)

/-- A whole number is given as many bits as there is room for before it is rounded. -/
theorem exponentLE_round {n : Nat} (hn : n < 2 ^ 64) (s : Sign) :
    ExponentLE 235 (UnpackedFloat.round .binary64 s n 0) := by
  have htarget : Format.binary64.targetExponent (totalExponent n 0)
      = max ((n.log2 : Int) + 1 + 0 - 53) (-1074) := rfl
  rw [UnpackedFloat.round, htarget, decreaseExponent]
  dsimp only
  generalize hshift : ((0 : Int) - max ((n.log2 : Int) + 1 + 0 - 53) (-1074)).toNat = shift
  have hle : shift ≤ 52 := by omega
  have hmantissa : n <<< shift < 2 ^ 116 := by
    rw [Nat.shiftLeft_eq]
    calc n * 2 ^ shift ≤ n * 2 ^ 52 := Nat.mul_le_mul_left n (Nat.pow_le_pow_right (by decide) hle)
      _ < 2 ^ 64 * 2 ^ 52 := Nat.mul_lt_mul_of_pos_right hn (by decide)
  exact (exponentLE_roundWithAccuracy hmantissa _ _ _).mono (by omega)

theorem exponentLE_ofNat {n : Nat} (hn : n < 2 ^ 64) :
    ExponentLE 235 (UnpackedFloat.ofNat .binary64 n) := by
  rw [UnpackedFloat.ofNat, UnpackedFloat.ofInt, UnpackedFloat.normalize]
  split
  · rename_i hlt
    rw [compare_lt_iff_lt] at hlt
    omega
  · trivial
  · exact exponentLE_round hn _

/-! ### Packing -/

/-- Bits with a small exponent stand for a finite number. -/
theorem exponentLE_unpack {bits : BitVec Format.binary64.numBits} {bound : Int}
    (hlow : -1074 ≤ bound) (hhigh : bound ≤ 971)
    (h : ((unpackExponent bits).toNat : Int) ≤ bound + 1075) :
    ExponentLE bound (UnpackedFloat.unpack .binary64 bits) := by
  have hbias : (Format.binary64.exponentBias : Int)
      + (Format.binary64.mantissaBitsWithoutImplicit : Int) = 1075 := rfl
  have hne : unpackExponent bits ≠ -1#11 := by
    intro htop
    have : (unpackExponent bits).toNat = 2047 := by rw [htop]; decide
    omega
  unfold UnpackedFloat.unpack
  rw [if_neg hne]
  by_cases hzero : unpackExponent bits = 0#11
  · rw [if_pos hzero]
    by_cases hmantissa : unpackMantissa bits = 0#52
    · rw [dif_pos hmantissa]
      trivial
    · rw [dif_neg hmantissa]
      show _ ≤ _
      rw [hbias, hzero]
      exact hlow
  · rw [if_neg hzero]
    show _ ≤ _
    rw [hbias]
    omega

theorem unpackExponent_pack_zero (spec : Format) (s : Sign) :
    unpackExponent (UnpackedFloat.pack spec (.zero s)) = 0 := by
  have hpack : UnpackedFloat.pack spec (.zero s) = packComponents spec s 0 0 := rfl
  rw [hpack, unpackExponent_packComponents]

theorem toNat_unpackExponent_pack_le {spec : Format} (s : Sign) {m : Nat} {e : Int} (hm : 0 < m)
    (h : ¬ 2 ^ spec.exponentBits
      ≤ (e + spec.exponentBias + spec.mantissaBitsWithoutImplicit).toNat + 1) :
    (unpackExponent (UnpackedFloat.pack spec (.finite s m e hm))).toNat
      ≤ (e + spec.exponentBias + spec.mantissaBitsWithoutImplicit).toNat := by
  show (unpackExponent (ite _ _ _)).toNat ≤ _
  rw [if_neg h]
  split
  · rw [unpackExponent_packComponents, BitVec.toNat_ofNat]
    exact Nat.mod_le _ _
  · rw [unpackExponent_packComponents, BitVec.toNat_ofNat, Nat.zero_mod]
    exact Nat.zero_le _

/-- **What fits stays finite.** A number whose exponent can be packed has no larger one when it is
unpacked. -/
theorem exponentLE_unpack_pack {u : UnpackedFloat} {bound : Int} (h : ExponentLE bound u)
    (hlow : -1074 ≤ bound) (hhigh : bound ≤ 970) :
    ExponentLE bound (Float.Model.pack u).unpack := by
  show ExponentLE bound (UnpackedFloat.unpack .binary64 (UnpackedFloat.pack .binary64 u))
  refine exponentLE_unpack hlow (by omega) ?_
  cases u with
  | infinity s => exact h.elim
  | notANumber => exact h.elim
  | zero s =>
    rw [unpackExponent_pack_zero]
    show (0 : Int) ≤ _
    omega
  | finite s m e hm =>
    have he : e ≤ bound := h
    have hbias : (e + (Format.binary64.exponentBias : Int)
        + (Format.binary64.mantissaBitsWithoutImplicit : Int)).toNat = (e + 1075).toNat := by
      have : (Format.binary64.exponentBias : Int) = 1023 := rfl
      have : (Format.binary64.mantissaBitsWithoutImplicit : Int) = 52 := rfl
      omega
    have hfits : ¬ 2 ^ Format.binary64.exponentBits ≤ (e + 1075).toNat + 1 := by
      have : 2 ^ Format.binary64.exponentBits = 2048 := rfl
      omega
    rw [← hbias] at hfits
    have hle := toNat_unpackExponent_pack_le s hm hfits
    rw [hbias] at hle
    omega

theorem mantissa_lt_of_unpack {spec : Format} {bits : BitVec spec.numBits} {s : Sign} {m : Nat}
    {e : Int} {hm : 0 < m} (h : UnpackedFloat.unpack spec bits = .finite s m e hm) :
    m < 2 ^ (1 + spec.mantissaBitsWithoutImplicit) := by
  unfold UnpackedFloat.unpack at h
  dsimp only at h
  by_cases htop : unpackExponent bits = -(BitVec.ofNat spec.exponentBits 1)
  · rw [if_pos htop] at h
    by_cases hmantissa : unpackMantissa bits = BitVec.ofNat spec.mantissaBitsWithoutImplicit 0
    · rw [if_pos hmantissa] at h
      cases h
    · rw [if_neg hmantissa] at h
      cases h
  · rw [if_neg htop] at h
    by_cases hzero : unpackExponent bits = BitVec.ofNat spec.exponentBits 0
    · rw [if_pos hzero] at h
      by_cases hmantissa : unpackMantissa bits = BitVec.ofNat spec.mantissaBitsWithoutImplicit 0
      · rw [dif_pos hmantissa] at h
        cases h
      · rw [dif_neg hmantissa] at h
        cases h
        exact (unpackMantissa bits).isLt.trans_le (Nat.pow_le_pow_right (by decide) (by omega))
    · rw [if_neg hzero] at h
      cases h
      exact (1#1 ++ unpackMantissa bits).isLt

/-! ### Whole numbers -/

/-- A whole number that has an exact neighbour is multiplied by one. -/
theorem ofNat_eq_mul {n : Nat} (hn : n < 2 ^ 53) :
    Float.ofNat n = n.toUInt64.toFloat * Float.ofBits 0x3FF0000000000000 := by
  have hfast : n < 2 ^ 53 ∧ 0 ≤ 22 := ⟨hn, by decide⟩
  rw [Float.ofNat, OfScientific.ofScientific, instOfScientificFloat]
  dsimp only
  rw [Float.ofScientific, dif_pos hfast]
  rfl

theorem unpack_one : (Float.ofBits 0x3FF0000000000000).toModel.unpack
    = .finite .positive (2 ^ 52) (-52) (by decide) := by
  rfl

/-- **Whole numbers are finite.** -/
theorem isFinite_ofNat {n : Nat} (hn : n < 2 ^ 53) : (Float.ofNat n).isFinite = true := by
  have hleft : ExponentLE 235 n.toUInt64.toFloat.toModel.unpack :=
    exponentLE_unpack_pack (exponentLE_ofNat n.toUInt64.toNat_lt) (by decide) (by decide)
  have hmul : ExponentLE 396 (UnpackedFloat.mul .binary64 n.toUInt64.toFloat.toModel.unpack
      (Float.ofBits 0x3FF0000000000000).toModel.unpack) := by
    rw [unpack_one]
    cases hunpack : n.toUInt64.toFloat.toModel.unpack with
    | infinity s => rw [hunpack] at hleft; exact hleft.elim
    | notANumber => rw [hunpack] at hleft; exact hleft.elim
    | zero s => trivial
    | finite s m e hm =>
      rw [hunpack] at hleft
      have he : e ≤ 235 := hleft
      have hproduct : m * 2 ^ 52 < 2 ^ 105 := by
        have hlt : m < 2 ^ 53 := mantissa_lt_of_unpack hunpack
        calc m * 2 ^ 52 < 2 ^ 53 * 2 ^ 52 := Nat.mul_lt_mul_of_pos_right hlt (by decide)
          _ = 2 ^ 105 := by decide
      exact (exponentLE_roundWithAccuracy hproduct _ _ _).mono (by omega)
  rw [ofNat_eq_mul hn]
  exact (exponentLE_unpack_pack hmul (by decide) (by decide)).isFinite

end Formulary
