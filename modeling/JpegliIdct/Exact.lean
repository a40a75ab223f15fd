import JpegliIdct.Block
import JpegliIdct.Spec

/-!
# The exact reading of the lane operations

`DequantBlock` moves the sign of each coefficient onto its bias with two `Xor`s on the bit
patterns of floats: `Xor(quant, Abs(quant))` is the sign bit of `quant` alone, a signed zero,
and `Xor(bias, ·)` of it flips the sign of `bias` exactly when `quant` is negative. A real number
has no sign bit for zero, so the exact reading of the lane operations, `exactOps`, works on
`ExactFloat`: a sign bit and a magnitude. Arithmetic is exact on the values, `Abs` clears the
sign, `Xor` acts on the sign bits and is exact on the two kinds of operands the kernel gives it.

`ExactFloat.val` maps this reading onto the real one, `realArith` (`exactVal`), so every result
about the transforms over the reals carries over, and one lane of `DequantBlock` is the intended
dequantised coefficient (`dequantLane_exact`).
-/

namespace JpegliIdct

open Real

noncomputable section

/-- A float read exactly: its sign bit and its magnitude. -/
structure ExactFloat where
  sign : Bool
  mag : ℝ
  mag_nonneg : 0 ≤ mag

namespace ExactFloat

/-- The real value. -/
def val (a : ExactFloat) : ℝ := if a.sign then -a.mag else a.mag

/-- A real number as an exact float; zero gets the positive sign. -/
def ofReal (r : ℝ) : ExactFloat := ⟨decide (r < 0), |r|, abs_nonneg r⟩

@[simp] theorem val_ofReal (r : ℝ) : (ofReal r).val = r := by
  by_cases h : r < 0 <;> simp [val, ofReal, h, abs_of_neg, abs_of_nonneg, le_of_not_lt]

@[simp] theorem sign_ofReal (r : ℝ) : (ofReal r).sign = decide (r < 0) := rfl

/-- Positive zero. -/
def zero : ExactFloat := ⟨false, 0, le_rfl⟩

@[simp] theorem val_zero : zero.val = 0 := by simp [val, zero]

end ExactFloat

open ExactFloat

/-- The exact reading of every lane operation. `Xor` takes the exclusive or of the sign bits;
two operands of one magnitude give a signed zero, and a signed zero leaves the other magnitude as
it is, as on bit patterns. Operands of two different nonzero magnitudes, which the kernel never
gives it, get the sum of the magnitudes. -/
def exactOps : LaneOps ExactFloat where
  add a b := ofReal (a.val + b.val)
  sub a b := ofReal (a.val - b.val)
  mul a b := ofReal (a.val * b.val)
  mulAdd m x a := ofReal (m.val * x.val + a.val)
  negMulAdd m x a := ofReal (a.val - m.val * x.val)
  lit c := ofReal c.exact
  abs a := ⟨false, a.mag, a.mag_nonneg⟩
  xor a b := ⟨a.sign != b.sign, if a.mag = b.mag then 0 else a.mag + b.mag,
    by split_ifs <;> linarith [a.mag_nonneg, b.mag_nonneg]⟩
  gt a b := decide (b.val < a.val)
  ifThenElseZero c a := if c then a else zero
  zero := zero
  convertTo z := ofReal z

/-- The value of an exact float commutes with every operation of the transforms. -/
def exactVal : FloatArith.Hom exactOps.toFloatArith realArith where
  toFun := val
  map_add _ _ := val_ofReal _
  map_sub _ _ := val_ofReal _
  map_mul _ _ := val_ofReal _
  map_mulAdd _ _ _ := val_ofReal _
  map_negMulAdd _ _ _ := val_ofReal _
  map_lit _ := val_ofReal _

@[simp] theorem exactVal_apply (a : ExactFloat) : exactVal.toFun a = a.val := rfl

@[simp] theorem val_scalar_add (a b : Scalar exactOps.toFloatArith) :
    ExactFloat.val (a + b) = ExactFloat.val a + ExactFloat.val b := val_ofReal _

@[simp] theorem val_scalar_sub (a b : Scalar exactOps.toFloatArith) :
    ExactFloat.val (a - b) = ExactFloat.val a - ExactFloat.val b := val_ofReal _

@[simp] theorem val_scalar_mul (a b : Scalar exactOps.toFloatArith) :
    ExactFloat.val (a * b) = ExactFloat.val a * ExactFloat.val b := val_ofReal _

@[simp] theorem val_scalar_lit (c : Const) :
    ExactFloat.val (Scalar.lit exactOps.toFloatArith c) = c.exact := val_ofReal _

/-! ## The sign trick of `DequantBlock` -/

/-- `Xor(a, Abs(a))` is the sign bit of `a` alone. -/
theorem exactOps_xor_abs (a : ExactFloat) : exactOps.xor a (exactOps.abs a) = ⟨a.sign, 0, le_rfl⟩ := by
  simp [exactOps]

/-- `Xor` with a signed zero flips the sign exactly when the zero is negative. -/
theorem val_xor_signedZero (b : ExactFloat) (s : Bool) :
    (exactOps.xor b ⟨s, 0, le_rfl⟩).val = if s then -b.val else b.val := by
  have hmag : (if b.mag = 0 then 0 else b.mag) = b.mag := by split_ifs with h <;> simp [h]
  cases s <;> cases hs : b.sign <;> simp [exactOps, val, hmag, hs]

/-- One lane of `DequantBlock`, read exactly, is the dequantised coefficient. -/
theorem dequantLane_exact (q : ℤ) (mul bias : ExactFloat) :
    (dequantLane exactOps q mul bias).val = dequantValue q mul.val bias.val := by
  have hq : exactOps.convertTo q = ofReal q := rfl
  have hgt : exactOps.gt (exactOps.abs (ofReal q)) exactOps.zero = decide (q ≠ 0) := by
    simp [exactOps, val, ofReal, ExactFloat.zero]
  have hite : ∀ c a, (exactOps.ifThenElseZero c a).val = if c then a.val else 0 := by
    intro c a
    cases c <;> simp [exactOps]
  have hmul : ∀ a b, (exactOps.mul a b).val = a.val * b.val := fun _ _ => val_ofReal _
  have hsub : ∀ a b, (exactOps.sub a b).val = a.val - b.val := fun _ _ => val_ofReal _
  simp only [dequantLane, hq, exactOps_xor_abs, hgt, hite, hmul, hsub, val_xor_signedZero,
    val_ofReal, sign_ofReal, dequantValue]
  rcases lt_trichotomy q 0 with h | rfl | h
  · simp [h, h.ne, exactOps, Int.sign_eq_neg_one_of_neg h]
  · simp
  · simp [h.ne', not_lt.2 h.le, exactOps, Int.sign_eq_one_of_pos h]

end

end JpegliIdct
