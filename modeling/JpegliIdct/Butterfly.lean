import JpegliIdct.Idct1D
import JpegliIdct.Spec

/-!
# The butterfly computes the inverse DCT

In the exact reading, `IDCT1DImpl<N>` computes the unnormalised N-point inverse DCT of each
column, for every power of two `N` (`idct1DImpl_computes_idctSum`). The proof is an induction
over the template's recursion, on the column function `idctCol` (`idctCol_real`):

* the even outputs of size `2M` are the outputs of size `M` on the even rows
  (`dct3_two_mul`), and an output and its mirror image differ only in the sign of the odd
  terms (`dct3_two_mul_mirror`);
* `BTranspose` turns the odd rows into the input whose size-`M` transform is the odd half
  times `2 cos θ` (`dct3_bTransposeCol`): the identity
  `cos 2iθ + cos 2(i+1)θ = 2 cos (2i+1)θ cos θ`, summed by parts from the top row down, with
  the last term vanishing at `cos((2x+1)π/2) = 0`;
* `WcMultipliers<N>[x] = 1 / (2 cos θ)` cancels that factor (`butterfly_step`).
-/

namespace JpegliIdct

open Real Finset

/-! ## Sums -/

/-- Summation by parts for the pairwise sums of `BTranspose`: row `i ≥ 1` holds
`O i + O (i - 1)`. -/
theorem sum_pairwise {M : ℕ} (hM : 0 < M) (g O : ℕ → ℝ) :
    g 0 * O 0 + ∑ i ∈ Ico 1 M, g i * (O i + O (i - 1)) =
      ∑ i ∈ range M, (g i + g (i + 1)) * O i - g M * O (M - 1) := by
  induction M, hM using Nat.le_induction with
  | base => simp; ring
  | succ M hM ih =>
    rw [sum_Ico_succ_top hM, ← add_assoc, ih, sum_range_succ, Nat.add_sub_cancel]
    ring

/-! ## Half-size transforms -/

section

variable (M x : ℕ) (X : ℕ → ℝ)

/-- The odd terms of output `x` at size `2M`, without their weight `√2`. -/
noncomputable def oddPart : ℝ := ∑ i ∈ range M, Real.cos (angle (2 * M) x (2 * i + 1)) * X (2 * i + 1)

theorem dct3_two_mul :
    dct3 (2 * M) (2 * M) X x = dct3 M M (fun i => X (2 * i)) x + √2 * oddPart M x X := by
  rw [dct3, sum_range_two_mul, dct3, oddPart, mul_sum]
  congr 1
  · refine sum_congr rfl (fun i _ => ?_)
    rw [angle_two_mul]
    rcases i with _ | i <;> simp [dctScale, angle]
  · refine sum_congr rfl (fun i _ => ?_)
    rw [dctScale_succ]
    ring

theorem dct3_two_mul_mirror (hx : x < 2 * M) :
    dct3 (2 * M) (2 * M) X (2 * M - 1 - x) =
      dct3 M M (fun i => X (2 * i)) x - √2 * oddPart M x X := by
  have hm : dct3 (2 * M) (2 * M) X (2 * M - 1 - x) =
      dct3 (2 * M) (2 * M) (fun u => (-1) ^ u * X u) x := by
    simp only [dct3, cos_angle_mirror hx]
    exact sum_congr rfl (fun u _ => by ring)
  have ho : oddPart M x (fun u => (-1) ^ u * X u) = -oddPart M x X := by
    simp only [oddPart, ← sum_neg_distrib, pow_succ, pow_mul, neg_one_sq, one_pow]
    exact sum_congr rfl (fun i _ => by ring)
  rw [hm, dct3_two_mul, ho]
  simp only [pow_mul, neg_one_sq, one_pow, one_mul]
  ring

/-- Neighbouring coefficients of size `M`, summed, give the odd coefficient between them at size
`2M` times the cosine of the angle of coefficient 1. -/
theorem cos_angle_add_succ (i : ℕ) :
    Real.cos (angle M x i) + Real.cos (angle M x (i + 1)) =
      2 * Real.cos (angle (2 * M) x (2 * i + 1)) * Real.cos (angle (2 * M) x 1) := by
  rw [Real.cos_add_cos, ← Real.cos_neg ((angle M x i - angle M x (i + 1)) / 2)]
  congr 3 <;> simp only [angle, Nat.cast_mul, Nat.cast_add, Nat.cast_one, Nat.cast_ofNat] <;> ring

/-- The coefficient `M` of size `M` lies at `(2x + 1) π / 2`, where the cosine vanishes. -/
theorem cos_angle_self {M : ℕ} (hM : 0 < M) (x : ℕ) : Real.cos (angle M x M) = 0 := by
  have hM' : (M : ℝ) ≠ 0 := Nat.cast_ne_zero.mpr (by omega)
  rw [angle, show ((2 * x + 1) * M * π / (2 * M) : ℝ) = x * π + π / 2 by field_simp; ring,
    Real.cos_add_pi_div_two, Real.sin_nat_mul_pi, neg_zero]

/-- The angle of coefficient 1 for an output of the first half lies in `(0, π/2)`. -/
theorem cos_angle_one_pos (hx : x < M) : 0 < Real.cos (angle (2 * M) x 1) := by
  have hden : (0 : ℝ) < 2 * ((2 * M : ℕ) : ℝ) := by exact_mod_cast (show 0 < 2 * (2 * M) by omega)
  have hxM : (2 * x + 1 : ℝ) < 2 * M := by exact_mod_cast (show 2 * x + 1 < 2 * M by omega)
  apply Real.cos_pos_of_mem_Ioo
  constructor
  · have : 0 < angle (2 * M) x 1 := div_pos (by positivity) hden
    linarith [Real.pi_pos]
  · rw [angle, div_lt_iff₀ hden]
    push_cast
    nlinarith [Real.pi_pos]

/-- **`BTranspose` of the odd rows.** Its half-size transform is the odd part of the
full-size output times `2 √2 cos θ`, `θ` the angle of coefficient 1. -/
theorem dct3_bTransposeCol (hx : x < M) :
    dct3 M M (bTransposeCol realArith M (fun i => X (2 * i + 1))) x =
      2 * √2 * Real.cos (angle (2 * M) x 1) * oddPart M x X := by
  have hM : 0 < M := by omega
  have key := sum_pairwise hM (fun i => Real.cos (angle M x i)) (fun i => X (2 * i + 1))
  simp only [cos_angle_self hM, zero_mul, sub_zero, cos_angle_add_succ] at key
  have hrest : ∑ i ∈ Ico 1 M,
      dctScale i * Real.cos (angle M x i) * bTransposeCol realArith M (fun i => X (2 * i + 1)) i =
        √2 * ∑ i ∈ Ico 1 M, Real.cos (angle M x i) * (X (2 * i + 1) + X (2 * (i - 1) + 1)) := by
    rw [mul_sum]
    refine sum_congr rfl (fun i hi => ?_)
    rw [mem_Ico] at hi
    simp only [bTransposeCol, dctScale, if_neg (show i ≠ 0 by omega), if_pos hi.2, realArith_add]
    ring
  rw [dct3, range_eq_Ico, sum_eq_sum_Ico_succ_bot hM, hrest]
  simp only [angle_zero, Real.cos_zero, one_mul, Nat.mul_zero, Nat.zero_add] at key
  simp only [bTransposeCol, if_pos, realArith_mul, realArith_lit, Const.exact, dctScale_zero,
    angle_zero, Real.cos_zero, one_mul]
  rw [mul_comm (X 1), ← mul_add, key, oddPart, mul_sum, mul_sum]
  exact sum_congr rfl (fun i _ => by ring)

/-- **One butterfly.** `WcMultipliers<2M>[x] = 1 / (2 cos θ)` cancels the factor `2 cos θ`
that `BTranspose` brought in, leaving the odd part with its weight `√2`. -/
theorem butterfly_step (hx : x < M) :
    Const.exact (.wc (2 * M) x) *
        dct3 M M (bTransposeCol realArith M (fun i => X (2 * i + 1))) x =
      √2 * oddPart M x X := by
  have hθ : ((x : ℝ) + 1 / 2) * π / ((2 * M : ℕ) : ℝ) = angle (2 * M) x 1 := by
    simp only [angle]
    push_cast
    ring
  have hc := (cos_angle_one_pos M x hx).ne'
  rw [dct3_bTransposeCol M x X hx, Const.exact, hθ]
  field_simp
  ring

end

/-! ## The recursion -/

theorem sqrt2_mul_cos_pi_div_four : √2 * Real.cos (π / 4) = 1 := by
  rw [Real.cos_pi_div_four, ← mul_div_assoc, Real.mul_self_sqrt (by norm_num)]
  norm_num

/-- **`IDCT1DImpl<2^k>` on a column is the inverse DCT of size `2^k`**, in the exact reading:
the specialisations for `N = 1` and `N = 2` by computation, the general template by one
butterfly on top of the transforms of its two halves. -/
theorem idctCol_real : ∀ (k : ℕ) (X : ℕ → ℝ) {r : ℕ}, r < 2 ^ k →
    idctCol realArith k X r = dct3 (2 ^ k) (2 ^ k) X r
  | 0, X, r, hr => by
    obtain rfl : r = 0 := by simpa using hr
    simp [idctCol, dct3]
  | 1, X, r, hr => by
    have h1 : angle 2 0 1 = π / 4 := by simp only [angle]; ring
    have h3 : angle 2 1 1 = π - π / 4 := by simp only [angle]; ring
    obtain rfl | rfl : r = 0 ∨ r = 1 := by simp at hr; omega
    · simp only [idctCol, if_pos, realArith_add, dct3, Nat.pow_one, sum_range_succ,
        sum_range_zero, dctScale_zero, angle_zero, Real.cos_zero, dctScale_succ, h1]
      linear_combination (-X 1) * sqrt2_mul_cos_pi_div_four
    · simp only [idctCol, one_ne_zero, if_false, realArith_sub, dct3, Nat.pow_one,
        sum_range_succ, sum_range_zero, dctScale_zero, angle_zero, Real.cos_zero,
        dctScale_succ, h3, Real.cos_pi_sub]
      linear_combination X 1 * sqrt2_mul_cos_pi_div_four
  | k + 2, X, r, hr => by
    have hN : 2 ^ (k + 2) = 2 * 2 ^ (k + 1) := by rw [Nat.pow_succ, Nat.mul_comm]
    have hM : 2 ^ (k + 2) / 2 = 2 ^ (k + 1) := by omega
    simp only [idctCol, hM]
    rw [hN] at hr ⊢
    split_ifs with h
    · rw [realArith_mulAdd, realArith_lit, idctCol_real (k + 1) _ h, idctCol_real (k + 1) _ h,
        butterfly_step _ r X h, dct3_two_mul]
      ring
    · have hx : 2 * 2 ^ (k + 1) - 1 - r < 2 ^ (k + 1) := by omega
      rw [realArith_negMulAdd, realArith_lit, idctCol_real (k + 1) _ hx,
        idctCol_real (k + 1) _ hx, butterfly_step _ _ X hx,
        ← dct3_two_mul_mirror _ _ X (by omega), show 2 * 2 ^ (k + 1) - 1 - (2 * 2 ^ (k + 1) - 1 - r) = r by omega]

/-- **`IDCT1DImpl<N>` computes the inverse DCT, for every power of two `N`.** In the exact
reading, for every lane count and every pair of strides the rows fit in, the call leaves
memory unchanged except for the `N × Lanes(d8)` block at `to`, where output row `x` of column
`c` is `in[0] + √2 Σ_{1 ≤ u < N} cos((2x + 1) u π / 2N) in[u]` of column `c` at `from`. Nothing
relates `from` and `to`: the statement covers the in-place calls on `tmp`. -/
theorem idct1DImpl_computes_idctSum (T : Target) (uninit : ℕ → ℝ) (k : ℕ) {ρ : Type}
    [DecidableEq ρ] (m : Mem ρ ℝ) (src : Ptr ρ) (fs : ℕ) (dst : Ptr ρ) (ts : ℕ)
    (hts : T.lanes8 ≤ ts) :
    idct1DImpl realArith T.lanes8 uninit k m src fs dst ts =
      m.overwrite dst ts (fun r c => r < 2 ^ k && c < T.lanes8)
        (fun r c => idctSum (2 ^ k) (2 ^ k) (m.col src fs c) r) := by
  rw [idct1DImpl_eq realArith T.lanes8 uninit T.lanes8_pos T.lanes8_le k m src fs dst ts hts]
  refine Mem.overwrite_congr (by have := T.lanes8_pos; omega) (fun _ _ _ => rfl)
    (fun r c _ h => ?_)
  simp only [Bool.and_eq_true, decide_eq_true_eq] at h
  rw [idctCol_real k _ h.1, idctSum_eq_dct3 (Nat.pos_pow_of_pos k (by decide))]

/-- `IDCT1DImpl<8>` from the rows of stride 8 at offset 0 to those at offset 64, as
`IDCT1D<8>` calls it. -/
theorem idct1DImpl_computes_idctSum_eight_rows :
    Target.scalar.lanes8 ≤ 8 ∧
      idct1DImpl realArith Target.scalar.lanes8 (fun _ => 0) 3 (fun (_ : Unit) o => (o : ℝ))
          ⟨(), 0⟩ 8 ⟨(), 64⟩ 8 =
        Mem.overwrite (fun (_ : Unit) o => (o : ℝ)) ⟨(), 64⟩ 8
          (fun r c => r < 2 ^ 3 && c < Target.scalar.lanes8)
          (fun r c =>
            idctSum (2 ^ 3) (2 ^ 3) (Mem.col (fun (_ : Unit) o => (o : ℝ)) ⟨(), 0⟩ 8 c) r) :=
  ⟨by decide, idct1DImpl_computes_idctSum Target.scalar _ 3 _ _ _ _ 8 (by decide)⟩

end JpegliIdct
