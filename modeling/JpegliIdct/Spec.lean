import JpegliIdct.Arith
import Mathlib.Analysis.SpecialFunctions.Trigonometric.Basic

/-!
# The exact reading and the transform it should compute

The kernel is specified in exact real arithmetic: every float operation is read as the real
operation and every literal as the exact value it was generated from,

* `kSqrt2` as `√2`;
* `WcMultipliers<N>[i]` as `1 / (2 cos((i + ½) π / N))`, the formula of the generating snippet
  above the tables;
* `kC<N>[j]` as `√2 cos(jπ / 2N)`, the value each literal of `Compute1dIDCT` approximates;
* `0.25f` and `0.0625f` as `1/4` and `1/16`.

`realArith` is that reading. What the kernel should compute is the unnormalised N-point
DCT-III of the first `n` coefficients, `idctSum N n`, and its weighted-sum form `dct3 N n`
with the weights `dctScale u` (`1` for the DC term, `√2` otherwise). The lemmas here are the
trigonometry the proofs share: the two forms agree, an output and its mirror image differ in
the sign of the odd terms, and the weights of the even terms are those of half the size.
-/

namespace JpegliIdct

open Real Finset

noncomputable section

/-- The exact value of each named literal. -/
def Const.exact : Const → ℝ
  | .sqrt2 => √2
  | .wc n i => 1 / (2 * Real.cos ((i + 1 / 2) * π / n))
  | .kC n j => √2 * Real.cos (j * π / (2 * n))
  | .quarter => 1 / 4
  | .sixteenth => 1 / 16

/-- The exact real reading of the kernel's arithmetic. -/
def realArith : FloatArith ℝ where
  add a b := a + b
  sub a b := a - b
  mul a b := a * b
  mulAdd m x a := m * x + a
  negMulAdd m x a := a - m * x
  lit := Const.exact

@[simp] theorem realArith_add (a b : ℝ) : realArith.add a b = a + b := rfl
@[simp] theorem realArith_sub (a b : ℝ) : realArith.sub a b = a - b := rfl
@[simp] theorem realArith_mul (a b : ℝ) : realArith.mul a b = a * b := rfl
@[simp] theorem realArith_mulAdd (m x a : ℝ) : realArith.mulAdd m x a = m * x + a := rfl
@[simp] theorem realArith_negMulAdd (m x a : ℝ) : realArith.negMulAdd m x a = a - m * x := rfl
@[simp] theorem realArith_lit (c : Const) : realArith.lit c = c.exact := rfl

/-! ## Sums -/

/-- A sum over `2M` terms is the sum over the even ones plus the sum over the odd ones. -/
theorem sum_range_two_mul (M : ℕ) (f : ℕ → ℝ) :
    ∑ u ∈ range (2 * M), f u = ∑ i ∈ range M, f (2 * i) + ∑ i ∈ range M, f (2 * i + 1) := by
  induction M with
  | zero => simp
  | succ M ih =>
    rw [Nat.mul_succ, sum_range_succ, sum_range_succ, ih, sum_range_succ, sum_range_succ]
    ring

/-- A sum over `n` terms is the sum over the even ones plus the sum over the odd ones. -/
theorem sum_range_even_odd (n : ℕ) (f : ℕ → ℝ) :
    ∑ u ∈ range n, f u = ∑ i ∈ range ((n + 1) / 2), f (2 * i) + ∑ i ∈ range (n / 2), f (2 * i + 1) := by
  obtain ⟨M, rfl | rfl⟩ := Nat.even_or_odd' n
  · rw [sum_range_two_mul, show (2 * M + 1) / 2 = M by omega, show 2 * M / 2 = M by omega]
  · rw [sum_range_succ, sum_range_two_mul, show (2 * M + 1 + 1) / 2 = M + 1 by omega,
      show (2 * M + 1) / 2 = M by omega, sum_range_succ]
    ring

/-! ## The inverse DCT -/

/-- The weight `a(u)` of coefficient `u`: `1` for the DC term, `√2` otherwise. -/
def dctScale (u : ℕ) : ℝ := if u = 0 then 1 else √2

/-- The angle `(2x + 1) u π / 2N` of output `x` and coefficient `u` at size `N`. -/
def angle (N x u : ℕ) : ℝ := (2 * x + 1) * u * π / (2 * N)

/-- Output `x` of the unnormalised N-point inverse DCT of the first `n` inputs:
`in[0] + √2 Σ_{1 ≤ u < n} cos((2x + 1) u π / 2N) in[u]`. -/
def idctSum (N n : ℕ) (inp : ℕ → ℝ) (x : ℕ) : ℝ :=
  inp 0 + √2 * ∑ u ∈ Ico 1 n, Real.cos ((2 * x + 1) * u * π / (2 * N)) * inp u

/-- The same transform as a weighted sum over all `n` inputs. -/
def dct3 (N n : ℕ) (inp : ℕ → ℝ) (x : ℕ) : ℝ :=
  ∑ u ∈ range n, dctScale u * Real.cos (angle N x u) * inp u

/-- `idctSum` with its cosines written as `angle`s. -/
theorem idctSum_eq_angle (N n : ℕ) (inp : ℕ → ℝ) (x : ℕ) :
    idctSum N n inp x = inp 0 + √2 * ∑ u ∈ Ico 1 n, Real.cos (angle N x u) * inp u := rfl

@[simp] theorem angle_zero (N x : ℕ) : angle N x 0 = 0 := by simp [angle]

@[simp] theorem dctScale_zero : dctScale 0 = 1 := rfl

theorem dctScale_succ (u : ℕ) : dctScale (u + 1) = √2 := if_neg u.succ_ne_zero

theorem idctSum_eq_dct3 {n : ℕ} (hn : 0 < n) (N : ℕ) (inp : ℕ → ℝ) (x : ℕ) :
    idctSum N n inp x = dct3 N n inp x := by
  obtain ⟨n, rfl⟩ : ∃ n', n = n' + 1 := ⟨n - 1, by omega⟩
  rw [dct3, sum_range_succ', idctSum, sum_Ico_eq_sum_range, mul_sum, add_comm]
  simp only [angle, dctScale_succ, Nat.cast_zero, mul_zero, zero_mul, zero_div, Real.cos_zero,
    dctScale_zero, one_mul, Nat.add_sub_cancel]
  congr 1
  refine sum_congr rfl (fun u _ => ?_)
  rw [Nat.add_comm 1 u]
  ring

/-- The mirror output `N - 1 - x` sees each coefficient `u` with the sign `(-1)^u`. -/
theorem cos_angle_mirror {N x : ℕ} (hx : x < N) (u : ℕ) :
    Real.cos (angle N (N - 1 - x) u) = (-1) ^ u * Real.cos (angle N x u) := by
  have hN : (N : ℝ) ≠ 0 := Nat.cast_ne_zero.mpr (by omega)
  rw [angle, angle, Nat.cast_sub (by omega), Nat.cast_sub (by omega), ← Real.cos_nat_mul_pi_sub]
  congr 1
  field_simp
  ring

theorem dct3_congr {N n : ℕ} {f g : ℕ → ℝ} (h : ∀ u < n, f u = g u) (x : ℕ) :
    dct3 N n f x = dct3 N n g x :=
  sum_congr rfl (fun u hu => by rw [h u (mem_range.1 hu)])

theorem idctSum_congr {N n : ℕ} {f g : ℕ → ℝ} (h : ∀ u < n, f u = g u) (h0 : f 0 = g 0) (x : ℕ) :
    idctSum N n f x = idctSum N n g x := by
  simp only [idctSum, h0]
  congr 2
  exact sum_congr rfl (fun u hu => by rw [h u (mem_Ico.1 hu).2])

/-- Even coefficients at size `2M` are the coefficients of size `M`. -/
theorem angle_two_mul (M x i : ℕ) : angle (2 * M) x (2 * i) = angle M x i := by
  simp only [angle, Nat.cast_mul, Nat.cast_ofNat]
  ring

/-! ## The two-dimensional transform and dequantisation -/

/-- Output `(x, y)` of the separable N × N inverse DCT of the first `n × n` coefficients of the
row-major 8 × 8 block `D`: `Σ_{u, v < n} a(u) a(v) cos((2x + 1) u π / 2N) cos((2y + 1) v π / 2N)
D[8v + u]`. -/
def idct2D (N n : ℕ) (D : ℕ → ℝ) (x y : ℕ) : ℝ :=
  ∑ v ∈ range n, ∑ u ∈ range n,
    dctScale u * dctScale v * Real.cos (angle N x u) * Real.cos (angle N y v) * D (8 * v + u)

/-- The rows first: each row `v` transformed along `u`, then the columns along `v`. -/
theorem idct2D_eq_rows (N n : ℕ) (D : ℕ → ℝ) (x y : ℕ) :
    idct2D N n D x y = dct3 N n (fun v => dct3 N n (fun u => D (8 * v + u)) x) y := by
  simp only [idct2D, dct3, mul_sum]
  refine sum_congr rfl (fun v _ => sum_congr rfl (fun u _ => by ring))

/-- The columns first: each column `u` transformed along `v`, then the rows along `u`. -/
theorem idct2D_eq_cols (N n : ℕ) (D : ℕ → ℝ) (x y : ℕ) :
    idct2D N n D x y = dct3 N n (fun u => dct3 N n (fun v => D (8 * v + u)) y) x := by
  simp only [idct2D, dct3, mul_sum]
  rw [sum_comm]
  refine sum_congr rfl (fun u _ => sum_congr rfl (fun v _ => by ring))

/-- A transform whose only nonzero input is the DC one is constant. -/
theorem dct3_of_dc {N n : ℕ} (hn : 0 < n) {g : ℕ → ℝ} (hg : ∀ u, u ≠ 0 → g u = 0) (x : ℕ) :
    dct3 N n g x = g 0 := by
  rw [dct3, sum_eq_single_of_mem 0 (mem_range.2 hn) (fun u _ hu => by rw [hg u hu, mul_zero])]
  simp

/-- A block whose only nonzero coefficient is the DC one transforms to the constant block of
that coefficient: the transform is not normalised. -/
theorem idct2D_of_dc {N n : ℕ} (hn : 0 < n) {D : ℕ → ℝ} (hD : ∀ k, k ≠ 0 → D k = 0) (x y : ℕ) :
    idct2D N n D x y = D 0 := by
  rw [idct2D_eq_rows, dct3_of_dc hn (fun v hv => ?_), dct3_of_dc hn (fun u hu => hD _ (by omega))]
  rw [dct3_of_dc hn (fun u _ => hD _ (by omega)), hD _ (by omega)]

/-! ## Sums over all outputs -/

/-- Every coefficient but the DC one sums to zero over the `N` outputs: `2 sin θ` times the sum
of `cos (2x + 1) θ` telescopes to `sin 2Nθ = sin uπ = 0`, and `sin θ ≠ 0` for `0 < u < 2N`. -/
theorem sum_cos_angle {N u : ℕ} (hN : 0 < N) (hu : u < 2 * N) :
    ∑ x ∈ range N, Real.cos (angle N x u) = if u = 0 then (N : ℝ) else 0 := by
  split_ifs with h0
  · simp [h0]
  · have hN' : (0 : ℝ) < N := by exact_mod_cast hN
    set θ : ℝ := u * π / (2 * N) with hθ
    have hsin : 0 < Real.sin θ := by
      apply Real.sin_pos_of_pos_of_lt_pi
      · have : (0 : ℝ) < u := by exact_mod_cast Nat.pos_of_ne_zero h0
        positivity
      · rw [hθ, div_lt_iff₀ (by positivity)]
        have : (u : ℝ) < 2 * N := by exact_mod_cast hu
        nlinarith [Real.pi_pos]
    have htel : ∀ x : ℕ, 2 * Real.sin θ * Real.cos (angle N x u) =
        Real.sin (2 * (x + 1 : ℕ) * θ) - Real.sin (2 * x * θ) := fun x => by
      rw [Real.two_mul_sin_mul_cos, show angle N x u = (2 * x + 1) * θ by
        rw [hθ, angle]; ring, show θ - (2 * x + 1) * θ = -(2 * x * θ) by ring, Real.sin_neg,
        show θ + (2 * x + 1) * θ = 2 * (x + 1 : ℕ) * θ by push_cast; ring]
      ring
    have hsum : 2 * Real.sin θ * ∑ x ∈ range N, Real.cos (angle N x u) = 0 := by
      rw [mul_sum, sum_congr rfl (fun x _ => htel x), sum_range_sub (fun x => Real.sin (2 * x * θ)),
        show 2 * (N : ℝ) * θ = u * π by rw [hθ]; field_simp, Real.sin_nat_mul_pi]
      simp
    rcases mul_eq_zero.1 hsum with h | h
    · linarith
    · exact h

/-- The sum of one transform over all `N` outputs is `N` times its DC input. -/
theorem sum_dct3 {N n : ℕ} (hN : 0 < N) (hn0 : 0 < n) (hn : n ≤ 2 * N) (g : ℕ → ℝ) :
    ∑ y ∈ range N, dct3 N n g y = N * g 0 := by
  simp only [dct3]
  rw [sum_comm]
  simp only [mul_comm (dctScale _ * _) (g _), mul_assoc, ← mul_sum, mul_left_comm _ (dctScale _)]
  rw [sum_eq_single 0 (fun u hu hu0 => by
      rw [sum_cos_angle hN (by simp at hu; omega), if_neg hu0, mul_zero, mul_zero])
    (fun h => absurd (mem_range.2 hn0) h), sum_cos_angle hN (by omega)]
  simp [mul_comm]

/-- The sum of the 2-D transform over all `N × N` outputs is `N²` times the DC coefficient. -/
theorem sum_sum_idct2D {N n : ℕ} (hN : 0 < N) (hn0 : 0 < n) (hn : n ≤ 2 * N) (D : ℕ → ℝ) :
    ∑ y ∈ range N, ∑ x ∈ range N, idct2D N n D x y = N ^ 2 * D 0 := by
  simp only [idct2D_eq_rows]
  rw [sum_comm]
  simp only [sum_dct3 hN hn0 hn, ← mul_sum]
  simp only [Nat.mul_zero, Nat.zero_add]
  ring

/-- What `DequantBlock` means a coefficient to be: `0` for `q = 0`, otherwise `q` moved towards
zero by the bias, times the multiplier. -/
def dequantValue (q : ℤ) (mul bias : ℝ) : ℝ := if q = 0 then 0 else (q - Int.sign q * bias) * mul

end

end JpegliIdct
