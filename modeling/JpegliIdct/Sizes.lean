import JpegliIdct.Kernel

/-!
# The sizes against each other: a filtered transform that keeps the block mean

**The box filter.** For the sizes `1`, `2` and `4` the kernel averages `8/N × 8/N` tiles of the
8 × 8 transform, and for `8` it installs that transform itself. Read in the frequency domain,
all four are one transform (`chooseInverseTransform_box_filter`): the unnormalised `N`-point
inverse DCT of all 64 coefficients, each weighted by the gain of the box filter of width
`2^s = 8/N` at its row and column frequency,

  `boxGain s u = cos(uπ/16) · cos(2uπ/16) ⋯ cos(2^(s-1)uπ/16)`.

So the sizes below 8 do not keep only the first `N` coefficients, as `Compute1dIDCT` does: every
coefficient enters the `N` outputs through the `N`-point cosines, damped by the gain (for `1`
the cosine or the gain of every coefficient but the DC one vanishes). The gain is `1` for the
8 × 8 kernel, and `0` at frequency `4` for size `2`.

The proof is one fact about cosines: the mean of a coefficient's cosine over a tile of `2^s`
neighbouring outputs is its cosine at the tile's centre times `boxGain s u` (`sum_cos_window`,
by halving the tile); summing the 2-D transform over a tile then only moves sums through
`dct3` (`sum_sum_idct2D_tile`).

**The block mean** (`chooseInverseTransform_sum_outputs`). At every size from 1 to 16 the
`N × N` outputs sum to `N²` times the dequantised DC coefficient: whichever path the size
takes, the mean of the block it stores is the DC coefficient.
-/

namespace JpegliIdct

open Real Finset

noncomputable section

/-! ## The gain of the box filter -/

/-- The gain at frequency `u` of the 8-point transform of the mean over `2^s` neighbouring
outputs: `∏_{i < s} cos(2^i · uπ/16)`. -/
def boxGain (s u : ℕ) : ℝ := ∏ i ∈ range s, Real.cos (2 ^ i * (u * π / 16))

@[simp] theorem boxGain_zero (u : ℕ) : boxGain 0 u = 1 := prod_range_zero _

/-- The cosines at the `2^s` points `c + (2j + 1 - 2^s)θ`, symmetric about `c`, sum to `2^s cos c`
times the gain: the two halves of the points are those of `2^(s-1)` about `c ∓ 2^(s-1)θ`, and
`cos (c - d) + cos (c + d) = 2 cos c cos d`. -/
theorem sum_cos_window (s : ℕ) (c θ : ℝ) :
    ∑ j ∈ range (2 ^ s), Real.cos (c + (2 * j + 1 - 2 ^ s) * θ) =
      2 ^ s * Real.cos c * ∏ i ∈ range s, Real.cos (2 ^ i * θ) := by
  induction s generalizing c with
  | zero => simp
  | succ s ih =>
    have h₁ : ∀ j : ℕ, c + (2 * j + 1 - 2 ^ (s + 1)) * θ =
        c - 2 ^ s * θ + (2 * j + 1 - 2 ^ s) * θ := fun j => by ring
    have h₂ : ∀ j : ℕ, c + (2 * ((2 ^ s + j : ℕ) : ℝ) + 1 - 2 ^ (s + 1)) * θ =
        c + 2 ^ s * θ + (2 * j + 1 - 2 ^ s) * θ := fun j => by push_cast; ring
    rw [show 2 ^ (s + 1) = 2 ^ s + 2 ^ s by ring, sum_range_add]
    simp only [h₂]
    simp only [h₁]
    rw [ih, ih, prod_range_succ, Real.cos_sub, Real.cos_add]
    ring

/-- Over the `x`-th tile of `2^s` of the 8 outputs, coefficient `u`'s cosine sums to `2^s`
times its cosine at output `x` of size `N = 8 / 2^s`, times the gain. -/
theorem sum_cos_angle_tile {N s : ℕ} (hN : N * 2 ^ s = 8) (x u : ℕ) :
    ∑ j ∈ range (2 ^ s), Real.cos (angle 8 (x * 2 ^ s + j) u) =
      2 ^ s * Real.cos (angle N x u) * boxGain s u := by
  have hN' : (N : ℝ) * 2 ^ s = 8 := by exact_mod_cast hN
  have hinv : (2 * (N : ℝ))⁻¹ = 2 ^ s / 16 :=
    (eq_inv_of_mul_eq_one_right (by linear_combination hN' / 8)).symm
  rw [boxGain, ← sum_cos_window]
  refine sum_congr rfl fun j _ => congrArg Real.cos ?_
  rw [angle, angle, div_eq_mul_inv _ (2 * (N : ℝ)), hinv]
  push_cast
  ring

/-! ## Sums of the transform over a tile -/

theorem dct3_sum_comm {N n : ℕ} (J : Finset ℕ) (F : ℕ → ℕ → ℝ) (y : ℕ) :
    dct3 N n (fun v => ∑ j ∈ J, F v j) y = ∑ j ∈ J, dct3 N n (fun v => F v j) y := by
  simp only [dct3, mul_sum]
  exact sum_comm

theorem dct3_const_mul {N n : ℕ} (c : ℝ) (f : ℕ → ℝ) (x : ℕ) :
    dct3 N n (fun u => c * f u) x = c * dct3 N n f x := by
  simp only [dct3, mul_sum]
  exact sum_congr rfl fun _ _ => by ring

/-- The 8-point transform summed over the `x`-th tile of `2^s` outputs is `2^s` times the
`N`-point transform of the filtered inputs at `x`. -/
theorem sum_dct3_tile {N s : ℕ} (hN : N * 2 ^ s = 8) (g : ℕ → ℝ) (x : ℕ) :
    ∑ j ∈ range (2 ^ s), dct3 8 8 g (x * 2 ^ s + j) =
      2 ^ s * dct3 N 8 (fun u => boxGain s u * g u) x := by
  simp only [dct3, mul_sum]
  rw [sum_comm]
  refine sum_congr rfl fun u _ => ?_
  rw [← sum_mul, ← mul_sum, sum_cos_angle_tile hN]
  ring

/-- The 8 × 8 transform summed over the tile `(x, y)` of `2^s × 2^s` outputs is `4^s` times the
`N × N` transform at `(x, y)` of the block filtered along both directions. -/
theorem sum_sum_idct2D_tile {N s : ℕ} (hN : N * 2 ^ s = 8) (D : ℕ → ℝ) (x y : ℕ) :
    ∑ i ∈ range (2 ^ s), ∑ j ∈ range (2 ^ s), idct2D 8 8 D (x * 2 ^ s + j) (y * 2 ^ s + i) =
      (2 ^ s) ^ 2 * idct2D N 8 (fun k => boxGain s (k % 8) * boxGain s (k / 8) * D k) x y := by
  simp only [idct2D_eq_rows, ← dct3_sum_comm, sum_dct3_tile hN, ← dct3_const_mul]
  refine dct3_congr (fun v _ => dct3_congr (fun u hu => ?_) x) y
  rw [show (8 * v + u) % 8 = u by omega, show (8 * v + u) / 8 = v by omega]
  ring

/-! ## The installed transforms -/

/-- Every `N` with `N · 2^s = 8` is `8`, `4`, `2` or `1`, with `s` the matching exponent. -/
theorem sizes_of_mul_pow {N s : ℕ} (hN : N * 2 ^ s = 8) :
    (N = 8 ∧ s = 0) ∨ (N = 4 ∧ s = 1) ∨ (N = 2 ∧ s = 2) ∨ (N = 1 ∧ s = 3) := by
  have hs : s < 4 := by
    by_contra h
    have h16 : 2 ^ 4 ≤ 2 ^ s := Nat.pow_le_pow_right (by norm_num) (by omega)
    rcases Nat.eq_zero_or_pos N with rfl | hN0
    · omega
    · have := Nat.le_mul_of_pos_left (2 ^ s) hN0
      omega
  rcases (by omega : s = 0 ∨ s = 1 ∨ s = 2 ∨ s = 3) with rfl | rfl | rfl | rfl <;>
    simp only [Nat.reducePow] at hN <;> omega

/-- The box sizes `4`, `2` and `1` of `InverseTransformBlockGeneric`, read exactly: the `N`-point
inverse DCT of the box-filtered block, from the tile sums of the 8 × 8 transform. -/
theorem inverseTransformBlockGeneric_box_val (T : Target) (uninit : ℕ → ExactFloat)
    (qblock : ℕ → ℤ) (dequant biases : ℕ → ExactFloat) {ρ : Type} [DecidableEq ρ]
    (m : Mem ρ ExactFloat) (scratchSpace output : Ptr ρ) (outputStride : ℕ) {N s : ℕ}
    (hN : N * 2 ^ s = 8) (h8 : N ≠ 8) (hs : N ≤ outputStride)
    (hsep : scratchSpace.buf ≠ output.buf) :
    ∃ m', inverseTransformBlockGeneric exactOps T uninit qblock dequant biases m scratchSpace
        output outputStride N = some m' ∧
      ∀ y < N, ∀ x < N, (m' output.buf (output.off + (y * outputStride + x))).val =
        idct2D N 8 (fun k => boxGain s (k % 8) * boxGain s (k / 8) *
          dequantValue (qblock k) (dequant k).val (biases k).val) x y := by
  have htile := sum_sum_idct2D_tile hN fun k => dequantValue (qblock k) (dequant k).val
    (biases k).val
  rcases sizes_of_mul_pow hN with ⟨rfl, rfl⟩ | ⟨rfl, rfl⟩ | ⟨rfl, rfl⟩ | ⟨rfl, rfl⟩
  · exact absurd rfl h8
  · -- `4`: the quarter of each 2 × 2 tile
    obtain ⟨m', h, hv⟩ := inverseTransformBlockGeneric_four_val T uninit qblock dequant biases m
      scratchSpace output hsep hs
    refine ⟨m', h, fun y hy x hx => ?_⟩
    rw [hv y hy x hx, ← mul_right_inj' (show ((2 ^ 1 : ℝ)) ^ 2 ≠ 0 by norm_num), ← htile]
    simp only [Nat.reducePow]
    push_cast
    ring
  · -- `2`: the sixteenth of each 4 × 4 tile
    obtain ⟨m', h, hv⟩ := inverseTransformBlockGeneric_two_val T uninit qblock dequant biases m
      scratchSpace output hsep hs
    refine ⟨m', h, fun y hy x hx => ?_⟩
    rw [hv y hy x hx, ← mul_right_inj' (show ((2 ^ 2 : ℝ)) ^ 2 ≠ 0 by norm_num), ← htile]
    simp only [Nat.reducePow]
    push_cast
    ring
  · -- `1`: the DC coefficient, the mean of all 64 outputs
    obtain ⟨m', h, hv⟩ := inverseTransformBlockGeneric_one_val T uninit qblock dequant biases m
      scratchSpace output (s := outputStride)
    refine ⟨m', h, fun y hy x hx => ?_⟩
    obtain ⟨rfl, rfl⟩ : y = 0 ∧ x = 0 := ⟨by omega, by omega⟩
    rw [Nat.zero_mul, Nat.add_zero, hv, ← mul_right_inj' (show ((2 ^ 3 : ℝ)) ^ 2 ≠ 0 by norm_num),
      ← htile]
    simp only [Nat.reducePow, Nat.zero_mul, Nat.zero_add]
    rw [sum_sum_idct2D (by norm_num) (by norm_num) (by norm_num)]
    norm_num

/-- **The power-of-two sizes are the `N`-point inverse DCT of the box-filtered block.** In the
exact reading, for `N · 2^s = 8` the transform `ChooseInverseTransform` installs for `N` returns
and stores to output `(y, x)` the unnormalised `N × N` inverse DCT of all 64 dequantised
coefficients, coefficient `(v, u)` weighted by `boxGain s u · boxGain s v`; for every target,
output stride of at least `N` apart from the scratch space, and scratch contents. -/
theorem chooseInverseTransform_box_filter (T : Target) (uninit : ℕ → ExactFloat)
    (qblock : ℕ → ℤ) (dequant biases : ℕ → ExactFloat) {ρ : Type} [DecidableEq ρ]
    (m : Mem ρ ExactFloat) (scratchSpace output : Ptr ρ) (outputStride : ℕ) {N s : ℕ}
    (hN : N * 2 ^ s = 8) (hs : N ≤ outputStride) (hsep : scratchSpace.buf ≠ output.buf) :
    ∃ m', chooseInverseTransform exactOps T N uninit qblock dequant biases m scratchSpace output
        outputStride N = some m' ∧
      ∀ y < N, ∀ x < N, (m' output.buf (output.off + (y * outputStride + x))).val =
        idct2D N 8 (fun k => boxGain s (k % 8) * boxGain s (k / 8) *
          dequantValue (qblock k) (dequant k).val (biases k).val) x y := by
  by_cases h8 : N = 8
  · -- `8`: the 8 × 8 kernel, with gain `1`
    subst h8
    obtain rfl : s = 0 := by rcases sizes_of_mul_pow hN with h | h | h | h <;> omega
    refine ⟨_, if_pos rfl, fun y hy x hx => ?_⟩
    rw [inverseTransformBlock8x8_val T uninit qblock dequant biases m scratchSpace output 8 hs
      hsep hx hy]
    simp only [boxGain_zero, one_mul]
  · obtain ⟨m', h, hv⟩ := inverseTransformBlockGeneric_box_val T uninit qblock dequant biases m
      scratchSpace output outputStride hN h8 hs hsep
    exact ⟨m', (if_neg h8).trans h, hv⟩

/-- Size 2 on the coefficients `q[k] = k`, whose box filter has gain `cos(uπ/16) cos(uπ/8)`. -/
theorem chooseInverseTransform_box_filter_two :
    (2 * 2 ^ 2 = 8 ∧ 2 ≤ 2 ∧ (⟨false, 0⟩ : Ptr Bool).buf ≠ (⟨true, 0⟩ : Ptr Bool).buf) ∧
      ∃ m', chooseInverseTransform exactOps Target.scalar 2 (fun _ => ExactFloat.zero)
          (fun k => k) (fun _ => ExactFloat.ofReal 1) (fun _ => ExactFloat.zero)
          (fun _ _ => ExactFloat.zero) ⟨false, 0⟩ ⟨true, 0⟩ 2 2 = some m' ∧
        ∀ y < 2, ∀ x < 2, (m' true (0 + (y * 2 + x))).val =
          idct2D 2 8 (fun k => boxGain 2 (k % 8) * boxGain 2 (k / 8) *
            dequantValue k (ExactFloat.ofReal 1).val ExactFloat.zero.val) x y :=
  ⟨⟨by norm_num, le_rfl, Bool.false_ne_true⟩, chooseInverseTransform_box_filter Target.scalar _ _
    _ _ _ ⟨false, 0⟩ ⟨true, 0⟩ 2 (by norm_num) le_rfl Bool.false_ne_true⟩

/-! ## The block mean -/

/-- Summing over `N` tiles of `t` consecutive indices is summing over the first `N · t`. -/
theorem sum_range_tiles (N t : ℕ) (f : ℕ → ℝ) :
    ∑ y ∈ range N, ∑ i ∈ range t, f (y * t + i) = ∑ k ∈ range (N * t), f k := by
  induction N with
  | zero => simp
  | succ N ih => rw [sum_range_succ, ih, Nat.succ_mul, sum_range_add]

/-- The `N × N` tiles of `t × t` cells cover the `N t × N t` cells once each. -/
theorem sum_sum_tiles (N t : ℕ) (F : ℕ → ℕ → ℝ) :
    ∑ y ∈ range N, ∑ x ∈ range N, ∑ i ∈ range t, ∑ j ∈ range t, F (x * t + j) (y * t + i) =
      ∑ Y ∈ range (N * t), ∑ X ∈ range (N * t), F X Y := by
  simp only [← sum_range_tiles N t]
  exact sum_congr rfl fun y _ => sum_comm

/-- The sizes of `Compute1dIDCT`, read exactly: the truncated `N × N` inverse DCT. -/
theorem inverseTransformBlockGeneric_scaled_val (T : Target) (uninit : ℕ → ExactFloat)
    (qblock : ℕ → ℤ) (dequant biases : ℕ → ExactFloat) {ρ : Type} [DecidableEq ρ]
    (m : Mem ρ ExactFloat) (scratchSpace output : Ptr ρ) (outputStride : ℕ) {N : ℕ}
    (hN : N ∈ scaledSizes) (hs : N ≤ outputStride) (hsep : scratchSpace.buf ≠ output.buf) :
    ∃ m', inverseTransformBlockGeneric exactOps T uninit qblock dequant biases m scratchSpace
        output outputStride N = some m' ∧
      ∀ y < N, ∀ x < N, (m' output.buf (output.off + (y * outputStride + x))).val =
        idct2D N (min N 8) (fun k => dequantValue (qblock k) (dequant k).val (biases k).val) x y := by
  refine ⟨_, inverseTransformBlockGeneric_scaled exactOps T uninit qblock dequant biases m
    scratchSpace output hN hs hsep, fun y hy x hx => ?_⟩
  rw [Mem.overwrite_cell (by omega)]
  simp only [hy, hx, decide_True, Bool.and_self, if_true]
  exact compute1dAt_dequantBlock8_val hN qblock dequant biases hx hy

/-- **Every size keeps the block mean.** In the exact reading, for every size from 1 to 16 the
transform `ChooseInverseTransform` installs returns, and the `N × N` outputs it stores sum to
`N²` times the dequantised DC coefficient; for every target, coefficient block, output stride of
at least `N` apart from the scratch space, and scratch contents. -/
theorem chooseInverseTransform_sum_outputs (T : Target) (uninit : ℕ → ExactFloat)
    (qblock : ℕ → ℤ) (dequant biases : ℕ → ExactFloat) {ρ : Type} [DecidableEq ρ]
    (m : Mem ρ ExactFloat) (scratchSpace output : Ptr ρ) (outputStride : ℕ) {N : ℕ}
    (hN0 : 0 < N) (hN : N ≤ 16) (hs : N ≤ outputStride) (hsep : scratchSpace.buf ≠ output.buf) :
    ∃ m', chooseInverseTransform exactOps T N uninit qblock dequant biases m scratchSpace output
        outputStride N = some m' ∧
      ∑ y ∈ range N, ∑ x ∈ range N, (m' output.buf (output.off + (y * outputStride + x))).val =
        N ^ 2 * dequantValue (qblock 0) (dequant 0).val (biases 0).val := by
  have hsum := sum_sum_idct2D (N := 8) (n := 8) (by norm_num) (by norm_num) (by norm_num)
    fun k => dequantValue (qblock k) (dequant k).val (biases k).val
  by_cases h8 : N = 8
  · -- `8`: the 8 × 8 kernel
    subst h8
    refine ⟨_, if_pos rfl, ?_⟩
    rw [← hsum]
    exact sum_congr rfl fun y hy => sum_congr rfl fun x hx => inverseTransformBlock8x8_val T uninit
      qblock dequant biases m scratchSpace output 8 hs hsep (mem_range.1 hx) (mem_range.1 hy)
  have hgen : chooseInverseTransform exactOps T N uninit qblock dequant biases m scratchSpace
      output outputStride N = inverseTransformBlockGeneric exactOps T uninit qblock dequant
        biases m scratchSpace output outputStride N := if_neg h8
  rw [hgen]
  by_cases hN' : N ∈ scaledSizes
  · -- the sizes of `Compute1dIDCT`
    obtain ⟨m', h, hv⟩ := inverseTransformBlockGeneric_scaled_val T uninit qblock dequant biases
      m scratchSpace output outputStride hN' hs hsep
    refine ⟨m', h, ?_⟩
    rw [← sum_sum_idct2D (n := min N 8) hN0 (by omega) (by omega)
      fun k => dequantValue (qblock k) (dequant k).val (biases k).val]
    exact sum_congr rfl fun y hy => sum_congr rfl fun x hx => hv y (mem_range.1 hy) x
      (mem_range.1 hx)
  obtain rfl | rfl | rfl : N = 1 ∨ N = 2 ∨ N = 4 := by
    simp only [scaledSizes, List.mem_cons, List.mem_singleton, List.not_mem_nil, or_false] at hN'
    omega
  · -- `1`: the DC coefficient
    obtain ⟨m', h, hv⟩ := inverseTransformBlockGeneric_one_val T uninit qblock dequant biases m
      scratchSpace output (s := outputStride)
    refine ⟨m', h, ?_⟩
    simp [hv]
  · -- `2`: the means of the 4 × 4 tiles
    obtain ⟨m', h, hv⟩ := inverseTransformBlockGeneric_two_val T uninit qblock dequant biases m
      scratchSpace output hsep hs
    refine ⟨m', h, ?_⟩
    rw [sum_congr rfl fun y hy => sum_congr rfl fun x hx => hv y (mem_range.1 hy) x
      (mem_range.1 hx)]
    simp only [← mul_sum, sum_sum_tiles 2 4, hsum]
    push_cast
    ring
  · -- `4`: the means of the 2 × 2 tiles
    obtain ⟨m', h, hv⟩ := inverseTransformBlockGeneric_four_val T uninit qblock dequant biases m
      scratchSpace output hsep hs
    refine ⟨m', h, ?_⟩
    rw [sum_congr rfl fun y hy => sum_congr rfl fun x hx => hv y (mem_range.1 hy) x
      (mem_range.1 hx)]
    simp only [← mul_sum, sum_sum_tiles 4 2, hsum]
    push_cast
    ring

/-- Size 3 on the coefficients `q[k] = k`: the nine outputs sum to `9 · q[0] = 0`. -/
theorem chooseInverseTransform_sum_outputs_three :
    (0 < 3 ∧ 3 ≤ 16 ∧ 3 ≤ 3 ∧ (⟨false, 0⟩ : Ptr Bool).buf ≠ (⟨true, 0⟩ : Ptr Bool).buf) ∧
      ∃ m', chooseInverseTransform exactOps Target.scalar 3 (fun _ => ExactFloat.zero)
          (fun k => k) (fun _ => ExactFloat.ofReal 1) (fun _ => ExactFloat.zero)
          (fun _ _ => ExactFloat.zero) ⟨false, 0⟩ ⟨true, 0⟩ 3 3 = some m' ∧
        ∑ y ∈ range 3, ∑ x ∈ range 3, (m' true (0 + (y * 3 + x))).val =
          (3 : ℕ) ^ 2 * dequantValue 0 (ExactFloat.ofReal 1).val ExactFloat.zero.val :=
  ⟨⟨by norm_num, by norm_num, le_rfl, Bool.false_ne_true⟩, chooseInverseTransform_sum_outputs
    Target.scalar _ _ _ _ _ ⟨false, 0⟩ ⟨true, 0⟩ 3 (by norm_num) (by norm_num) le_rfl
    Bool.false_ne_true⟩

end

end JpegliIdct
