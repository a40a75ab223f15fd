import JpegliIdct.Exact
import JpegliIdct.Butterfly
import JpegliIdct.ScaledIdct

/-!
# The 8 × 8 kernel and the box averages, read exactly

In the exact reading, `InverseTransformBlock8x8` stores the separable 8 × 8 inverse DCT of the
dequantised block to the output and writes no other output element
(`inverseTransformBlock8x8_computes_idct2D`). The proof reads the two passes of
`ComputeScaledIDCT` as transforms of the rows of `X` and then of the rows of the result
(`idctRows_idctRows_val`); each is `IDCT1DImpl<8>` on a column, which `idctCol_real` computes.

For the scaled sizes `1`, `2` and `4`, `InverseTransformBlockGeneric` stores the mean of each
`8/N × 8/N` tile of that 8 × 8 output (`inverseTransformBlockGeneric_box_mean`). For `2` and `4`
the tiles are the ones `ComputeScaledIDCT` leaves in `block2`; for `1` the code returns the
dequantised DC coefficient, which is the mean of all 64 outputs because every other
coefficient sums to zero over them (`sum_sum_idct2D`).
-/

namespace JpegliIdct

open Real Finset

noncomputable section

/-- `idctRows` read exactly: each row of `X` transformed by the 8-point inverse DCT. -/
theorem idctRows_val (X : ℕ → ℕ → ExactFloat) {r c : ℕ} (hr : r < 8) :
    (idctRows exactOps.toFloatArith X r c).val = dct3 8 8 (fun u => (X c u).val) r := by
  rw [idctRows, ← exactVal_apply, idctCol_map _ exactVal]
  exact idctCol_real 3 _ hr

/-- The two passes of `ComputeScaledIDCT`, read exactly: the rows, then the columns. -/
theorem idctRows_idctRows_val (X : ℕ → ℕ → ExactFloat) {x y : ℕ} (hx : x < 8) (hy : y < 8) :
    (idctRows exactOps.toFloatArith (idctRows exactOps.toFloatArith X) y x).val =
      dct3 8 8 (fun v => dct3 8 8 (fun u => (X v u).val) x) y := by
  rw [idctRows_val _ hy]
  exact dct3_congr (fun v _ => idctRows_val X hx) y

/-- Output `(y, x)` of the two passes on the dequantised block, read exactly. -/
theorem idctRows_dequantBlock8_val (qblock : ℕ → ℤ) (dequant biases : ℕ → ExactFloat) {x y : ℕ}
    (hx : x < 8) (hy : y < 8) :
    (idctRows exactOps.toFloatArith (idctRows exactOps.toFloatArith
      (dequantBlock8 exactOps qblock dequant biases)) y x).val =
      idct2D 8 8 (fun k => dequantValue (qblock k) (dequant k).val (biases k).val) x y := by
  rw [idctRows_idctRows_val _ hx hy, idct2D_eq_rows]
  refine dct3_congr (fun v _ => dct3_congr (fun u _ => ?_) x) y
  rw [dequantBlock8, dequantLane_exact, Nat.mul_comm v 8]

/-- Output `(y, x)` of `InverseTransformBlock8x8`, read exactly. -/
theorem inverseTransformBlock8x8_val (T : Target) (uninit : ℕ → ExactFloat) (qblock : ℕ → ℤ)
    (dequant biases : ℕ → ExactFloat) {ρ : Type} [DecidableEq ρ] (m : Mem ρ ExactFloat)
    (scratchSpace output : Ptr ρ) {s : ℕ} (dctsize : ℕ) (hs : 8 ≤ s)
    (hsep : scratchSpace.buf ≠ output.buf) {x y : ℕ} (hx : x < 8) (hy : y < 8) :
    (inverseTransformBlock8x8 exactOps T uninit qblock dequant biases m scratchSpace output s
      dctsize output.buf (output.off + (y * s + x))).val =
      idct2D 8 8 (fun k => dequantValue (qblock k) (dequant k).val (biases k).val) x y := by
  obtain ⟨M, -, heq⟩ :=
    inverseTransformBlock8x8_eq exactOps T uninit qblock dequant biases m scratchSpace output hs
      hsep dctsize
  simp only [heq, Mem.overwrite_cell (show x < s by omega), hy, hx, decide_True, Bool.and_self,
    if_true]
  exact idctRows_dequantBlock8_val qblock dequant biases hx hy

/-- **`InverseTransformBlock8x8` computes the 8 × 8 inverse DCT of the dequantised block.** In
the exact reading, for every coefficient block, every pair of tables, every target, every output
stride of at least 8 and any scratch contents, output `(y, x)` is
`Σ_{u, v < 8} a(u) a(v) cos((2x + 1) u π / 16) cos((2y + 1) v π / 16) D[8v + u]`, with `D` the
dequantised coefficients, and no other element of the output buffer changes. -/
theorem inverseTransformBlock8x8_computes_idct2D (T : Target) (uninit : ℕ → ExactFloat)
    (qblock : ℕ → ℤ) (dequant biases : ℕ → ExactFloat) {ρ : Type} [DecidableEq ρ]
    (m : Mem ρ ExactFloat) (scratchSpace output : Ptr ρ) (outputStride dctsize : ℕ)
    (hs : 8 ≤ outputStride) (hsep : scratchSpace.buf ≠ output.buf) :
    let out := inverseTransformBlock8x8 exactOps T uninit qblock dequant biases m scratchSpace
      output outputStride dctsize output.buf
    (∀ y < 8, ∀ x < 8, (out (output.off + (y * outputStride + x))).val =
      idct2D 8 8 (fun k => dequantValue (qblock k) (dequant k).val (biases k).val) x y) ∧
    ∀ o, (∀ y < 8, ∀ x < 8, o ≠ output.off + (y * outputStride + x)) → out o = m output.buf o := by
  refine ⟨fun y hy x hx => inverseTransformBlock8x8_val T uninit qblock dequant biases m
    scratchSpace output dctsize hs hsep hx hy, fun o ho => ?_⟩
  obtain ⟨M, hM, heq⟩ :=
    inverseTransformBlock8x8_eq exactOps T uninit qblock dequant biases m scratchSpace output hs
      hsep dctsize
  simp only [heq]
  rw [Mem.overwrite_of_not_sel (by omega) (fun r c _ h => by
    simp only [Bool.and_eq_true, decide_eq_true_eq] at h
    exact ho r h.1 c h.2), hM _ hsep.symm]

/-- The 8 × 8 kernel on the coefficients `q[k] = k` with unit multipliers and zero biases. -/
theorem inverseTransformBlock8x8_computes_idct2D_ramp :
    (8 ≤ 8 ∧ (⟨false, 0⟩ : Ptr Bool).buf ≠ (⟨true, 0⟩ : Ptr Bool).buf) ∧
      let out := inverseTransformBlock8x8 exactOps Target.scalar (fun _ => ExactFloat.zero)
        (fun k => k) (fun _ => ExactFloat.ofReal 1) (fun _ => ExactFloat.zero)
        (fun _ _ => ExactFloat.zero) ⟨false, 0⟩ ⟨true, 0⟩ 8 8 true
      (∀ y < 8, ∀ x < 8, (out (0 + (y * 8 + x))).val =
        idct2D 8 8 (fun k => dequantValue k (ExactFloat.ofReal 1).val ExactFloat.zero.val) x y) ∧
      ∀ o, (∀ y < 8, ∀ x < 8, o ≠ 0 + (y * 8 + x)) → out o = ExactFloat.zero :=
  ⟨⟨le_rfl, Bool.false_ne_true⟩, inverseTransformBlock8x8_computes_idct2D Target.scalar _ _ _ _ _
    ⟨false, 0⟩ ⟨true, 0⟩ 8 8 le_rfl Bool.false_ne_true⟩

/-! ## The other scaled sizes -/

/-- One output of `Compute1dIDCT`, read exactly. -/
theorem compute1dAt_val {N : ℕ} (hN : N ∈ scaledSizes) (x : ℕ → ExactFloat) {i : ℕ} (hi : i < N) :
    (compute1dAt exactOps.toFloatArith N x i).val = idctSum N (min N 8) (fun u => (x u).val) i := by
  have hmap := tableIDCT_map exactVal N x
  rw [tableIDCT_real (two_le_of_mem_scaledSizes hN)] at hmap
  rw [compute1dAt, ← exactVal_apply, ← List.getD_map (f := exactVal.toFun), hmap]
  simp [List.getElem?_range hi, Function.comp_def]

/-- Output `(y, x)` of the two passes of `Compute1dIDCT` on the dequantised block, read
exactly: the columns, then the rows. -/
theorem compute1dAt_dequantBlock8_val {N : ℕ} (hN : N ∈ scaledSizes) (qblock : ℕ → ℤ)
    (dequant biases : ℕ → ExactFloat) {x y : ℕ} (hx : x < N) (hy : y < N) :
    (compute1dAt exactOps.toFloatArith N (fun u => compute1dAt exactOps.toFloatArith N
      (fun v => dequantBlock8 exactOps qblock dequant biases v u) y) x).val =
      idct2D N (min N 8) (fun k => dequantValue (qblock k) (dequant k).val (biases k).val) x y := by
  have h2 := two_le_of_mem_scaledSizes hN
  rw [compute1dAt_val hN _ hx, idctSum_congr (fun u _ => compute1dAt_val hN _ hy)
    (compute1dAt_val hN _ hy), idctSum_eq_dct3 (by omega), idct2D_eq_cols]
  refine dct3_congr (fun u _ => ?_) x
  rw [idctSum_eq_dct3 (by omega)]
  refine dct3_congr (fun v _ => ?_) y
  rw [dequantBlock8, dequantLane_exact, Nat.mul_comm v 8]

/-- **At every other scaled size the generic kernel computes the truncated N × N inverse DCT.**
In the exact reading, for every size `N` that `Compute1dIDCT` handles, every coefficient block,
every pair of tables, every output stride of at least `N` and any scratch contents and local
arrays, `InverseTransformBlockGeneric` returns without aborting, stores to output `(y, x)`
`Σ_{u, v < min(N, 8)} a(u) a(v) cos((2x + 1) u π / 2N) cos((2y + 1) v π / 2N) D[8v + u]`, and
changes no other element of the output buffer. -/
theorem inverseTransformBlockGeneric_computes_idct2D (T : Target) (uninit : ℕ → ExactFloat)
    (qblock : ℕ → ℤ) (dequant biases : ℕ → ExactFloat) {ρ : Type} [DecidableEq ρ]
    (m : Mem ρ ExactFloat) (scratchSpace output : Ptr ρ) (outputStride : ℕ) {N : ℕ}
    (hN : N ∈ scaledSizes) (hs : N ≤ outputStride) (hsep : scratchSpace.buf ≠ output.buf) :
    ∃ m', inverseTransformBlockGeneric exactOps T uninit qblock dequant biases m scratchSpace
        output outputStride N = some m' ∧
      (∀ y < N, ∀ x < N, (m' output.buf (output.off + (y * outputStride + x))).val =
        idct2D N (min N 8) (fun k => dequantValue (qblock k) (dequant k).val (biases k).val) x y) ∧
      ∀ o, (∀ y < N, ∀ x < N, o ≠ output.off + (y * outputStride + x)) →
        m' output.buf o = m output.buf o := by
  have h2 := two_le_of_mem_scaledSizes hN
  refine ⟨_, inverseTransformBlockGeneric_scaled exactOps T uninit qblock dequant biases m
    scratchSpace output hN hs hsep, fun y hy x hx => ?_, fun o ho => ?_⟩
  · rw [Mem.overwrite_cell (by omega)]
    simp only [hy, hx, decide_True, Bool.and_self, if_true]
    exact compute1dAt_dequantBlock8_val hN qblock dequant biases hx hy
  · rw [Mem.overwrite_of_not_sel (by omega) (fun r c _ h => by
      simp only [Bool.and_eq_true, decide_eq_true_eq] at h
      exact ho r h.1 c h.2), Mem.overwrite_ne (by exact hsep.symm), Mem.fill_ne hsep.symm]

/-- The generic kernel at size 5 on the coefficients `q[k] = k`. -/
theorem inverseTransformBlockGeneric_computes_idct2D_five :
    (5 ∈ scaledSizes ∧ 5 ≤ 5 ∧ (⟨false, 0⟩ : Ptr Bool).buf ≠ (⟨true, 0⟩ : Ptr Bool).buf) ∧
      ∃ m', inverseTransformBlockGeneric exactOps Target.scalar (fun _ => ExactFloat.zero)
          (fun k => k) (fun _ => ExactFloat.ofReal 1) (fun _ => ExactFloat.zero)
          (fun _ _ => ExactFloat.zero) ⟨false, 0⟩ ⟨true, 0⟩ 5 5 = some m' ∧
        (∀ y < 5, ∀ x < 5, (m' true (0 + (y * 5 + x))).val =
          idct2D 5 (min 5 8) (fun k => dequantValue k (ExactFloat.ofReal 1).val
            ExactFloat.zero.val) x y) ∧
        ∀ o, (∀ y < 5, ∀ x < 5, o ≠ 0 + (y * 5 + x)) → m' true o = ExactFloat.zero :=
  ⟨⟨by decide, le_rfl, Bool.false_ne_true⟩, inverseTransformBlockGeneric_computes_idct2D
    Target.scalar _ _ _ _ _ ⟨false, 0⟩ ⟨true, 0⟩ 5 (by decide) le_rfl Bool.false_ne_true⟩

/-! ## The scaled sizes 1, 2 and 4 -/

section Box

variable (T : Target) (uninit : ℕ → ExactFloat) (qblock : ℕ → ℤ)
  (dequant biases : ℕ → ExactFloat) {ρ : Type} [DecidableEq ρ] (m : Mem ρ ExactFloat)
  (scratchSpace output : Ptr ρ) {s : ℕ} (hsep : scratchSpace.buf ≠ output.buf)
include hsep

omit hsep in
/-- `dctsize == 1`: the dequantised DC coefficient. -/
theorem inverseTransformBlockGeneric_one_val :
    ∃ m', inverseTransformBlockGeneric exactOps T uninit qblock dequant biases m scratchSpace
        output s 1 = some m' ∧
      (m' output.buf output.off).val = dequantValue (qblock 0) (dequant 0).val (biases 0).val := by
  refine ⟨_, by simp only [inverseTransformBlockGeneric, dequantBlock_eq, if_true]; rfl, ?_⟩
  simp only [write, store, Mem.fill, true_and, le_refl, Nat.lt_add_one, Nat.sub_self,
    Nat.lt_add_of_pos_right (show 0 < 64 by decide), if_true]
  exact dequantLane_exact _ _ _

/-- `dctsize == 4`: the quarter of each 2 × 2 tile of the 8 × 8 transform. -/
theorem inverseTransformBlockGeneric_four_val (hs : 4 ≤ s) :
    ∃ m', inverseTransformBlockGeneric exactOps T uninit qblock dequant biases m scratchSpace
        output s 4 = some m' ∧
      ∀ y < 4, ∀ x < 4, (m' output.buf (output.off + (y * s + x))).val =
        ((4 : ℕ) / 8 : ℝ) ^ 2 * ∑ i ∈ range 2, ∑ j ∈ range 2,
          idct2D 8 8 (fun k => dequantValue (qblock k) (dequant k).val (biases k).val)
            (x * 2 + j) (y * 2 + i) := by
  obtain ⟨M, hM, heq⟩ := inverseTransformBlockGeneric_box exactOps T uninit qblock dequant biases m
    scratchSpace output s (N := 4) (Or.inr rfl)
  refine ⟨_, heq, fun y hy x hx => ?_⟩
  have hb : ∀ l, l / 8 < 2 → l % 8 < 2 →
      ExactFloat.val (load M (scratchSpace + 2 * 64 + (16 * y + 2 * x)) l) =
        idct2D 8 8 (fun k => dequantValue (qblock k) (dequant k).val (biases k).val)
          (x * 2 + l % 8) (y * 2 + l / 8) := fun l hl1 hl2 => by
    rw [hM _ _ (y * 2 + l / 8) (x * 2 + l % 8) (by omega) (by omega) (by omega),
      idctRows_dequantBlock8_val _ _ _ (by omega) (by omega)]
  rw [if_pos rfl, boxAverage4_eq _ _ _ _ (by simpa using hsep) hs, Mem.overwrite_cell (by omega)]
  simp (disch := omega) only [hy, hx, decide_True, Bool.and_self, if_true, val_scalar_mul,
    val_scalar_add, val_scalar_lit, hb, Nat.reduceDiv, Nat.reduceMod]
  simp [sum_range_succ, Const.exact]
  ring

/-- `dctsize == 2`: the sixteenth of each 4 × 4 tile of the 8 × 8 transform. -/
theorem inverseTransformBlockGeneric_two_val (hs : 2 ≤ s) :
    ∃ m', inverseTransformBlockGeneric exactOps T uninit qblock dequant biases m scratchSpace
        output s 2 = some m' ∧
      ∀ y < 2, ∀ x < 2, (m' output.buf (output.off + (y * s + x))).val =
        ((2 : ℕ) / 8 : ℝ) ^ 2 * ∑ i ∈ range 4, ∑ j ∈ range 4,
          idct2D 8 8 (fun k => dequantValue (qblock k) (dequant k).val (biases k).val)
            (x * 4 + j) (y * 4 + i) := by
  obtain ⟨M, hM, heq⟩ := inverseTransformBlockGeneric_box exactOps T uninit qblock dequant biases m
    scratchSpace output s (N := 2) (Or.inl rfl)
  refine ⟨_, heq, fun y hy x hx => ?_⟩
  have hb : ∀ l, l / 8 < 4 → l % 8 < 4 →
      ExactFloat.val (load M (scratchSpace + 2 * 64 + (32 * y + 4 * x)) l) =
        idct2D 8 8 (fun k => dequantValue (qblock k) (dequant k).val (biases k).val)
          (x * 4 + l % 8) (y * 4 + l / 8) := fun l hl1 hl2 => by
    rw [hM _ _ (y * 4 + l / 8) (x * 4 + l % 8) (by omega) (by omega) (by omega),
      idctRows_dequantBlock8_val _ _ _ (by omega) (by omega)]
  rw [if_neg (by decide), boxAverage2_eq _ _ _ _ (by simpa using hsep) hs,
    Mem.overwrite_cell (by omega)]
  simp (disch := omega) only [hy, hx, decide_True, Bool.and_self, if_true, val_scalar_mul,
    val_scalar_add, val_scalar_lit, hb, Nat.reduceDiv, Nat.reduceMod]
  simp [sum_range_succ, Const.exact]
  ring

end Box

/-- **For the scaled sizes 1, 2 and 4 the generic kernel stores the box means of the 8 × 8
kernel's output.** In the exact reading, let `O8` be the block that `InverseTransformBlock8x8`
stores for the same coefficients and tables, on any memory and any output of stride at least
8 apart from its scratch space. Then `InverseTransformBlockGeneric` at size `N` returns, and
stores to output `(y, x)` the mean `(N/8)² Σ_{i, j < 8/N} O8[y·8/N + i][x·8/N + j]` of its tile,
for every output stride of at least `N` and any scratch contents. For `N = 1` the code returns
the dequantised DC coefficient without a transform. -/
theorem inverseTransformBlockGeneric_box_mean (T : Target) (uninit : ℕ → ExactFloat)
    (qblock : ℕ → ℤ) (dequant biases : ℕ → ExactFloat) {ρ : Type} [DecidableEq ρ]
    (m : Mem ρ ExactFloat) (scratchSpace output : Ptr ρ) (outputStride : ℕ)
    (m₈ : Mem ρ ExactFloat) (scratch₈ output₈ : Ptr ρ) (stride₈ : ℕ) (hs₈ : 8 ≤ stride₈)
    (hsep₈ : scratch₈.buf ≠ output₈.buf) {N : ℕ} (hN : N = 1 ∨ N = 2 ∨ N = 4)
    (hs : N ≤ outputStride) (hsep : scratchSpace.buf ≠ output.buf) :
    let O8 := fun y x => (inverseTransformBlock8x8 exactOps T uninit qblock dequant biases m₈
      scratch₈ output₈ stride₈ 8 output₈.buf (output₈.off + (y * stride₈ + x))).val
    ∃ m', inverseTransformBlockGeneric exactOps T uninit qblock dequant biases m scratchSpace
        output outputStride N = some m' ∧
      ∀ y < N, ∀ x < N, (m' output.buf (output.off + (y * outputStride + x))).val =
        ((N : ℝ) / 8) ^ 2 * ∑ i ∈ range (8 / N), ∑ j ∈ range (8 / N),
          O8 (y * (8 / N) + i) (x * (8 / N) + j) := by
  intro O8
  have hO8 : ∀ y < 8, ∀ x < 8,
      O8 y x = idct2D 8 8 (fun k => dequantValue (qblock k) (dequant k).val (biases k).val) x y :=
    fun y hy x hx => inverseTransformBlock8x8_val T uninit qblock dequant biases m₈ scratch₈
      output₈ 8 hs₈ hsep₈ hx hy
  -- a `t × t` tile of the 8 × 8 output, read through `hO8`
  have htile : ∀ t y x, y * t + t ≤ 8 → x * t + t ≤ 8 →
      ∑ i ∈ range t, ∑ j ∈ range t, idct2D 8 8
        (fun k => dequantValue (qblock k) (dequant k).val (biases k).val) (x * t + j) (y * t + i) =
      ∑ i ∈ range t, ∑ j ∈ range t, O8 (y * t + i) (x * t + j) :=
    fun t y x hy hx => sum_congr rfl (fun i hi => sum_congr rfl (fun j hj =>
      (hO8 _ (by simp at hi; omega) _ (by simp at hj; omega)).symm))
  rcases hN with rfl | rfl | rfl
  · obtain ⟨m', h, hv⟩ := inverseTransformBlockGeneric_one_val T uninit qblock dequant biases m
      scratchSpace output (s := outputStride)
    refine ⟨m', h, fun y hy x hx => ?_⟩
    obtain ⟨rfl, rfl⟩ : y = 0 ∧ x = 0 := ⟨by omega, by omega⟩
    rw [← htile _ 0 0 (by norm_num) (by norm_num)]
    simp only [Nat.zero_mul, Nat.zero_add, Nat.add_zero, hv, Nat.reduceDiv]
    rw [sum_sum_idct2D (by norm_num) (by norm_num) (by norm_num)]
    norm_num
    ring
  · obtain ⟨m', h, hv⟩ := inverseTransformBlockGeneric_two_val T uninit qblock dequant biases m
      scratchSpace output hsep hs
    exact ⟨m', h, fun y hy x hx =>
      (hv y hy x hx).trans (congrArg _ (htile 4 y x (by omega) (by omega)))⟩
  · obtain ⟨m', h, hv⟩ := inverseTransformBlockGeneric_four_val T uninit qblock dequant biases m
      scratchSpace output hsep hs
    exact ⟨m', h, fun y hy x hx =>
      (hv y hy x hx).trans (congrArg _ (htile 2 y x (by omega) (by omega)))⟩

/-- The box means at size 4 on the coefficients `q[k] = k`. -/
theorem inverseTransformBlockGeneric_box_mean_four :
    (8 ≤ 8 ∧ (⟨false, 0⟩ : Ptr Bool).buf ≠ (⟨true, 0⟩ : Ptr Bool).buf ∧
      ((4 = 1 ∨ 4 = 2 ∨ 4 = 4) ∧ 4 ≤ 4) ∧ (⟨false, 0⟩ : Ptr Bool).buf ≠ (⟨true, 0⟩ : Ptr Bool).buf) ∧
      let O8 := fun y x => (inverseTransformBlock8x8 exactOps Target.scalar
        (fun _ => ExactFloat.zero) (fun k => k) (fun _ => ExactFloat.ofReal 1)
        (fun _ => ExactFloat.zero) (fun _ _ => ExactFloat.zero) ⟨false, 0⟩ ⟨true, 0⟩ 8 8 true
        (0 + (y * 8 + x))).val
      ∃ m', inverseTransformBlockGeneric exactOps Target.scalar (fun _ => ExactFloat.zero)
          (fun k => k) (fun _ => ExactFloat.ofReal 1) (fun _ => ExactFloat.zero)
          (fun _ _ => ExactFloat.zero) ⟨false, 0⟩ ⟨true, 0⟩ 4 4 = some m' ∧
        ∀ y < 4, ∀ x < 4, (m' true (0 + (y * 4 + x))).val =
          ((4 : ℕ) / 8 : ℝ) ^ 2 * ∑ i ∈ range (8 / 4), ∑ j ∈ range (8 / 4),
            O8 (y * (8 / 4) + i) (x * (8 / 4) + j) :=
  ⟨⟨le_rfl, Bool.false_ne_true, ⟨by decide, le_rfl⟩, Bool.false_ne_true⟩,
    inverseTransformBlockGeneric_box_mean Target.scalar _ _ _ _ _ ⟨false, 0⟩ ⟨true, 0⟩ 4 _
      ⟨false, 0⟩ ⟨true, 0⟩ 8 le_rfl Bool.false_ne_true (by decide) le_rfl Bool.false_ne_true⟩

end

end JpegliIdct
