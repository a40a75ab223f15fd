import JpegliIdct.Sizes

/-!
# Flips and transposes of the coefficient block

Lossless rotations of a JPEG image act on the coefficients alone: flipping the image left to
right changes the sign of the coefficients of odd column frequency, flipping it top to bottom
those of odd row frequency, and transposing it transposes the block (and its quantisation
tables). In the exact reading the transforms `ChooseInverseTransform` installs commute with all
three at every size: the flipped block decodes to the mirrored output
(`chooseInverseTransform_flip`), the transposed block to the transposed output
(`chooseInverseTransform_transpose`). So decoding a losslessly rotated image at any scale gives
the rotated decoded image.

Both rest on one statement of what every size computes (`chooseInverseTransform_val`): the
`N`-point inverse DCT of the first `installedCount N` coefficients per direction, weighted by the
separable `installedGain N`; and on the matching symmetries of `idct2D` (`idct2D_flip`,
`idct2D_transpose`).
-/

namespace JpegliIdct

open Real Finset

noncomputable section

/-! ## What every size computes -/

/-- The weight of frequency `u` in the transform installed for `N`: the gain of the box filter of
width `8 / N` for the box sizes `4`, `2` and `1`, and `1` for the others. -/
def installedGain (N u : ℕ) : ℝ :=
  if N = 4 then boxGain 1 u else if N = 2 then boxGain 2 u else if N = 1 then boxGain 3 u else 1

/-- How many coefficients per direction the transform installed for `N` uses: all 8 for the
box sizes, the first `min(N, 8)` otherwise. -/
def installedCount (N : ℕ) : ℕ := if N = 1 ∨ N = 2 ∨ N = 4 then 8 else min N 8

theorem installedCount_le (N : ℕ) : installedCount N ≤ 8 := by
  unfold installedCount
  split_ifs <;> omega

/-- In the exact reading, every size from 1 to 16 returns and stores to output `(y, x)` the
weighted `N × N` inverse DCT. -/
theorem chooseInverseTransform_val (T : Target) (uninit : ℕ → ExactFloat) (qblock : ℕ → ℤ)
    (dequant biases : ℕ → ExactFloat) {ρ : Type} [DecidableEq ρ] (m : Mem ρ ExactFloat)
    (scratchSpace output : Ptr ρ) (outputStride : ℕ) {N : ℕ} (hN0 : 0 < N) (hN : N ≤ 16)
    (hs : N ≤ outputStride) (hsep : scratchSpace.buf ≠ output.buf) :
    ∃ m', chooseInverseTransform exactOps T N uninit qblock dequant biases m scratchSpace output
        outputStride N = some m' ∧
      ∀ y < N, ∀ x < N, (m' output.buf (output.off + (y * outputStride + x))).val =
        idct2D N (installedCount N) (fun k => installedGain N (k % 8) * installedGain N (k / 8) *
          dequantValue (qblock k) (dequant k).val (biases k).val) x y := by
  by_cases hbox : N = 1 ∨ N = 2 ∨ N = 4
  · -- the box sizes: `N · 2^s = 8`
    obtain ⟨s, hNs, hgain⟩ : ∃ s, N * 2 ^ s = 8 ∧ ∀ u, installedGain N u = boxGain s u := by
      rcases hbox with rfl | rfl | rfl
      · exact ⟨3, rfl, fun u => by simp [installedGain]⟩
      · exact ⟨2, rfl, fun u => by simp [installedGain]⟩
      · exact ⟨1, rfl, fun u => by simp [installedGain]⟩
    obtain ⟨m', h, hv⟩ := inverseTransformBlockGeneric_box_val T uninit qblock dequant biases m
      scratchSpace output outputStride hNs (by omega) hs hsep
    refine ⟨m', (if_neg (by omega)).trans h, fun y hy x hx => ?_⟩
    simp only [hv y hy x hx, installedCount, if_pos hbox, hgain]
  have hgain : ∀ u, installedGain N u = 1 := fun u => by
    simp only [installedGain]
    rw [if_neg (by omega), if_neg (by omega), if_neg (by omega)]
  have hcount : installedCount N = min N 8 := if_neg hbox
  simp only [hgain, hcount, one_mul]
  by_cases h8 : N = 8
  · -- `8`: the 8 × 8 kernel
    subst h8
    exact ⟨_, if_pos rfl, fun y hy x hx => inverseTransformBlock8x8_val T uninit qblock dequant
      biases m scratchSpace output 8 hs hsep hx hy⟩
  · -- the sizes of `Compute1dIDCT`
    have hN' : N ∈ scaledSizes := by
      simp only [scaledSizes, List.mem_cons, List.mem_singleton, List.not_mem_nil, or_false]
      omega
    obtain ⟨m', h, hv⟩ := inverseTransformBlockGeneric_scaled_val T uninit qblock dequant biases
      m scratchSpace output outputStride hN' hs hsep
    exact ⟨m', (if_neg h8).trans h, hv⟩

/-! ## Flips -/

/-- The sign a flip gives the coefficients of frequency `u`: odd frequencies change sign. -/
def flipSign (flip : Bool) (u : ℕ) : ℤ := if flip ∧ u % 2 = 1 then -1 else 1

/-- The coefficient block of the image flipped left to right (`fx`) and top to bottom (`fy`). -/
def flipBlock (fx fy : Bool) (qblock : ℕ → ℤ) (k : ℕ) : ℤ :=
  flipSign fx (k % 8) * flipSign fy (k / 8) * qblock k

/-- Output position `x` of `N`, mirrored if `flip`. -/
def mirror (flip : Bool) (N x : ℕ) : ℕ := if flip then N - 1 - x else x

theorem flipSign_eq (flip : Bool) (u : ℕ) : flipSign flip u = 1 ∨ flipSign flip u = -1 := by
  unfold flipSign
  split_ifs <;> simp

theorem mirror_lt {flip : Bool} {N x : ℕ} (hx : x < N) : mirror flip N x < N := by
  unfold mirror
  split_ifs <;> omega

/-- The mirrored output sees coefficient `u` with the sign of the flip. -/
theorem cos_angle_mirror_flip (flip : Bool) {N x : ℕ} (hx : x < N) (u : ℕ) :
    Real.cos (angle N (mirror flip N x) u) = flipSign flip u * Real.cos (angle N x u) := by
  cases flip
  · simp [mirror, flipSign]
  · rw [mirror, if_pos rfl, cos_angle_mirror hx]
    rcases Nat.even_or_odd u with ⟨k, rfl⟩ | ⟨k, rfl⟩
    · simp [flipSign, pow_mul, show (k + k) % 2 = 0 by omega]
    · simp [flipSign, pow_succ, pow_mul, show (2 * k + 1) % 2 = 1 by omega]

/-- Dequantisation commutes with a sign: the bias moves towards zero either way. -/
theorem dequantValue_sign {ε : ℤ} (hε : ε = 1 ∨ ε = -1) (q : ℤ) (mul bias : ℝ) :
    dequantValue (ε * q) mul bias = ε * dequantValue q mul bias := by
  rcases hε with rfl | rfl
  · simp
  · simp only [dequantValue, neg_one_mul, neg_eq_zero, Int.sign_neg, Int.cast_neg, Int.cast_one]
    split_ifs <;> ring

/-- The transform of the flipped block is the mirrored transform. -/
theorem idct2D_flip (fx fy : Bool) {N n : ℕ} (hn : n ≤ 8) (D : ℕ → ℝ) {x y : ℕ} (hx : x < N)
    (hy : y < N) :
    idct2D N n (fun k => (flipSign fx (k % 8) * flipSign fy (k / 8) : ℝ) * D k) x y =
      idct2D N n D (mirror fx N x) (mirror fy N y) := by
  refine sum_congr rfl fun v hv => sum_congr rfl fun u hu => ?_
  have hu8 : u < 8 := by simp at hu; omega
  rw [cos_angle_mirror_flip fx hx, cos_angle_mirror_flip fy hy]
  simp only [show (8 * v + u) % 8 = u by omega, show (8 * v + u) / 8 = v by omega]
  ring

/-- **Flipping the coefficient block flips the output, at every size.** In the exact reading,
for every size from 1 to 16, target, coefficient block, tables, memory and output stride of at
least `N` apart from the scratch space: the transform `ChooseInverseTransform` installs returns
on the block and on the block flipped left to right (`fx`) and top to bottom (`fy`), and output
`(y, x)` of the flipped block is output `(mirror fy N y, mirror fx N x)` of the block. -/
theorem chooseInverseTransform_flip (T : Target) (uninit : ℕ → ExactFloat) (qblock : ℕ → ℤ)
    (dequant biases : ℕ → ExactFloat) {ρ : Type} [DecidableEq ρ] (m : Mem ρ ExactFloat)
    (scratchSpace output : Ptr ρ) (outputStride : ℕ) (fx fy : Bool) {N : ℕ} (hN0 : 0 < N)
    (hN : N ≤ 16) (hs : N ≤ outputStride) (hsep : scratchSpace.buf ≠ output.buf) :
    ∃ m₁ m₂, chooseInverseTransform exactOps T N uninit qblock dequant biases m scratchSpace
        output outputStride N = some m₁ ∧
      chooseInverseTransform exactOps T N uninit (flipBlock fx fy qblock) dequant biases m
        scratchSpace output outputStride N = some m₂ ∧
      ∀ y < N, ∀ x < N, (m₂ output.buf (output.off + (y * outputStride + x))).val =
        (m₁ output.buf (output.off + (mirror fy N y * outputStride + mirror fx N x))).val := by
  obtain ⟨m₁, h₁, hv₁⟩ := chooseInverseTransform_val T uninit qblock dequant biases m
    scratchSpace output outputStride hN0 hN hs hsep
  obtain ⟨m₂, h₂, hv₂⟩ := chooseInverseTransform_val T uninit (flipBlock fx fy qblock) dequant
    biases m scratchSpace output outputStride hN0 hN hs hsep
  refine ⟨m₁, m₂, h₁, h₂, fun y hy x hx => ?_⟩
  rw [hv₂ y hy x hx, hv₁ _ (mirror_lt hy) _ (mirror_lt hx),
    ← idct2D_flip fx fy (installedCount_le N) _ hx hy]
  refine sum_congr rfl fun v _ => sum_congr rfl fun u _ => ?_
  have hε : flipSign fx ((8 * v + u) % 8) * flipSign fy ((8 * v + u) / 8) = 1 ∨
      flipSign fx ((8 * v + u) % 8) * flipSign fy ((8 * v + u) / 8) = -1 := by
    rcases flipSign_eq fx ((8 * v + u) % 8) with h | h <;>
      rcases flipSign_eq fy ((8 * v + u) / 8) with h' | h' <;> simp [h, h']
  simp only [flipBlock]
  rw [dequantValue_sign hε]
  push_cast
  ring

/-- Size 5 on the coefficients `q[k] = k`, flipped left to right. -/
theorem chooseInverseTransform_flip_five :
    (0 < 5 ∧ 5 ≤ 16 ∧ 5 ≤ 5 ∧ (⟨false, 0⟩ : Ptr Bool).buf ≠ (⟨true, 0⟩ : Ptr Bool).buf) ∧
      ∃ m₁ m₂, chooseInverseTransform exactOps Target.scalar 5 (fun _ => ExactFloat.zero)
          (fun k => k) (fun _ => ExactFloat.ofReal 1) (fun _ => ExactFloat.zero)
          (fun _ _ => ExactFloat.zero) ⟨false, 0⟩ ⟨true, 0⟩ 5 5 = some m₁ ∧
        chooseInverseTransform exactOps Target.scalar 5 (fun _ => ExactFloat.zero)
          (flipBlock true false fun k => k) (fun _ => ExactFloat.ofReal 1)
          (fun _ => ExactFloat.zero) (fun _ _ => ExactFloat.zero) ⟨false, 0⟩ ⟨true, 0⟩ 5 5 =
            some m₂ ∧
        ∀ y < 5, ∀ x < 5, (m₂ true (0 + (y * 5 + x))).val =
          (m₁ true (0 + (mirror false 5 y * 5 + mirror true 5 x))).val :=
  ⟨⟨by norm_num, by norm_num, le_rfl, Bool.false_ne_true⟩, chooseInverseTransform_flip
    Target.scalar _ _ _ _ _ ⟨false, 0⟩ ⟨true, 0⟩ 5 true false (by norm_num) (by norm_num) le_rfl
    Bool.false_ne_true⟩

/-! ## The transpose -/

/-- The block of the transposed image: entry `(v, u)` moves to `(u, v)`. -/
def transposeBlock {β : Type} (f : ℕ → β) (k : ℕ) : β := f (8 * (k % 8) + k / 8)

/-- The transform of the transposed block is the transposed transform. -/
theorem idct2D_transpose {N n : ℕ} (hn : n ≤ 8) (D : ℕ → ℝ) (x y : ℕ) :
    idct2D N n (transposeBlock D) x y = idct2D N n D y x := by
  rw [idct2D, sum_comm]
  refine sum_congr rfl fun u hu => sum_congr rfl fun v hv => ?_
  have hu8 : u < 8 := by simp at hu; omega
  rw [transposeBlock, show (8 * v + u) % 8 = u by omega, show (8 * v + u) / 8 = v by omega]
  ring

/-- **Transposing the coefficient block and its tables transposes the output, at every size.**
In the exact reading, for every size from 1 to 16, target, coefficient block, tables, memory and
output stride of at least `N` apart from the scratch space: the transform `ChooseInverseTransform`
installs returns on the block and on the transposed block with transposed multipliers and
biases, and output `(y, x)` of the transposed block is output `(x, y)` of the block. -/
theorem chooseInverseTransform_transpose (T : Target) (uninit : ℕ → ExactFloat)
    (qblock : ℕ → ℤ) (dequant biases : ℕ → ExactFloat) {ρ : Type} [DecidableEq ρ]
    (m : Mem ρ ExactFloat) (scratchSpace output : Ptr ρ) (outputStride : ℕ) {N : ℕ}
    (hN0 : 0 < N) (hN : N ≤ 16) (hs : N ≤ outputStride) (hsep : scratchSpace.buf ≠ output.buf) :
    ∃ m₁ m₂, chooseInverseTransform exactOps T N uninit qblock dequant biases m scratchSpace
        output outputStride N = some m₁ ∧
      chooseInverseTransform exactOps T N uninit (transposeBlock qblock) (transposeBlock dequant)
        (transposeBlock biases) m scratchSpace output outputStride N = some m₂ ∧
      ∀ y < N, ∀ x < N, (m₂ output.buf (output.off + (y * outputStride + x))).val =
        (m₁ output.buf (output.off + (x * outputStride + y))).val := by
  obtain ⟨m₁, h₁, hv₁⟩ := chooseInverseTransform_val T uninit qblock dequant biases m
    scratchSpace output outputStride hN0 hN hs hsep
  obtain ⟨m₂, h₂, hv₂⟩ := chooseInverseTransform_val T uninit (transposeBlock qblock)
    (transposeBlock dequant) (transposeBlock biases) m scratchSpace output outputStride hN0 hN hs
    hsep
  refine ⟨m₁, m₂, h₁, h₂, fun y hy x hx => ?_⟩
  rw [hv₂ y hy x hx, hv₁ x hx y hy, ← idct2D_transpose (installedCount_le N)]
  refine sum_congr rfl fun v hv => sum_congr rfl fun u hu => ?_
  have hu8 : u < 8 := by have := installedCount_le N; simp at hu; omega
  have hv8 : v < 8 := by have := installedCount_le N; simp at hv; omega
  simp only [transposeBlock, show (8 * v + u) % 8 = u by omega, show (8 * v + u) / 8 = v by omega,
    show (8 * u + v) % 8 = v by omega, show (8 * u + v) / 8 = u by omega]
  ring

/-- Size 3 on the coefficients `q[k] = k`, transposed. -/
theorem chooseInverseTransform_transpose_three :
    (0 < 3 ∧ 3 ≤ 16 ∧ 3 ≤ 3 ∧ (⟨false, 0⟩ : Ptr Bool).buf ≠ (⟨true, 0⟩ : Ptr Bool).buf) ∧
      ∃ m₁ m₂, chooseInverseTransform exactOps Target.scalar 3 (fun _ => ExactFloat.zero)
          (fun k => k) (fun _ => ExactFloat.ofReal 1) (fun _ => ExactFloat.zero)
          (fun _ _ => ExactFloat.zero) ⟨false, 0⟩ ⟨true, 0⟩ 3 3 = some m₁ ∧
        chooseInverseTransform exactOps Target.scalar 3 (fun _ => ExactFloat.zero)
          (transposeBlock fun k => k) (transposeBlock fun _ => ExactFloat.ofReal 1)
          (transposeBlock fun _ => ExactFloat.zero) (fun _ _ => ExactFloat.zero) ⟨false, 0⟩
          ⟨true, 0⟩ 3 3 = some m₂ ∧
        ∀ y < 3, ∀ x < 3, (m₂ true (0 + (y * 3 + x))).val = (m₁ true (0 + (x * 3 + y))).val :=
  ⟨⟨by norm_num, by norm_num, le_rfl, Bool.false_ne_true⟩, chooseInverseTransform_transpose
    Target.scalar _ _ _ _ _ ⟨false, 0⟩ ⟨true, 0⟩ 3 (by norm_num) (by norm_num) le_rfl
    Bool.false_ne_true⟩

end

end JpegliIdct
