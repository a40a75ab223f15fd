import JpegliIdct.Kernel

/-!
# What the entry points ask of and promise to their caller

Three facts about `ChooseInverseTransform` and the two entry points over the whole range of
sizes, stated at the boundary a caller sees:

* **When the kernel aborts** (`inverseTransform_returns_iff`). `InverseTransformBlockGeneric`
  returns exactly for the sizes `dctsize ≠ 8` up to `16`; at `8` and above `16` its first call
  of `Compute1dIDCT` reaches `JXL_ABORT`. So the transform `ChooseInverseTransform` installs for
  a scaled size returns exactly for the sizes up to `16`, size `0` included: there both loops of
  the generic transform are empty, no `Compute1dIDCT` is called, and only `DequantBlock` writes,
  to the scratch space.
* **How much scratch space the other sizes use** (`inverseTransformBlockGeneric_scratch`). At
  size `N` the first pass stores `block1[iy * N + ix]` for `iy < N`, `ix < min(N, 8)`, so the
  call changes scratch elements up to offset `64 + (N - 1) N + min(N, 8)`, `312` at `N = 16`, and
  none beyond.
* **A block with only a DC coefficient** (`chooseInverseTransform_dc_only`). In the exact
  reading, at every size from `1` to `16` every output is the dequantised DC coefficient: the
  transforms are not normalised, and the box means of a constant block are that constant.
-/

namespace JpegliIdct

open Finset

/-! ## Aborts -/

section Abort

variable {α : Type} {ρ : Type} [DecidableEq ρ] (O : LaneOps α) (T : Target) (uninit : ℕ → α)
  (qblock : ℕ → ℤ) (dequant biases : ℕ → α) (m : Mem ρ α) (scratchSpace output : Ptr ρ)
  (outputStride : ℕ)

/-- **The generic transform returns exactly for the sizes other than 8 up to 16, and the
installed transform for every size up to 16.** For every arithmetic, target, input and memory,
`InverseTransformBlockGeneric` returns without reaching `JXL_ABORT` iff `dctsize ≠ 8` and
`dctsize ≤ 16`; the transform `ChooseInverseTransform` installs for scaled size `dctsize`,
called with that size, returns iff `dctsize ≤ 16`. At size `0` the generic transform writes
nothing off the scratch buffer. -/
theorem inverseTransform_returns_iff (dctsize : ℕ) :
    ((inverseTransformBlockGeneric O T uninit qblock dequant biases m scratchSpace output
        outputStride dctsize).isSome ↔ dctsize ≠ 8 ∧ dctsize ≤ 16) ∧
      ((chooseInverseTransform O T dctsize uninit qblock dequant biases m scratchSpace output
        outputStride dctsize).isSome ↔ dctsize ≤ 16) ∧
      ∃ m', inverseTransformBlockGeneric O T uninit qblock dequant biases m scratchSpace output
          outputStride 0 = some m' ∧ ∀ b, b ≠ scratchSpace.buf → m' b = m b := by
  have hsizes : dctsize ∈ scaledSizes ↔ 3 ≤ dctsize ∧ dctsize ≤ 16 ∧ dctsize ≠ 4 ∧ dctsize ≠ 8 := by
    rcases Nat.lt_or_ge dctsize 17 with h | h
    · exact (by decide : ∀ d < 17, d ∈ scaledSizes ↔ 3 ≤ d ∧ d ≤ 16 ∧ d ≠ 4 ∧ d ≠ 8) _ h
    · exact iff_of_false (fun hm => absurd ((by decide : ∀ d ∈ scaledSizes, d ≤ 16) _ hm)
        (by omega)) (by omega)
  have hgen : (inverseTransformBlockGeneric O T uninit qblock dequant biases m scratchSpace output
      outputStride dctsize).isSome ↔ dctsize ≠ 8 ∧ dctsize ≤ 16 := by
    by_cases hN : dctsize ∈ scaledSizes
    · have := hsizes.mp hN
      simp only [inverseTransformBlockGeneric_isSome O T uninit qblock dequant biases m
        scratchSpace output outputStride hN, true_iff]
      omega
    have hN' := mt hsizes.mpr hN
    -- size 8 and the sizes above 16 abort
    by_cases h8 : 8 ≤ dctsize
    · rw [inverseTransformBlockGeneric_eq_none O T uninit qblock dequant biases m scratchSpace
        output outputStride h8 hN]
      simp only [Option.isSome_none, Bool.false_eq_true, false_iff]
      omega
    -- sizes 0, 1, 2 and 4 return without calling `Compute1dIDCT`
    obtain rfl | rfl | rfl | rfl : dctsize = 0 ∨ dctsize = 1 ∨ dctsize = 2 ∨ dctsize = 4 := by
      omega
    all_goals simp [inverseTransformBlockGeneric]
  -- size 0 runs `DequantBlock` alone, into the scratch space
  refine ⟨hgen, ?_, dequantBlock O T qblock dequant biases m scratchSpace, rfl,
    fun b hb => funext fun o => ?_⟩
  · unfold chooseInverseTransform
    split_ifs with h8
    · simp [h8]
    · rw [hgen]
      omega
  · rw [dequantBlock_eq, Mem.fill_ne hb]

end Abort

/-! ## Scratch space -/

/-- **The other sizes use scratch space up to offset `64 + (N - 1) N + min(N, 8)`.** At every
size `N` that `Compute1dIDCT` handles, for every arithmetic, target, input, stride of at least
`N` and memory, `InverseTransformBlockGeneric` stores to scratch element `64 + r N + c` the
transform of column `c` of the dequantised block for every `r < N` and `c < min(N, 8)`,
whatever it held before, and changes no scratch element from offset `64 + (N - 1) N + min(N, 8)`
on. -/
theorem inverseTransformBlockGeneric_scratch {α : Type} {ρ : Type} [DecidableEq ρ]
    (O : LaneOps α) (T : Target) (uninit : ℕ → α) (qblock : ℕ → ℤ) (dequant biases : ℕ → α)
    (m : Mem ρ α) (scratchSpace output : Ptr ρ) (outputStride : ℕ) {N : ℕ}
    (hN : N ∈ scaledSizes) (hs : N ≤ outputStride) (hsep : scratchSpace.buf ≠ output.buf) :
    ∃ m', inverseTransformBlockGeneric O T uninit qblock dequant biases m scratchSpace output
        outputStride N = some m' ∧
      (∀ r < N, ∀ c < min N 8, m' scratchSpace.buf (scratchSpace.off + 64 + (r * N + c)) =
        compute1dAt O.toFloatArith N (fun v => dequantBlock8 O qblock dequant biases v c) r) ∧
      ∀ o, scratchSpace.off + 64 + ((N - 1) * N + min N 8) ≤ o →
        m' scratchSpace.buf o = m scratchSpace.buf o := by
  have h2 := two_le_of_mem_scaledSizes hN
  refine ⟨_, inverseTransformBlockGeneric_scaled O T uninit qblock dequant biases m scratchSpace
    output hN hs hsep, fun r hr c hc => ?_, fun o ho => ?_⟩
  · rw [Mem.overwrite_ne hsep]
    refine (Mem.overwrite_cell (p := scratchSpace + 64) (r := r) (by omega)).trans ?_
    simp [hr, hc]
  · rw [Mem.overwrite_ne hsep]
    -- the last cell the first pass stores is `(N - 1, min(N, 8) - 1)` of `block1`
    refine (Mem.overwrite_of_not_sel (p := scratchSpace + 64) (by omega) (fun r c _ h => ?_)).trans
      (if_neg (fun h => by omega))
    simp only [Bool.and_eq_true, decide_eq_true_eq] at h
    have : r * N ≤ (N - 1) * N := Nat.mul_le_mul_right N (by omega)
    simp only [Ptr.add_off]
    omega

/-- At size 16 the first pass stores scratch elements up to offset `64 + 15 · 16 + 8 = 312`. -/
theorem inverseTransformBlockGeneric_scratch_sixteen :
    (16 ∈ scaledSizes ∧ 16 ≤ 16 ∧ (⟨false, 0⟩ : Ptr Bool).buf ≠ (⟨true, 0⟩ : Ptr Bool).buf) ∧
      ∃ m', inverseTransformBlockGeneric exactOps Target.scalar (fun _ => ExactFloat.zero)
          (fun k => k) (fun _ => ExactFloat.ofReal 1) (fun _ => ExactFloat.zero)
          (fun _ _ => ExactFloat.zero) ⟨false, 0⟩ ⟨true, 0⟩ 16 16 = some m' ∧
        (∀ r < 16, ∀ c < min 16 8, m' false (0 + 64 + (r * 16 + c)) =
          compute1dAt exactOps.toFloatArith 16 (fun v => dequantBlock8 exactOps (fun k => k)
            (fun _ => ExactFloat.ofReal 1) (fun _ => ExactFloat.zero) v c) r) ∧
        ∀ o, 0 + 64 + ((16 - 1) * 16 + min 16 8) ≤ o → m' false o = ExactFloat.zero :=
  ⟨⟨by decide, le_rfl, Bool.false_ne_true⟩, inverseTransformBlockGeneric_scratch exactOps
    Target.scalar _ _ _ _ _ ⟨false, 0⟩ ⟨true, 0⟩ 16 (by decide) le_rfl Bool.false_ne_true⟩

/-! ## A DC-only block -/

noncomputable section

/-- **A block with only a DC coefficient gives a constant output at every size.** In the exact
reading, for every size `N` from `1` to `16`, target, coefficient block whose only nonzero
coefficient is `q[0]`, pair of tables, output stride of at least `N` and scratch contents, the
transform `ChooseInverseTransform` installs for `N` returns and stores the dequantised DC
coefficient `D[0]` to each of the `N × N` outputs. -/
theorem chooseInverseTransform_dc_only (T : Target) (uninit : ℕ → ExactFloat) (qblock : ℕ → ℤ)
    (dequant biases : ℕ → ExactFloat) {ρ : Type} [DecidableEq ρ] (m : Mem ρ ExactFloat)
    (scratchSpace output : Ptr ρ) (outputStride : ℕ) {N : ℕ} (hN1 : 1 ≤ N) (hN16 : N ≤ 16)
    (hs : N ≤ outputStride) (hsep : scratchSpace.buf ≠ output.buf)
    (hdc : ∀ k, k ≠ 0 → qblock k = 0) :
    ∃ m', chooseInverseTransform exactOps T N uninit qblock dequant biases m scratchSpace output
        outputStride N = some m' ∧
      ∀ y < N, ∀ x < N, (m' output.buf (output.off + (y * outputStride + x))).val =
        dequantValue (qblock 0) (dequant 0).val (biases 0).val := by
  have hD : ∀ k, k ≠ 0 → dequantValue (qblock k) (dequant k).val (biases k).val = 0 :=
    fun k hk => by simp [dequantValue, hdc k hk]
  unfold chooseInverseTransform
  by_cases h8 : N = 8
  · subst h8
    exact ⟨_, if_pos rfl, fun y hy x hx => (inverseTransformBlock8x8_val T uninit qblock dequant
      biases m scratchSpace output 8 hs hsep hx hy).trans (idct2D_of_dc (by norm_num) hD x y)⟩
  rw [if_neg h8]
  by_cases hN : N ∈ scaledSizes
  · refine ⟨_, inverseTransformBlockGeneric_scaled exactOps T uninit qblock dequant biases m
      scratchSpace output hN hs hsep, fun y hy x hx => ?_⟩
    rw [Mem.overwrite_cell (by omega)]
    simp only [hy, hx, decide_True, Bool.and_self, if_true]
    rw [compute1dAt_dequantBlock8_val hN qblock dequant biases hx hy]
    exact idct2D_of_dc (by omega) hD x y
  obtain rfl | rfl | rfl : N = 1 ∨ N = 2 ∨ N = 4 := by
    simp only [scaledSizes, List.mem_cons, List.mem_singleton, List.not_mem_nil, or_false] at hN
    omega
  -- size 1: the dequantised DC coefficient itself
  · obtain ⟨m', h, hv⟩ := inverseTransformBlockGeneric_one_val T uninit qblock dequant biases m
      scratchSpace output (s := outputStride)
    refine ⟨m', h, fun y hy x hx => ?_⟩
    obtain ⟨rfl, rfl⟩ : y = 0 ∧ x = 0 := ⟨by omega, by omega⟩
    simpa using hv
  -- sizes 2 and 4: the mean of a constant tile
  · obtain ⟨m', h, hv⟩ := inverseTransformBlockGeneric_two_val T uninit qblock dequant biases m
      scratchSpace output hsep hs
    refine ⟨m', h, fun y hy x hx => ?_⟩
    rw [hv y hy x hx]
    simp only [idct2D_of_dc (by norm_num : 0 < 8) hD, sum_const, card_range, nsmul_eq_mul]
    push_cast
    ring
  · obtain ⟨m', h, hv⟩ := inverseTransformBlockGeneric_four_val T uninit qblock dequant biases m
      scratchSpace output hsep hs
    refine ⟨m', h, fun y hy x hx => ?_⟩
    rw [hv y hy x hx]
    simp only [idct2D_of_dc (by norm_num : 0 < 8) hD, sum_const, card_range, nsmul_eq_mul]
    push_cast
    ring

/-- A DC coefficient of `1024` with multiplier `0.125` and no bias, at size 8: every output
is `1024 · 0.125 = 128`. -/
theorem chooseInverseTransform_dc_only_eight :
    (1 ≤ 8 ∧ 8 ≤ 16 ∧ 8 ≤ 8 ∧ (⟨false, 0⟩ : Ptr Bool).buf ≠ (⟨true, 0⟩ : Ptr Bool).buf ∧
      ∀ k, k ≠ 0 → (if k = 0 then 1024 else 0 : ℤ) = 0) ∧
      ∃ m', chooseInverseTransform exactOps Target.scalar 8 (fun _ => ExactFloat.zero)
          (fun k => if k = 0 then 1024 else 0) (fun _ => ExactFloat.ofReal 0.125)
          (fun _ => ExactFloat.zero) (fun _ _ => ExactFloat.zero) ⟨false, 0⟩ ⟨true, 0⟩ 8 8 =
            some m' ∧
        ∀ y < 8, ∀ x < 8, (m' true (0 + (y * 8 + x))).val = 128 := by
  obtain ⟨m', h, hv⟩ := chooseInverseTransform_dc_only Target.scalar (fun _ => ExactFloat.zero)
    (fun k => if k = 0 then 1024 else 0) (fun _ => ExactFloat.ofReal 0.125)
    (fun _ => ExactFloat.zero) (fun _ _ => ExactFloat.zero) ⟨false, 0⟩ ⟨true, 0⟩ 8
    (by norm_num) (by norm_num) le_rfl Bool.false_ne_true (fun k hk => if_neg hk)
  refine ⟨⟨by norm_num, by norm_num, le_rfl, Bool.false_ne_true, fun k hk => if_neg hk⟩, m', h,
    fun y hy x hx => (hv y hy x hx).trans ?_⟩
  norm_num [dequantValue]

end

end JpegliIdct
