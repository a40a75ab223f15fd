import JpegliIdct.Exact

/-!
# What a caller observes: the kernel refines a function of the coefficients

The kernel works through a scratch space, local arrays, transposes and in-place butterflies,
but what a caller can see of a call is small. `installedOutput A N X r c` is what the
transform `ChooseInverseTransform` installs for size `N` stores to output `(r, c)`, as a
function of the dequantised block `X` alone, with every operation of the code in the order the
code performs it, so that the statements below hold for every per-lane arithmetic, IEEE floats
included.

* **Refinement** (`chooseInverseTransform_refines`). For every size up to 16, the installed
  transform returns; outside the scratch buffer the memory after the call is the memory before
  it with the `N × N` output block overwritten by `installedOutput`; and in the scratch buffer
  it changes only the first 312 elements.
* **Read set** (`chooseInverseTransform_reads`). Two calls whose coefficient blocks and tables
  agree on the rows and columns the size reads (`coefficientsRead`), whose memories agree
  outside the scratch buffer and the output block, whatever their targets, scratch contents
  and uninitialised local arrays, leave memories that agree outside the scratch buffer.

Both rest on `chooseInverseTransform_result`, the dispatch over the paths of the code, each
stated once by the footprint and the output it leaves (`KernelResult`).
-/

namespace JpegliIdct

variable {α : Type} {ρ : Type} [DecidableEq ρ]

/-! ## The abstract kernel -/

section Abstract

variable (A : FloatArith α)

/-- What the transform installed for size `N` stores to output `(r, c)`, from the dequantised
block `X` (row `v`, column `u`) alone: the two passes of `IDCT1D<8>` for `8`; the DC coefficient
for `1`; `0.25f` and `0.0625f` times the sums of the 2 × 2 and 4 × 4 tiles of that 8 × 8
transform for `4` and `2`, summed in the order of the code; the two passes of `Compute1dIDCT`
for the other sizes. -/
def installedOutput (N : ℕ) (X : ℕ → ℕ → α) (r c : ℕ) : α :=
  let Z : ℕ → ℕ → Scalar A := idctRows A (idctRows A X)
  if N = 8 then Z r c
  else if N = 1 then X 0 0
  else if N = 4 then
    Scalar.lit A .quarter * (Z (2 * r) (2 * c) + Z (2 * r) (2 * c + 1) + Z (2 * r + 1) (2 * c) +
      Z (2 * r + 1) (2 * c + 1))
  else if N = 2 then
    Scalar.lit A .sixteenth *
      (Z (4 * r) (4 * c) + Z (4 * r) (4 * c + 1) + Z (4 * r) (4 * c + 2) + Z (4 * r) (4 * c + 3) +
        Z (4 * r + 1) (4 * c) + Z (4 * r + 1) (4 * c + 1) + Z (4 * r + 1) (4 * c + 2) +
        Z (4 * r + 1) (4 * c + 3) + Z (4 * r + 2) (4 * c) + Z (4 * r + 2) (4 * c + 1) +
        Z (4 * r + 2) (4 * c + 2) + Z (4 * r + 2) (4 * c + 3) + Z (4 * r + 3) (4 * c) +
        Z (4 * r + 3) (4 * c + 1) + Z (4 * r + 3) (4 * c + 2) + Z (4 * r + 3) (4 * c + 3))
  else compute1dAt A N (fun u => compute1dAt A N (fun v => X v u) r) c

/-- How many rows and columns of the coefficient block the transform installed for size `N`
reads: the DC coefficient alone for `1`; the whole block for `2`, `4` and `8`, since the box
sizes average the full 8 × 8 transform; the first `min(N, 8)` for the sizes of `Compute1dIDCT`. -/
def coefficientsRead (N : ℕ) : ℕ :=
  if N = 1 then 1 else if N = 2 ∨ N = 4 ∨ N = 8 then 8 else min N 8

theorem installedOutput_eight (X : ℕ → ℕ → α) :
    installedOutput A 8 X = idctRows A (idctRows A X) := rfl

theorem installedOutput_of_mem {N : ℕ} (hN : N ∈ scaledSizes) (X : ℕ → ℕ → α) :
    installedOutput A N X = fun r c => compute1dAt A N (fun u => compute1dAt A N (fun v => X v u) r) c := by
  have : N ≠ 8 ∧ N ≠ 1 ∧ N ≠ 4 ∧ N ≠ 2 := by
    simp only [scaledSizes, List.mem_cons, List.mem_singleton, List.not_mem_nil, or_false] at hN
    omega
  funext r c
  simp only [installedOutput, if_neg this.1, if_neg this.2.1, if_neg this.2.2.1, if_neg this.2.2.2]

/-- Each output reads the dequantised block only in its first `coefficientsRead N` rows and
columns. -/
theorem installedOutput_congr {N : ℕ} {X Y : ℕ → ℕ → α}
    (h : ∀ v u, v < coefficientsRead N → u < coefficientsRead N → X v u = Y v u) {r c : ℕ}
    (hr : r < N) (hc : c < N) : installedOutput A N X r c = installedOutput A N Y r c := by
  -- the sizes `2`, `4` and `8` read the whole 8 × 8 transform
  have hZ (hR : coefficientsRead N = 8) (r c : ℕ) (hc : c < 8) :
      idctRows A (idctRows A X) r c = idctRows A (idctRows A Y) r c :=
    idctRows_congr A (fun _ _ _ hc' => idctRows_congr A
      (fun v u hv hu => h v u (hR ▸ hv) (hR ▸ hu)) hc') hc
  have hR : N = 2 ∨ N = 4 ∨ N = 8 → coefficientsRead N = 8 := fun h' => by
    rw [coefficientsRead, if_neg (by omega), if_pos h']
  unfold installedOutput
  by_cases h8 : N = 8
  · rw [if_pos h8, if_pos h8]
    exact hZ (hR (by omega)) r c (by omega)
  by_cases h1 : N = 1
  · simp only [if_neg h8, if_pos h1]
    exact h 0 0 (by simp [coefficientsRead, h1]) (by simp [coefficientsRead, h1])
  by_cases h4 : N = 4
  · simp only [if_neg h8, if_neg h1, if_pos h4]
    simp (disch := omega) only [hZ (hR (by omega))]
  by_cases h2 : N = 2
  · simp only [if_neg h8, if_neg h1, if_neg h4, if_pos h2]
    simp (disch := omega) only [hZ (hR (by omega))]
  simp only [if_neg h8, if_neg h1, if_neg h4, if_neg h2]
  have hR' : coefficientsRead N = min N 8 := by
    rw [coefficientsRead, if_neg h1, if_neg (by omega)]
  exact compute1dAt_congr A (by omega) (fun u hu => compute1dAt_congr A (by omega)
    (fun v hv => h v u (hR' ▸ hv) (hR' ▸ hu)) r) c

end Abstract

/-! ## What a call may leave -/

section Result

/-- Where the kernel may write: the first 312 elements of the scratch space, and the output's
buffer. -/
def kernelFootprint (scratchSpace output : Ptr ρ) (b : ρ) (o : ℕ) : Prop :=
  scratchSpace.span 312 b o ∨ b = output.buf

/-- What a caller may observe after the transform of size `N` went from `m` to `m'`: it wrote
only in the kernel's footprint, and off the scratch buffer `m'` is `m` with the `N × N` output
block at stride `s` overwritten by `installedOutput`. -/
def KernelResult (A : FloatArith α) (N : ℕ) (X : ℕ → ℕ → α) (m m' : Mem ρ α)
    (scratchSpace output : Ptr ρ) (s : ℕ) : Prop :=
  Mem.AgreeOutside (kernelFootprint scratchSpace output) m m' ∧
    ∀ b, b ≠ scratchSpace.buf →
      m' b = m.overwrite output s (fun r c => r < N && c < N) (installedOutput A N X) b

variable {scratchSpace output : Ptr ρ}

omit [DecidableEq ρ] in
theorem kernelFootprint_scratch {o : ℕ} (h₁ : scratchSpace.off ≤ o)
    (h₂ : o < scratchSpace.off + 312) : kernelFootprint scratchSpace output scratchSpace.buf o :=
  Or.inl ⟨rfl, h₁, h₂⟩

omit [DecidableEq ρ] in
theorem kernelFootprint_output (o : ℕ) : kernelFootprint scratchSpace output output.buf o :=
  Or.inr rfl

end Result

/-! ## The paths of the code -/

section Paths

variable (O : LaneOps α) (T : Target) (uninit : ℕ → α) (qblock : ℕ → ℤ) (dequant biases : ℕ → α)
  (m : Mem ρ α) (scratchSpace output : Ptr ρ) {s : ℕ} (hsep : scratchSpace.buf ≠ output.buf)
include hsep

/-- `InverseTransformBlock8x8`: block `0` and block `1` of the scratch space, and the output. -/
theorem inverseTransformBlock8x8_result (hs : 8 ≤ s) (dctsize : ℕ) :
    KernelResult O.toFloatArith 8 (dequantBlock8 O qblock dequant biases) m
      (inverseTransformBlock8x8 O T uninit qblock dequant biases m scratchSpace output s dctsize)
      scratchSpace output s := by
  refine ⟨?_, fun b hb => ?_⟩
  · have hap : Apart (scratchSpace + 64) 8 output s 8 8 := fun _ _ _ _ _ _ _ _ => Or.inl hsep
    simp only [inverseTransformBlock8x8, dequantBlock_eq]
    rw [computeScaledIDCT_eq _ T _ _ _ _ hs hap]
    -- the last pass stores to the output; before it, `DequantBlock` into `block0`, the
    -- transpose into `block1`, the first pass into `block0` and the transpose back
    refine (Mem.AgreeOutside.mono (w := scratchSpace.span 312) ?_ fun _ _ h => Or.inl h).overwrite
      _ (by omega) fun r c _ _ => kernelFootprint_output _
    refine Mem.AgreeOutside.overwrite ?_ _ (by omega) (Ptr.span_block8 _ 64 (by omega))
    refine Mem.AgreeOutside.overwrite ?_ _ (by omega) (Ptr.span_block8 _ 0 (by omega))
    refine Mem.AgreeOutside.overwrite ?_ _ (by omega) (Ptr.span_block8 _ 64 (by omega))
    exact Mem.AgreeOutside.refl.fill _ fun o h₁ h₂ => ⟨rfl, h₁, by omega⟩
  · obtain ⟨M, hM, heq⟩ := inverseTransformBlock8x8_eq O T uninit qblock dequant biases m
      scratchSpace output hs hsep dctsize
    rw [heq]
    exact Mem.overwrite_apply_congr (hM b hb)

/-- The sizes of `Compute1dIDCT`: block `0`, the first `min(N, 8)` columns of the `N × N` block
at `block1`, and the output. -/
theorem inverseTransformBlockGeneric_scaled_result {N : ℕ} (hN : N ∈ scaledSizes) (hs : N ≤ s) :
    ∃ m', inverseTransformBlockGeneric O T uninit qblock dequant biases m scratchSpace output s
        N = some m' ∧
      KernelResult O.toFloatArith N (dequantBlock8 O qblock dequant biases) m m' scratchSpace
        output s := by
  have h16 : 2 ≤ N ∧ N ≤ 16 := by
    simp only [scaledSizes, List.mem_cons, List.mem_singleton, List.not_mem_nil, or_false] at hN
    omega
  refine ⟨_, inverseTransformBlockGeneric_scaled O T uninit qblock dequant biases m scratchSpace
    output hN hs hsep, ?_, fun b hb => ?_⟩
  · refine Mem.AgreeOutside.overwrite ?_ _ (by omega) fun r c _ _ => kernelFootprint_output _
    -- the last cell of `block1` the first pass stores is `64 + 15 · 16 + 7`
    refine Mem.AgreeOutside.overwrite ?_ _ (by omega) fun r c _ h => ?_
    · exact Mem.AgreeOutside.refl.fill _ fun o h₁ h₂ => kernelFootprint_scratch h₁ (by omega)
    simp only [Bool.and_eq_true, decide_eq_true_eq] at h
    have : r * N ≤ 15 * 16 := Nat.mul_le_mul (by omega) h16.2
    exact kernelFootprint_scratch (by simp only [Ptr.add_off]; omega)
      (by simp only [Ptr.add_off]; omega)
  · rw [installedOutput_of_mem _ hN]
    refine Mem.overwrite_apply_congr (funext fun o => ?_)
    rw [Mem.overwrite_ne (by exact hb), Mem.fill_ne hb]

omit hsep in
/-- The sizes `2` and `4`: `ComputeScaledIDCT` into `block2 = scratch_space + 128`, whose
result `Z` the box averages read. -/
theorem inverseTransformBlockGeneric_box_frame {N : ℕ} (hN : N = 2 ∨ N = 4) :
    ∃ M : Mem ρ α, Mem.AgreeOutside (scratchSpace.span 312) m M ∧
      (∀ o l r c, o + l = r * 8 + c → r < 8 → c < 8 →
        load M (scratchSpace + 2 * 64 + o) l = idctRows O.toFloatArith (idctRows O.toFloatArith
          (dequantBlock8 O qblock dequant biases)) r c) ∧
      inverseTransformBlockGeneric O T uninit qblock dequant biases m scratchSpace output s N =
        some (if N = 4 then boxAverage4 O.toFloatArith M (scratchSpace + 2 * 64) output s
          else boxAverage2 O.toFloatArith M (scratchSpace + 2 * 64) output s) := by
  simp only [inverseTransformBlockGeneric, dequantBlock_eq, if_neg (show N ≠ 1 by omega),
    if_pos hN]
  rw [computeScaledIDCT_eq _ T _ _ _ _ le_rfl (apart_block1_block2 scratchSpace)]
  refine ⟨_, ?_, fun o l r c h hr hc => ?_, by split_ifs <;> rfl⟩
  · refine Mem.AgreeOutside.overwrite ?_ _ (by omega) (Ptr.span_block8 _ (2 * 64) (by omega))
    refine Mem.AgreeOutside.overwrite ?_ _ (by omega) (Ptr.span_block8 _ 64 (by omega))
    refine Mem.AgreeOutside.overwrite ?_ _ (by omega) (Ptr.span_block8 _ 0 (by omega))
    refine Mem.AgreeOutside.overwrite ?_ _ (by omega) (Ptr.span_block8 _ 64 (by omega))
    exact Mem.AgreeOutside.refl.fill _ fun o h₁ h₂ => ⟨rfl, h₁, by omega⟩
  · rw [load_overwrite8 _ _ _ h hr hc, idctRows_idctRows_fill O qblock dequant biases m _ r hc]

/-- The sizes `2` and `4`: the box averages over `block2`, each output a sum of the cells of
its tile of `Z`. -/
theorem inverseTransformBlockGeneric_box_result {N : ℕ} (hN : N = 2 ∨ N = 4) (hs : N ≤ s) :
    ∃ m', inverseTransformBlockGeneric O T uninit qblock dequant biases m scratchSpace output s
        N = some m' ∧
      KernelResult O.toFloatArith N (dequantBlock8 O qblock dequant biases) m m' scratchSpace
        output s := by
  obtain ⟨M, hM, hZ, heq⟩ :=
    inverseTransformBlockGeneric_box_frame O T uninit qblock dequant biases m scratchSpace output
      (s := s) hN
  have hfoot : Mem.AgreeOutside (kernelFootprint scratchSpace output) m M :=
    hM.mono fun _ _ h => Or.inl h
  have hframe : ∀ b, b ≠ scratchSpace.buf → M b = m b :=
    fun b hb => hM.apply_eq fun _ h => hb h.1
  have hb2 : (scratchSpace + 2 * 64).buf ≠ output.buf := hsep
  rcases hN with rfl | rfl
  · rw [if_neg (by decide)] at heq
    refine ⟨_, heq, ?_, fun b hb => ?_⟩ <;> rw [boxAverage2_eq _ _ _ _ hb2 hs]
    · exact hfoot.overwrite _ (by omega) fun r c _ _ => kernelFootprint_output _
    · rw [Mem.overwrite_apply_congr (hframe b hb)]
      refine congrFun (Mem.overwrite_congr (by omega) (fun _ _ _ => rfl) (fun r c _ h => ?_)) b
      simp only [Bool.and_eq_true, decide_eq_true_eq] at h
      have hl : ∀ l, l / 8 < 4 → l % 8 < 4 →
          load M (scratchSpace + 2 * 64 + (32 * r + 4 * c)) l = idctRows O.toFloatArith
            (idctRows O.toFloatArith (dequantBlock8 O qblock dequant biases))
              (4 * r + l / 8) (4 * c + l % 8) :=
        fun l h₁ h₂ => hZ _ _ _ _ (by omega) (by omega) (by omega)
      simp (disch := omega) only [hl, Nat.reduceDiv, Nat.reduceMod, Nat.add_zero]
      rfl
  · rw [if_pos rfl] at heq
    refine ⟨_, heq, ?_, fun b hb => ?_⟩ <;> rw [boxAverage4_eq _ _ _ _ hb2 hs]
    · exact hfoot.overwrite _ (by omega) fun r c _ _ => kernelFootprint_output _
    · rw [Mem.overwrite_apply_congr (hframe b hb)]
      refine congrFun (Mem.overwrite_congr (by omega) (fun _ _ _ => rfl) (fun r c _ h => ?_)) b
      simp only [Bool.and_eq_true, decide_eq_true_eq] at h
      have hl : ∀ l, l / 8 < 2 → l % 8 < 2 →
          load M (scratchSpace + 2 * 64 + (16 * r + 2 * c)) l = idctRows O.toFloatArith
            (idctRows O.toFloatArith (dequantBlock8 O qblock dequant biases))
              (2 * r + l / 8) (2 * c + l % 8) :=
        fun l h₁ h₂ => hZ _ _ _ _ (by omega) (by omega) (by omega)
      simp (disch := omega) only [hl, Nat.reduceDiv, Nat.reduceMod, Nat.add_zero]
      rfl

omit hsep in
/-- Size `1`: the dequantised DC coefficient, copied from `block0`. -/
theorem inverseTransformBlockGeneric_one_result (hs : 1 ≤ s) :
    ∃ m', inverseTransformBlockGeneric O T uninit qblock dequant biases m scratchSpace output s
        1 = some m' ∧
      KernelResult O.toFloatArith 1 (dequantBlock8 O qblock dequant biases) m m' scratchSpace
        output s := by
  refine ⟨_, by simp only [inverseTransformBlockGeneric, dequantBlock_eq, if_true]; rfl, ?_,
    fun b hb => ?_⟩
  · rw [write, store]
    refine Mem.AgreeOutside.fill ?_ _ fun o _ _ => kernelFootprint_output o
    exact Mem.AgreeOutside.refl.fill _ fun o h₁ h₂ => kernelFootprint_scratch h₁ (by omega)
  · have hw := write_cell (p := output) (s := s) (r := 0) (c := 0)
      (m := m.fill scratchSpace 64 (fun k => dequantLane O (qblock k) (dequant k) (biases k)))
      (dequantLane O (qblock 0) (dequant 0) (biases 0)) (by omega)
    simp only [Nat.zero_mul, Nat.add_zero, Ptr.add_zero] at hw
    rw [show (m.fill scratchSpace 64 (fun k => dequantLane O (qblock k) (dequant k) (biases k)))
      scratchSpace.buf scratchSpace.off = dequantLane O (qblock 0) (dequant 0) (biases 0) by
        simp [Mem.fill], hw, Mem.overwrite_apply_congr (funext fun o => Mem.fill_ne hb o)]
    refine congrFun (Mem.overwrite_congr (by omega) (fun r c _ => ?_) (fun r c _ h => ?_)) b
    · rw [Bool.eq_iff_iff]
      simp only [Bool.and_eq_true, beq_iff_eq, decide_eq_true_eq]
      omega
    · simp only [Bool.and_eq_true, beq_iff_eq] at h
      obtain ⟨rfl, rfl⟩ := h
      rfl

omit hsep in
/-- Size `0`: `DequantBlock` alone, both loops of the other sizes being empty. -/
theorem inverseTransformBlockGeneric_zero_result :
    ∃ m', inverseTransformBlockGeneric O T uninit qblock dequant biases m scratchSpace output s
        0 = some m' ∧
      KernelResult O.toFloatArith 0 (dequantBlock8 O qblock dequant biases) m m' scratchSpace
        output s := by
  refine ⟨dequantBlock O T qblock dequant biases m scratchSpace, rfl, ?_, fun b hb => ?_⟩ <;>
    rw [dequantBlock_eq]
  · exact Mem.AgreeOutside.refl.fill _ fun o h₁ h₂ => kernelFootprint_scratch h₁ (by omega)
  · rw [Mem.overwrite_of_false (fun _ _ => by simp)]
    exact funext fun o => Mem.fill_ne hb o

/-- Every size up to 16, through the dispatch of `ChooseInverseTransform`. -/
theorem chooseInverseTransform_result {N : ℕ} (hN : N ≤ 16) (hs : N ≤ s) :
    ∃ m', chooseInverseTransform O T N uninit qblock dequant biases m scratchSpace output s N =
        some m' ∧
      KernelResult O.toFloatArith N (dequantBlock8 O qblock dequant biases) m m' scratchSpace
        output s := by
  unfold chooseInverseTransform
  by_cases h8 : N = 8
  · subst h8
    exact ⟨_, if_pos rfl, inverseTransformBlock8x8_result O T uninit qblock dequant biases m
      scratchSpace output hsep hs 8⟩
  rw [if_neg h8]
  by_cases hN' : N ∈ scaledSizes
  · exact inverseTransformBlockGeneric_scaled_result O T uninit qblock dequant biases m
      scratchSpace output hsep hN' hs
  obtain rfl | rfl | hbox : N = 0 ∨ N = 1 ∨ (N = 2 ∨ N = 4) := by
    simp only [scaledSizes, List.mem_cons, List.mem_singleton, List.not_mem_nil, or_false] at hN'
    omega
  · exact inverseTransformBlockGeneric_zero_result O T uninit qblock dequant biases m scratchSpace
      output
  · exact inverseTransformBlockGeneric_one_result O T uninit qblock dequant biases m scratchSpace
      output hs
  · exact inverseTransformBlockGeneric_box_result O T uninit qblock dequant biases m scratchSpace
      output hsep hbox hs

end Paths

/-! ## The call -/

/-- For every size up to 16, the transform `ChooseInverseTransform` installs returns; off the
scratch buffer it leaves the memory before the call with the `N × N` output block overwritten by
`installedOutput` of the dequantised block; in the scratch buffer it changes only the first 312
elements. -/
theorem chooseInverseTransform_refines (O : LaneOps α) (T : Target) (uninit : ℕ → α)
    (qblock : ℕ → ℤ) (dequant biases : ℕ → α) (m : Mem ρ α) (scratchSpace output : Ptr ρ)
    (outputStride : ℕ) {N : ℕ} (hN : N ≤ 16) (hs : N ≤ outputStride)
    (hsep : scratchSpace.buf ≠ output.buf) :
    ∃ m', chooseInverseTransform O T N uninit qblock dequant biases m scratchSpace output
        outputStride N = some m' ∧
      (∀ b, b ≠ scratchSpace.buf → m' b = m.overwrite output outputStride
        (fun r c => r < N && c < N) (installedOutput O.toFloatArith N
          (dequantBlock8 O qblock dequant biases)) b) ∧
      ∀ o, o < scratchSpace.off ∨ scratchSpace.off + 312 ≤ o →
        m' scratchSpace.buf o = m scratchSpace.buf o := by
  obtain ⟨m', h, hfoot, hobs⟩ := chooseInverseTransform_result O T uninit qblock dequant biases m
    scratchSpace output hsep hN hs
  refine ⟨m', h, hobs, fun o ho => hfoot _ o ?_⟩
  rintro (⟨-, h₁, h₂⟩ | hb)
  · omega
  · exact hsep hb

/-- At size 16, on the exact reading, with the scratch space in buffer `false` and the output
in buffer `true`. -/
theorem chooseInverseTransform_refines_sixteen :
    (16 ≤ 16 ∧ 16 ≤ 16 ∧ (⟨false, 0⟩ : Ptr Bool).buf ≠ (⟨true, 0⟩ : Ptr Bool).buf) ∧
      ∃ m', chooseInverseTransform exactOps Target.scalar 16 (fun _ => ExactFloat.zero)
          (fun k => k) (fun _ => ExactFloat.ofReal 1) (fun _ => ExactFloat.zero)
          (fun _ _ => ExactFloat.zero) ⟨false, 0⟩ ⟨true, 0⟩ 16 16 = some m' ∧
        (∀ b, b ≠ false → m' b = Mem.overwrite (fun _ _ => ExactFloat.zero) ⟨true, 0⟩ 16
          (fun r c => r < 16 && c < 16) (installedOutput exactOps.toFloatArith 16
            (dequantBlock8 exactOps (fun k => k) (fun _ => ExactFloat.ofReal 1)
              (fun _ => ExactFloat.zero))) b) ∧
        ∀ o, o < 0 ∨ 0 + 312 ≤ o → m' false o = ExactFloat.zero :=
  ⟨⟨le_rfl, le_rfl, Bool.false_ne_true⟩, chooseInverseTransform_refines exactOps Target.scalar _ _
    _ _ _ ⟨false, 0⟩ ⟨true, 0⟩ 16 le_rfl le_rfl Bool.false_ne_true⟩

/-- What the call reads: two calls whose coefficients, multipliers and biases agree on the first
`coefficientsRead N` rows and columns, and whose memories agree off the scratch buffer and the
output block, leave memories that agree off the scratch buffer, whatever their targets, scratch
contents and uninitialised local arrays. -/
theorem chooseInverseTransform_reads (O : LaneOps α) (T₁ T₂ : Target) (uninit₁ uninit₂ : ℕ → α)
    (qblock₁ qblock₂ : ℕ → ℤ) (dequant₁ dequant₂ biases₁ biases₂ : ℕ → α) (m₁ m₂ : Mem ρ α)
    (scratchSpace output : Ptr ρ) (outputStride : ℕ) {N : ℕ} (hN : N ≤ 16)
    (hs : N ≤ outputStride) (hsep : scratchSpace.buf ≠ output.buf)
    (hcoef : ∀ v u, v < coefficientsRead N → u < coefficientsRead N →
      qblock₁ (v * 8 + u) = qblock₂ (v * 8 + u) ∧ dequant₁ (v * 8 + u) = dequant₂ (v * 8 + u) ∧
        biases₁ (v * 8 + u) = biases₂ (v * 8 + u))
    (hmem : ∀ b o, b ≠ scratchSpace.buf →
      (b = output.buf → ∀ y < N, ∀ x < N, o ≠ output.off + (y * outputStride + x)) →
        m₁ b o = m₂ b o) :
    ∃ m₁' m₂', chooseInverseTransform O T₁ N uninit₁ qblock₁ dequant₁ biases₁ m₁ scratchSpace
        output outputStride N = some m₁' ∧
      chooseInverseTransform O T₂ N uninit₂ qblock₂ dequant₂ biases₂ m₂ scratchSpace output
        outputStride N = some m₂' ∧
      ∀ b, b ≠ scratchSpace.buf → m₁' b = m₂' b := by
  obtain ⟨m₁', h₁, -, hobs₁⟩ := chooseInverseTransform_result O T₁ uninit₁ qblock₁ dequant₁
    biases₁ m₁ scratchSpace output hsep hN hs
  obtain ⟨m₂', h₂, -, hobs₂⟩ := chooseInverseTransform_result O T₂ uninit₂ qblock₂ dequant₂
    biases₂ m₂ scratchSpace output hsep hN hs
  refine ⟨m₁', m₂', h₁, h₂, fun b hb => funext fun o => ?_⟩
  rw [hobs₁ b hb, hobs₂ b hb]
  rcases Nat.eq_zero_or_pos N with rfl | hN0
  · -- size `0` installs nothing
    rw [Mem.overwrite_of_false (fun _ _ => by simp), Mem.overwrite_of_false (fun _ _ => by simp)]
    exact hmem b o hb fun _ y hy => absurd hy (Nat.not_lt_zero y)
  refine Mem.overwrite_agree (by omega) (fun r c _ hsel => ?_)
    (fun hout => hmem b o hb fun hbo y hy x hx => hout hbo y x (by omega) (by simp [hy, hx]))
  simp only [Bool.and_eq_true, decide_eq_true_eq] at hsel
  refine installedOutput_congr _ (fun v u hv hu => ?_) hsel.1 hsel.2
  obtain ⟨hq, hd, hb⟩ := hcoef v u hv hu
  simp only [dequantBlock8, hq, hd, hb]

/-- Size 5 reads the first five rows and columns: two calls on blocks that differ outside them,
with other targets, scratch contents and local arrays, agree off the scratch buffer. -/
theorem chooseInverseTransform_reads_five :
    (5 ≤ 16 ∧ 5 ≤ 8 ∧ (⟨false, 0⟩ : Ptr Bool).buf ≠ (⟨true, 0⟩ : Ptr Bool).buf ∧
      coefficientsRead 5 = 5) ∧
      ∃ m₁' m₂', chooseInverseTransform exactOps Target.scalar 5 (fun _ => ExactFloat.zero)
          (fun k => k) (fun _ => ExactFloat.ofReal 1) (fun _ => ExactFloat.zero)
          (fun _ _ => ExactFloat.zero) ⟨false, 0⟩ ⟨true, 0⟩ 8 5 = some m₁' ∧
        chooseInverseTransform exactOps ⟨2, 4, by decide, by decide⟩ 5
          (fun _ => ExactFloat.ofReal 7) (fun k => if k % 8 < 5 ∧ k < 40 then k else 3)
          (fun _ => ExactFloat.ofReal 1) (fun _ => ExactFloat.zero)
          (fun b _ => if b then ExactFloat.zero else ExactFloat.ofReal 2) ⟨false, 0⟩ ⟨true, 0⟩ 8 5 =
            some m₂' ∧
        ∀ b, b ≠ false → m₁' b = m₂' b := by
  have hread : coefficientsRead 5 = 5 := rfl
  refine ⟨⟨by decide, by decide, Bool.false_ne_true, hread⟩, chooseInverseTransform_reads exactOps
    _ _ _ _ _ _ _ _ _ _ _ _ ⟨false, 0⟩ ⟨true, 0⟩ 8 (by decide) (by decide) Bool.false_ne_true
    (fun v u hv hu => ⟨?_, rfl, rfl⟩) (fun b o hb _ => ?_)⟩
  · rw [hread] at hv hu
    rw [if_pos ⟨by omega, by omega⟩]
  · rw [eq_true_of_ne_false hb]
    rfl

end JpegliIdct
