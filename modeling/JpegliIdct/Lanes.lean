import JpegliIdct.Exact

/-!
# Lane-width independence

Every vector operation of the kernel acts lane by lane, and every loop over lanes covers its
block exactly once whatever the lane count: `DequantBlock` fills the 64 coefficients
(`dequantBlock_eq`) and each `IDCT1D<8>` overwrites its 8 × 8 block (`idct1D_eq`), with values
that name no lane count. So both entry points leave the memory their one-lane execution leaves,
for every per-lane arithmetic (`inverseTransformBlock_lanes_independent`).
-/

namespace JpegliIdct

variable {α : Type} {ρ : Type} [DecidableEq ρ]

/-- **Both kernels compute the same memory at every width.** For every `Lanes(d8)` dividing 8,
every `Lanes(d)` dividing 64 and every per-lane arithmetic, each entry point leaves exactly the
memory its one-lane execution leaves, scratch space included, and the generic one aborts
exactly when the one-lane execution does. The 8 × 8 kernel needs an output stride of at least 8
and its output rows apart from `block1`, which its last pass reads; the generic one needs
nothing, at every stride. -/
theorem inverseTransformBlock_lanes_independent (O : LaneOps α) (T : Target) (uninit : ℕ → α)
    (qblock : ℕ → ℤ) (dequant biases : ℕ → α) (m : Mem ρ α) (scratchSpace output : Ptr ρ)
    (dctsize : ℕ) :
    (∀ outputStride, 8 ≤ outputStride → Apart (scratchSpace + 64) 8 output outputStride 8 8 →
      inverseTransformBlock8x8 O T uninit qblock dequant biases m scratchSpace output outputStride
          dctsize =
        inverseTransformBlock8x8 O Target.scalar uninit qblock dequant biases m scratchSpace
          output outputStride dctsize) ∧
    ∀ outputStride,
      inverseTransformBlockGeneric O T uninit qblock dequant biases m scratchSpace output
          outputStride dctsize =
        inverseTransformBlockGeneric O Target.scalar uninit qblock dequant biases m scratchSpace
          output outputStride dctsize := by
  refine ⟨fun outputStride hs hap => ?_, fun outputStride => ?_⟩
  · simp only [inverseTransformBlock8x8, dequantBlock_eq]
    rw [computeScaledIDCT_eq _ T _ _ _ _ hs hap,
      computeScaledIDCT_eq _ Target.scalar _ _ _ _ hs hap]
  · simp only [inverseTransformBlockGeneric, dequantBlock_eq]
    rw [computeScaledIDCT_eq _ T _ _ _ _ le_rfl (apart_block1_block2 scratchSpace),
      computeScaledIDCT_eq _ Target.scalar _ _ _ _ le_rfl (apart_block1_block2 scratchSpace)]

/-- Lane-width independence at two lanes of `d8` and four of `d`, on two buffers, with unit
multipliers and biases and coefficients `k`: the 8 × 8 kernel at stride 8, and the generic
kernel at size 3 and stride 3, where it returns. -/
theorem inverseTransformBlock_lanes_independent_two_four :
    (8 ≤ 8 ∧ Apart ((⟨false, 0⟩ : Ptr Bool) + 64) 8 ⟨true, 0⟩ 8 8 8) ∧
      inverseTransformBlock8x8 exactOps ⟨2, 4, by decide, by decide⟩ (fun _ => ExactFloat.zero)
          (fun k => k) (fun _ => ExactFloat.ofReal 1) (fun _ => ExactFloat.ofReal 1)
          (fun _ _ => ExactFloat.zero) ⟨false, 0⟩ ⟨true, 0⟩ 8 8 =
        inverseTransformBlock8x8 exactOps Target.scalar (fun _ => ExactFloat.zero)
          (fun k => k) (fun _ => ExactFloat.ofReal 1) (fun _ => ExactFloat.ofReal 1)
          (fun _ _ => ExactFloat.zero) ⟨false, 0⟩ ⟨true, 0⟩ 8 8 ∧
      inverseTransformBlockGeneric exactOps ⟨2, 4, by decide, by decide⟩
          (fun _ => ExactFloat.zero) (fun k => k) (fun _ => ExactFloat.ofReal 1)
          (fun _ => ExactFloat.ofReal 1) (fun _ _ => ExactFloat.zero) ⟨false, 0⟩ ⟨true, 0⟩ 3 3 =
        inverseTransformBlockGeneric exactOps Target.scalar (fun _ => ExactFloat.zero)
          (fun k => k) (fun _ => ExactFloat.ofReal 1) (fun _ => ExactFloat.ofReal 1)
          (fun _ _ => ExactFloat.zero) ⟨false, 0⟩ ⟨true, 0⟩ 3 3 :=
  have hap : Apart ((⟨false, 0⟩ : Ptr Bool) + 64) 8 ⟨true, 0⟩ 8 8 8 :=
    fun _ _ _ _ _ _ _ _ => Or.inl Bool.false_ne_true
  ⟨⟨le_rfl, hap⟩,
    (inverseTransformBlock_lanes_independent exactOps _ _ _ _ _ _ _ _ 8).1 8 le_rfl hap,
    (inverseTransformBlock_lanes_independent exactOps _ _ _ _ _ _ _ _ 3).2 3⟩

end JpegliIdct
