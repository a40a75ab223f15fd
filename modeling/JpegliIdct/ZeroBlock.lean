import JpegliIdct.Observable

/-!
# An all-zero block stores zeros, in any arithmetic with the zero laws

The exact reading says that a block of zero coefficients transforms to zero, but the code runs
in single precision, where `0 · x` may be `-0` and rounding could in principle leave noise.
This module states the fact for the code as it runs: for every per-lane arithmetic and every
set `Z` of "zero" values closed under what the kernel does to data (`ZeroLaws`), an all-zero
coefficient block makes every path of `ChooseInverseTransform`'s transforms store values of `Z`
(`chooseInverseTransform_zero_block`). IEEE single precision obeys the laws with
`Z = {+0, -0}`, since every literal of the kernel is finite.

Each function of the kernel gets one closure lemma, by the recursion of its definition
(`idctCol_zero`, `foldl_addTerm_zero`); the dispatch is the refinement of `Observable`, so the
paths are covered through `installedOutput`.
-/

namespace JpegliIdct

variable {α : Type}

/-- The laws of a set `Z` of zero values under the lane operations `O`, for the operations the
kernel applies to data: sums and differences of two zeros are zeros; a zero times a literal, a
literal times a zero, and a fused multiply-add of a literal times a zero onto a zero are zeros;
`Zero()` and the conversion of the integer `0` are zeros; the absolute value of a zero is not
greater than `Zero()`; and `IfThenElseZero` of a false mask is `Zero()`. -/
structure ZeroLaws (O : LaneOps α) (Z : α → Prop) : Prop where
  add : ∀ {a b}, Z a → Z b → Z (O.add a b)
  sub : ∀ {a b}, Z a → Z b → Z (O.sub a b)
  mul_lit : ∀ c {a}, Z a → Z (O.mul a (O.lit c))
  lit_mul : ∀ c {a}, Z a → Z (O.mul (O.lit c) a)
  mulAdd : ∀ c {x a}, Z x → Z a → Z (O.mulAdd (O.lit c) x a)
  negMulAdd : ∀ c {x a}, Z x → Z a → Z (O.negMulAdd (O.lit c) x a)
  zero : Z O.zero
  convertTo_zero : Z (O.convertTo 0)
  gt_abs : ∀ {a}, Z a → O.gt (O.abs a) O.zero = false
  ifThenElseZero_false : ∀ a, O.ifThenElseZero false a = O.zero

section Closure

variable {O : LaneOps α} {Z : α → Prop} (L : ZeroLaws O Z)
include L

/-- `DequantBlock` turns a zero coefficient into a zero, whatever its multiplier and bias: the
mask `Gt(Abs(0), Zero())` is false. -/
theorem dequantLane_zero (mul bias : α) : Z (dequantLane O 0 mul bias) := by
  simp only [dequantLane, L.gt_abs L.convertTo_zero, L.ifThenElseZero_false]
  exact L.zero

theorem bTransposeCol_zero {M : ℕ} {y : ℕ → α} (hy : ∀ j, Z (y j)) (i : ℕ) :
    Z (bTransposeCol O.toFloatArith M y i) := by
  simp only [bTransposeCol]
  split_ifs
  · exact L.mul_lit _ (hy 0)
  · exact L.add (hy i) (hy (i - 1))
  · exact hy i

/-- `IDCT1DImpl<2^k>` on a column of zeros stores zeros, by its own recursion. -/
theorem idctCol_zero : ∀ (k : ℕ) {x : ℕ → α}, (∀ j, Z (x j)) →
    ∀ r, Z (idctCol O.toFloatArith k x r)
  | 0, x, hx, _ => hx 0
  | 1, x, hx, r => by
    simp only [idctCol]
    split_ifs
    · exact L.add (hx 0) (hx 1)
    · exact L.sub (hx 0) (hx 1)
  | k + 2, x, hx, r => by
    have he := idctCol_zero (k + 1) (x := fun i => x (2 * i)) fun j => hx _
    have ho := idctCol_zero (k + 1) (bTransposeCol_zero L (M := 2 ^ (k + 2) / 2)
      (y := fun i => x (2 * i + 1)) fun j => hx _)
    simp only [idctCol]
    split_ifs
    · exact L.mulAdd _ (ho _) (he _)
    · exact L.negMulAdd _ (ho _) (he _)

theorem idctRows_zero {X : ℕ → ℕ → α} (hX : ∀ v u, Z (X v u)) (r c : ℕ) :
    Z (idctRows O.toFloatArith X r c) :=
  idctCol_zero L 3 (hX c) r

theorem foldl_addTerm_zero {N j : ℕ} {x : ℕ → α} (hx : ∀ u, Z (x u)) :
    ∀ (l : List ℕ) {acc : α}, Z acc → Z (l.foldl (addTerm O.toFloatArith N j x) acc)
  | [], _, h => h
  | u :: l, acc, h => by
    rw [List.foldl_cons]
    refine foldl_addTerm_zero hx l ?_
    simp only [addTerm]
    split
    · exact L.add h (L.lit_mul _ (hx u))
    · exact L.sub h (L.lit_mul _ (hx u))
    · exact h

/-- `Compute1dIDCT` on zeros stores zeros: each output is a sum or difference of the two
folds `even_j` and `odd_j` of terms `kC · 0`. -/
theorem compute1dAt_zero {N : ℕ} {x : ℕ → α} (hx : ∀ u, Z (x u)) (i : ℕ) :
    Z (compute1dAt O.toFloatArith N x i) := by
  have hsum : ∀ j, Z (evenSum O.toFloatArith N x j) ∧ Z (oddSum O.toFloatArith N x j) :=
    fun j => ⟨foldl_addTerm_zero L hx _ (hx 0), foldl_addTerm_zero L hx _ (L.lit_mul _ (hx 1))⟩
  have hall : ∀ v ∈ tableIDCT O.toFloatArith N x, Z v := by
    simp only [tableIDCT, List.mem_append, List.mem_map, List.mem_reverse]
    rintro v (⟨j, -, rfl⟩ | hmid | ⟨j, -, rfl⟩)
    · exact L.add (hsum j).1 (hsum j).2
    · split_ifs at hmid
      · rw [List.mem_singleton.1 hmid]
        exact (hsum _).1
      · exact absurd hmid (List.not_mem_nil v)
    · exact L.sub (hsum j).1 (hsum j).2
  rw [compute1dAt, List.getD_eq_getElem?_getD]
  cases h : (tableIDCT O.toFloatArith N x)[i]? with
  | none => exact hx 0
  | some v => exact hall v (List.getElem?_mem h)

/-- Every transform `ChooseInverseTransform` installs maps a block of zeros to zeros. -/
theorem installedOutput_zero {N : ℕ} {X : ℕ → ℕ → α} (hX : ∀ v u, v < 8 → u < 8 → Z (X v u))
    {r c : ℕ} (hr : r < N) (hc : c < N) : Z (installedOutput O.toFloatArith N X r c) := by
  -- the transforms read only the first 8 rows and columns: extend the block by zeros
  set X' : ℕ → ℕ → α := fun v u => if v < 8 ∧ u < 8 then X v u else X 0 0
  have hX' : ∀ v u, Z (X' v u) := fun v u => by
    simp only [X']
    split_ifs with h
    · exact hX v u h.1 h.2
    · exact hX 0 0 (by decide) (by decide)
  have hread : coefficientsRead N ≤ 8 := by
    simp only [coefficientsRead]
    split_ifs <;> omega
  rw [installedOutput_congr O.toFloatArith (Y := X') (fun v u hv hu => by
    simp only [X']
    rw [if_pos ⟨by omega, by omega⟩]) hr hc]
  have hZ := idctRows_zero L (idctRows_zero L hX')
  simp only [installedOutput]
  split_ifs
  · exact hZ r c
  · exact hX' 0 0
  · exact L.lit_mul _ (L.add (L.add (L.add (hZ _ _) (hZ _ _)) (hZ _ _)) (hZ _ _))
  · refine L.lit_mul _ ?_
    repeat' apply L.add
    all_goals exact hZ _ _
  · exact compute1dAt_zero L (fun u => compute1dAt_zero L (fun v => hX' v u) r) c

end Closure

/-- **An all-zero block stores zeros, on every path and target.** For every per-lane arithmetic
and set `Z` of zeros obeying `ZeroLaws`, every size up to 16, multipliers, biases, memory, scratch
contents and output stride of at least `N` apart from the scratch space: if the 64 coefficients
are `0`, the transform `ChooseInverseTransform` installs returns and stores a value of `Z` to
each of the `N × N` outputs. -/
theorem chooseInverseTransform_zero_block (O : LaneOps α) (Z : α → Prop) (L : ZeroLaws O Z)
    (T : Target) (uninit : ℕ → α) (qblock : ℕ → ℤ) (dequant biases : ℕ → α) {ρ : Type}
    [DecidableEq ρ] (m : Mem ρ α) (scratchSpace output : Ptr ρ) (outputStride : ℕ) {N : ℕ}
    (hN : N ≤ 16) (hs : N ≤ outputStride) (hsep : scratchSpace.buf ≠ output.buf)
    (hq : ∀ k < 64, qblock k = 0) :
    ∃ m', chooseInverseTransform O T N uninit qblock dequant biases m scratchSpace output
        outputStride N = some m' ∧
      ∀ y < N, ∀ x < N, Z (m' output.buf (output.off + (y * outputStride + x))) := by
  obtain ⟨m', h, -, hobs⟩ := chooseInverseTransform_result O T uninit qblock dequant biases m
    scratchSpace output hsep hN hs
  refine ⟨m', h, fun y hy x hx => ?_⟩
  rw [hobs _ hsep.symm, Mem.overwrite_cell (by omega)]
  simp only [hy, hx, decide_True, Bool.and_self, if_true]
  refine installedOutput_zero L (fun v u hv hu => ?_) hy hx
  rw [dequantBlock8, hq _ (by omega)]
  exact dequantLane_zero L _ _

/-- The exact reading obeys the zero laws, with the values whose real value is `0`. -/
theorem exactOps_zeroLaws : ZeroLaws exactOps (fun a => a.val = 0) where
  add ha hb := by simp [exactOps, ha, hb]
  sub ha hb := by simp [exactOps, ha, hb]
  mul_lit _ _ ha := by simp [exactOps, ha]
  lit_mul _ _ ha := by simp [exactOps, ha]
  mulAdd _ _ _ hx ha := by simp [exactOps, hx, ha]
  negMulAdd _ _ _ hx ha := by simp [exactOps, hx, ha]
  zero := ExactFloat.val_zero
  convertTo_zero := by simp [exactOps]
  gt_abs {a} ha := by
    have hmag : a.mag = 0 := by
      simp only [ExactFloat.val] at ha
      split_ifs at ha <;> linarith
    simp [exactOps, ExactFloat.val, ExactFloat.zero, hmag]
  ifThenElseZero_false _ := rfl

/-- Size 4 in the exact reading, on the zero block with unit multipliers and biases `1`. -/
theorem chooseInverseTransform_zero_block_four :
    (ZeroLaws exactOps (fun a => a.val = 0) ∧ 4 ≤ 16 ∧ 4 ≤ 4 ∧
      (⟨false, 0⟩ : Ptr Bool).buf ≠ (⟨true, 0⟩ : Ptr Bool).buf ∧
      ∀ k < 64, (fun _ => 0 : ℕ → ℤ) k = 0) ∧
      ∃ m', chooseInverseTransform exactOps Target.scalar 4 (fun _ => ExactFloat.zero)
          (fun _ => 0) (fun _ => ExactFloat.ofReal 1) (fun _ => ExactFloat.ofReal 1)
          (fun _ _ => ExactFloat.ofReal 5) ⟨false, 0⟩ ⟨true, 0⟩ 4 4 = some m' ∧
        ∀ y < 4, ∀ x < 4, (m' true (0 + (y * 4 + x))).val = 0 :=
  ⟨⟨exactOps_zeroLaws, by norm_num, le_rfl, Bool.false_ne_true, fun _ _ => rfl⟩,
    chooseInverseTransform_zero_block exactOps _ exactOps_zeroLaws Target.scalar _ _ _ _ _
      ⟨false, 0⟩ ⟨true, 0⟩ 4 (by norm_num) le_rfl Bool.false_ne_true fun _ _ => rfl⟩

end JpegliIdct
