import JpegliIdct.Idct1D
import JpegliIdct.Compute1d

/-!
# The block transforms

The two entry points of the kernel, as the code writes them, over an arithmetic `O` and a
target `T`:

* `inverseTransformBlock8x8`: `DequantBlock` into `block0 = scratch_space`, then
  `ComputeScaledIDCT`, which transposes into `block1 = scratch_space + 64`, runs `IDCT1D<8>` back
  into `block0`, transposes again and runs `IDCT1D<8>` into the output;
* `inverseTransformBlockGeneric`: `DequantBlock`, then by `dctsize` the copy of the DC
  coefficient (`1`), `ComputeScaledIDCT` into `block2 = scratch_space + 128` followed by the box
  averages (`2`, `4`), or the two passes of `Compute1dIDCT` through the local arrays `dctin` and
  `dctout` (every other size). It returns `none` where `Compute1dIDCT` reaches `JXL_ABORT`;
* `chooseInverseTransform`, which installs the first for scaled size 8 and the second otherwise.

Local arrays hold `uninit` until the code stores to them. `Transpose8x8Block` lives in Highway's
`transpose-inl.h`, outside the sources; it is modelled as the matrix transpose.
-/

namespace JpegliIdct

variable {α : Type} {ρ : Type} [DecidableEq ρ]

/-! ## `DequantBlock` -/

section Dequant

variable (O : LaneOps α)

/-- One lane of `DequantBlock`: the coefficient `q`, its multiplier and its bias. -/
def dequantLane (q : ℤ) (mul bias : α) : α :=
  let quant := O.convertTo q
  let absQuant := O.abs quant
  let not0 := O.gt absQuant O.zero
  let signQuant := O.xor quant absQuant
  let biasedQuant := O.sub quant (O.xor bias signQuant)
  O.ifThenElseZero not0 (O.mul biasedQuant mul)

/-- `DequantBlock(qblock, dequant, biases, block)`, `Lanes(d)` coefficients an iteration. -/
def dequantBlock (T : Target) (qblock : ℕ → ℤ) (dequant biases : ℕ → α) (m : Mem ρ α)
    (block : Ptr ρ) : Mem ρ α :=
  (forStep 0 64 T.lanes).foldl (fun m k =>
    store T.lanes (fun l => dequantLane O (qblock (k + l)) (dequant (k + l)) (biases (k + l)))
      m (block + k)) m

end Dequant

/-! ## `ComputeScaledIDCT` -/

/-- Modelled from the spec: `Transpose8x8Block(from, to)`, Highway's transpose, whose source is
not in the repository, stores the matrix transpose of the row-major 8 × 8 block at `from` to
the one at `to`. -/
def transpose8x8Block (m : Mem ρ α) (src dst : Ptr ρ) : Mem ρ α :=
  m.overwrite dst 8 (fun r c => r < 8 && c < 8) (fun r c => m.col src 8 r c)

section Scaled

variable (A : FloatArith α) (T : Target)

/-- `ComputeScaledIDCT(block0, block1, output, output_stride)`. -/
def computeScaledIDCT (uninit : ℕ → α) (m : Mem ρ α) (block0 block1 output : Ptr ρ)
    (outputStride : ℕ) : Mem ρ α :=
  let m := transpose8x8Block m block0 block1
  let m := idct1D A T.lanes8 uninit 3 m block1 block0 8
  let m := transpose8x8Block m block0 block1
  idct1D A T.lanes8 uninit 3 m block1 output outputStride

/-- The `dctsize == 4` branch: output `(iy, ix)` is `0.25f` times the sum of the 2 × 2 tile of
`block2` at `16 * iy + 2 * ix`. -/
def boxAverage4 (m : Mem ρ α) (block2 output : Ptr ρ) (outputStride : ℕ) : Mem ρ α :=
  (List.range 4).foldl (fun m iy => (List.range 4).foldl (fun m ix =>
    let block : ℕ → Scalar A := load m (block2 + (16 * iy + 2 * ix))
    write (Scalar.lit A .quarter * (block 0 + block 1 + block 8 + block 9)) m
      (output + (iy * outputStride + ix))) m) m

/-- The `dctsize == 2` branch: output `(iy, ix)` is `0.0625f` times the sum of the 4 × 4 tile
of `block2` at `32 * iy + 4 * ix`. -/
def boxAverage2 (m : Mem ρ α) (block2 output : Ptr ρ) (outputStride : ℕ) : Mem ρ α :=
  (List.range 2).foldl (fun m iy => (List.range 2).foldl (fun m ix =>
    let block : ℕ → Scalar A := load m (block2 + (32 * iy + 4 * ix))
    write (Scalar.lit A .sixteenth *
        (block 0 + block 1 + block 2 + block 3 + block 8 + block 9 + block 10 + block 11 +
          block 16 + block 17 + block 18 + block 19 + block 24 + block 25 + block 26 + block 27))
      m (output + (iy * outputStride + ix))) m) m

/-- Column `ix` of the first pass of the other sizes: copy `block0[iy * 8 + ix]` to `dctin[iy]`
for `iy < insize`, transform `dctin` into `dctout`, and store `dctout[iy]` to
`block1[iy * dctsize + ix]` for `iy < dctsize`. The state is the memory and the two local
arrays. -/
def columnPass (dctsize : ℕ) (block0 block1 : Ptr ρ) (s : Mem ρ α × (ℕ → α) × (ℕ → α))
    (ix : ℕ) : Option (Mem ρ α × (ℕ → α) × (ℕ → α)) :=
  let insize := min dctsize 8
  let dctin := (List.range insize).foldl
    (fun dctin iy => Function.update dctin iy (s.1 block0.buf (block0.off + (iy * 8 + ix)))) s.2.1
  (compute1dIDCT A dctin dctsize).map fun out =>
    let dctout := fun i => out.getD i (s.2.2 i)
    ((List.range dctsize).foldl (fun m iy => write (dctout iy) m (block1 + (iy * dctsize + ix)))
      s.1, dctin, dctout)

/-- Row `iy` of the second pass: `Compute1dIDCT(block1 + iy * dctsize, output + iy *
output_stride, dctsize)`. -/
def rowPass (dctsize : ℕ) (block1 output : Ptr ρ) (outputStride : ℕ) (m : Mem ρ α) (iy : ℕ) :
    Option (Mem ρ α) :=
  (compute1dIDCT A (load m (block1 + iy * dctsize)) dctsize).map
    (m.storeList (output + iy * outputStride))

end Scaled

/-! ## The entry points -/

section Entry

variable (O : LaneOps α) (T : Target)

/-- `InverseTransformBlock8x8(qblock, dequant, biases, scratch_space, output, output_stride,
dctsize)`; `dctsize` is not read. -/
def inverseTransformBlock8x8 (uninit : ℕ → α) (qblock : ℕ → ℤ) (dequant biases : ℕ → α)
    (m : Mem ρ α) (scratchSpace output : Ptr ρ) (outputStride _dctsize : ℕ) : Mem ρ α :=
  let block0 := scratchSpace
  let block1 := scratchSpace + 64
  let m := dequantBlock O T qblock dequant biases m block0
  computeScaledIDCT O.toFloatArith T uninit m block0 block1 output outputStride

/-- `InverseTransformBlockGeneric(qblock, dequant, biases, scratch_space, output,
output_stride, dctsize)`, or `none` where it aborts. -/
def inverseTransformBlockGeneric (uninit : ℕ → α) (qblock : ℕ → ℤ) (dequant biases : ℕ → α)
    (m : Mem ρ α) (scratchSpace output : Ptr ρ) (outputStride dctsize : ℕ) : Option (Mem ρ α) :=
  let A := O.toFloatArith
  let block0 := scratchSpace
  let block1 := scratchSpace + 64
  let m := dequantBlock O T qblock dequant biases m block0
  if dctsize = 1 then
    some (write (m block0.buf block0.off) m output)
  else if dctsize = 2 ∨ dctsize = 4 then
    let block2 := scratchSpace + 2 * 64
    let m := computeScaledIDCT A T uninit m block0 block1 block2 8
    if dctsize = 4 then some (boxAverage4 A m block2 output outputStride)
    else some (boxAverage2 A m block2 output outputStride)
  else
    let insize := min dctsize 8
    ((List.range insize).foldlM (columnPass A dctsize block0 block1) (m, uninit, uninit)).bind
      fun s => (List.range dctsize).foldlM (rowPass A dctsize block1 output outputStride) s.1

/-- `ChooseInverseTransform`: the transform it installs for a component of scaled size
`scaledDctSize`, applied to the arguments of a call. -/
def chooseInverseTransform (scaledDctSize : ℕ) (uninit : ℕ → α) (qblock : ℕ → ℤ)
    (dequant biases : ℕ → α) (m : Mem ρ α) (scratchSpace output : Ptr ρ)
    (outputStride dctsize : ℕ) : Option (Mem ρ α) :=
  if scaledDctSize = 8 then
    some (inverseTransformBlock8x8 O T uninit qblock dequant biases m scratchSpace output
      outputStride dctsize)
  else
    inverseTransformBlockGeneric O T uninit qblock dequant biases m scratchSpace output
      outputStride dctsize

end Entry

/-! ## What `DequantBlock` and `ComputeScaledIDCT` store -/

/-- `DequantBlock` fills the 64 elements of the block, each with its own lane's value, whatever
the lane count. -/
theorem dequantBlock_eq (O : LaneOps α) (T : Target) (qblock : ℕ → ℤ) (dequant biases : ℕ → α)
    (m : Mem ρ α) (block : Ptr ρ) :
    dequantBlock O T qblock dequant biases m block =
      m.fill block 64 (fun k => dequantLane O (qblock k) (dequant k) (biases k)) := by
  have hL := T.lanes_pos
  have loop : ∀ n, (List.range' 0 n T.lanes).foldl (fun m k =>
      store T.lanes (fun l => dequantLane O (qblock (k + l)) (dequant (k + l)) (biases (k + l)))
        m (block + k)) m =
      m.fill block (T.lanes * n) (fun k => dequantLane O (qblock k) (dequant k) (biases k)) := by
    intro n
    induction n with
    | zero => funext b o; exact (if_neg (fun h => by omega)).symm
    | succ n ih =>
      rw [List.range'_concat, List.foldl_append, ih, List.foldl_cons, List.foldl_nil,
        Nat.zero_add, store, Mem.fill_fill, Nat.mul_succ]
  rw [dequantBlock, forStep_zero_of_dvd hL T.lanes_dvd, loop, Nat.mul_div_cancel' T.lanes_dvd]

/-- The block `X` (row `r`, column `c`) after `IDCT1D<8>` of its transpose: row `c` of `X`,
transformed, stored as column `c`. -/
def idctRows (A : FloatArith α) (X : ℕ → ℕ → α) (r c : ℕ) : α := idctCol A 3 (X c) r

theorem idctRows_congr (A : FloatArith α) {X Y : ℕ → ℕ → α}
    (h : ∀ r c, r < 8 → c < 8 → X r c = Y r c) {r c : ℕ} (hc : c < 8) :
    idctRows A X r c = idctRows A Y r c :=
  idctCol_congr A 3 (fun j hj => h c j hc hj) r

/-- The 8 × 8 block at `p`, row `r` and column `c`. -/
def Mem.block8 (m : Mem ρ α) (p : Ptr ρ) (r c : ℕ) : α := m.col p 8 c r

section Scaled

variable (A : FloatArith α) (T : Target)

/-- A transpose into `block1` followed by `IDCT1D<8>` out of it stores `idctRows` of the
block at `block0` to the output. -/
theorem idct1D_transpose8x8Block (uninit : ℕ → α) (m : Mem ρ α) (block0 block1 output : Ptr ρ)
    {s : ℕ} (hs : 8 ≤ s) (hap : Apart block1 8 output s 8 8) :
    idct1D A T.lanes8 uninit 3 (transpose8x8Block m block0 block1) block1 output s =
      (transpose8x8Block m block0 block1).overwrite output s (fun r c => r < 8 && c < 8)
        (idctRows A (m.block8 block0)) := by
  rw [idct1D_eq A T.lanes8 uninit T.lanes8_dvd 3 _ _ _ s hs hap]
  refine Mem.overwrite_congr (by omega) (fun _ _ _ => rfl) (fun r c _ h => ?_)
  simp only [Bool.and_eq_true, decide_eq_true_eq] at h
  refine idctCol_congr A 3 (fun j hj => ?_) r
  rw [transpose8x8Block, Mem.col_overwrite (by omega)]
  simp [show j < 8 from hj, h.2, Mem.block8]

/-- The block at `p` after an overwrite of its 8 × 8 cells. -/
theorem Mem.block8_overwrite (m : Mem ρ α) (p : Ptr ρ) (v : ℕ → ℕ → α) {r c : ℕ} (hr : r < 8)
    (hc : c < 8) : (m.overwrite p 8 (fun r c => r < 8 && c < 8) v).block8 p r c = v r c := by
  simp [Mem.block8, Mem.col_overwrite hc, hr, hc]

/-- `ComputeScaledIDCT` for every lane count: with `X` the block at `block0`, it leaves `Y =
idctRows X` in `block0`, its transpose in `block1 = block0 + 64`, and stores `idctRows Y` to
the output, provided the output block does not overlap `block1`, which the last pass reads. -/
theorem computeScaledIDCT_eq (uninit : ℕ → α) (m : Mem ρ α) (block0 output : Ptr ρ) {s : ℕ}
    (hs : 8 ≤ s) (hap : Apart (block0 + 64) 8 output s 8 8) :
    computeScaledIDCT A T uninit m block0 (block0 + 64) output s =
      (((m.overwrite (block0 + 64) 8 (fun r c => r < 8 && c < 8) (fun r c => m.block8 block0 c r)
        ).overwrite block0 8 (fun r c => r < 8 && c < 8) (idctRows A (m.block8 block0))
        ).overwrite (block0 + 64) 8 (fun r c => r < 8 && c < 8)
          (fun r c => idctRows A (m.block8 block0) c r)
        ).overwrite output s (fun r c => r < 8 && c < 8)
          (idctRows A (idctRows A (m.block8 block0))) := by
  have h10 : Apart (block0 + 64) 8 block0 8 8 8 :=
    fun r _ c _ r' hr' c' hc' => Or.inr (by simp only [Ptr.add_off]; omega)
  simp only [computeScaledIDCT]
  rw [idct1D_transpose8x8Block A T uninit m _ _ _ le_rfl h10,
    idct1D_transpose8x8Block A T uninit _ _ _ _ hs hap]
  generalize hY : (transpose8x8Block m block0 (block0 + 64)).overwrite block0 8
    (fun r c => r < 8 && c < 8) (idctRows A (m.block8 block0)) = m₃
  have hb : ∀ r c, r < 8 → c < 8 → m₃.block8 block0 r c = idctRows A (m.block8 block0) r c :=
    fun r c hr hc => by rw [← hY, Mem.block8_overwrite _ _ _ hr hc]
  rw [transpose8x8Block]
  refine (Mem.overwrite_congr (by omega) (fun _ _ _ => rfl) (fun r c _ h => ?_)).trans
    (congrArg (fun M => Mem.overwrite M output s (fun r c => r < 8 && c < 8) _) (hY.symm ▸
      Mem.overwrite_congr (by omega) (fun _ _ _ => rfl) (fun r c _ h => ?_)))
  · simp only [Bool.and_eq_true, decide_eq_true_eq] at h
    exact idctRows_congr A hb h.2
  · simp only [Bool.and_eq_true, decide_eq_true_eq] at h
    exact hb c r h.2 h.1

/-- The `dctsize == 4` averages store each output from its tile of `block2`, which they only
read, when `block2` and the output are in different buffers. -/
theorem boxAverage4_eq (m : Mem ρ α) (block2 output : Ptr ρ) {s : ℕ}
    (hb : block2.buf ≠ output.buf) (hs : 4 ≤ s) :
    boxAverage4 A m block2 output s = m.overwrite output s (fun r c => r < 4 && c < 4)
      (fun iy ix => let block : ℕ → Scalar A := load m (block2 + (16 * iy + 2 * ix))
        Scalar.lit A .quarter * (block 0 + block 1 + block 8 + block 9)) := by
  unfold boxAverage4
  exact foldl_write_block_frame hb (by omega) hs _
    (fun m₁ m₂ h => by funext iy ix; simp only [load, Ptr.add_buf, h]) m

/-- The `dctsize == 2` averages, likewise. -/
theorem boxAverage2_eq (m : Mem ρ α) (block2 output : Ptr ρ) {s : ℕ}
    (hb : block2.buf ≠ output.buf) (hs : 2 ≤ s) :
    boxAverage2 A m block2 output s = m.overwrite output s (fun r c => r < 2 && c < 2)
      (fun iy ix => let block : ℕ → Scalar A := load m (block2 + (32 * iy + 4 * ix))
        Scalar.lit A .sixteenth *
          (block 0 + block 1 + block 2 + block 3 + block 8 + block 9 + block 10 + block 11 +
            block 16 + block 17 + block 18 + block 19 + block 24 + block 25 + block 26 +
            block 27)) := by
  unfold boxAverage2
  exact foldl_write_block_frame hb (by omega) hs _
    (fun m₁ m₂ h => by funext iy ix; simp only [load, Ptr.add_buf, h]) m

end Scaled

omit [DecidableEq ρ] in
/-- The three blocks of the scratch space are apart. -/
theorem apart_block1_block2 (scratchSpace : Ptr ρ) :
    Apart (scratchSpace + 64) 8 (scratchSpace + 2 * 64) 8 8 8 :=
  fun r _ c _ r' hr' c' hc' => Or.inr (by simp only [Ptr.add_off]; omega)

/-- The block at `p` after a fill of its 64 elements. -/
theorem Mem.block8_fill (m : Mem ρ α) (p : Ptr ρ) (f : ℕ → α) {r c : ℕ} (hr : r < 8) (hc : c < 8) :
    (m.fill p 64 f).block8 p r c = f (r * 8 + c) := by
  simp only [Mem.block8, Mem.col, Mem.fill, true_and, Nat.le_add_right, Nat.add_sub_cancel_left]
  rw [if_pos (by omega)]

/-- The row-major 8 × 8 block of dequantised coefficients. -/
def dequantBlock8 (O : LaneOps α) (qblock : ℕ → ℤ) (dequant biases : ℕ → α) (r c : ℕ) : α :=
  dequantLane O (qblock (r * 8 + c)) (dequant (r * 8 + c)) (biases (r * 8 + c))

/-- The two passes see, in the first 8 × 8 cells, only the dequantised block that
`DequantBlock` filled in. -/
theorem idctRows_idctRows_fill (O : LaneOps α) (qblock : ℕ → ℤ) (dequant biases : ℕ → α)
    (m : Mem ρ α) (p : Ptr ρ) (r : ℕ) {c : ℕ} (hc : c < 8) :
    idctRows O.toFloatArith (idctRows O.toFloatArith
        ((m.fill p 64 (fun k => dequantLane O (qblock k) (dequant k) (biases k))).block8 p)) r c =
      idctRows O.toFloatArith (idctRows O.toFloatArith (dequantBlock8 O qblock dequant biases)) r c :=
  idctRows_congr _ (fun _ _ _ hc' => idctRows_congr _
    (fun _ _ hr'' hc'' => Mem.block8_fill _ _ _ hr'' hc'') hc') hc

/-- `InverseTransformBlock8x8` stores `idctRows (idctRows X)` of the dequantised block `X` to the
output block; everywhere else it changes only the scratch buffer. -/
theorem inverseTransformBlock8x8_eq (O : LaneOps α) (T : Target) (uninit : ℕ → α)
    (qblock : ℕ → ℤ) (dequant biases : ℕ → α) (m : Mem ρ α) (scratchSpace output : Ptr ρ)
    {s : ℕ} (hs : 8 ≤ s) (hsep : scratchSpace.buf ≠ output.buf) (dctsize : ℕ) :
    ∃ M : Mem ρ α, (∀ b, b ≠ scratchSpace.buf → M b = m b) ∧
      inverseTransformBlock8x8 O T uninit qblock dequant biases m scratchSpace output s dctsize =
        M.overwrite output s (fun r c => r < 8 && c < 8)
          (idctRows O.toFloatArith (idctRows O.toFloatArith (dequantBlock8 O qblock dequant biases))) := by
  have hap : Apart (scratchSpace + 64) 8 output s 8 8 := fun _ _ _ _ _ _ _ _ => Or.inl hsep
  simp only [inverseTransformBlock8x8, dequantBlock_eq]
  rw [computeScaledIDCT_eq _ T _ _ _ _ hs hap]
  refine ⟨_, fun b hb => ?_, Mem.overwrite_congr (by omega) (fun _ _ _ => rfl) (fun r c _ h => ?_)⟩
  · funext o
    simp only [Mem.overwrite_ne (show b ≠ (scratchSpace + 64).buf from hb), Mem.overwrite_ne hb,
      Mem.fill_ne hb]
  · simp only [Bool.and_eq_true, decide_eq_true_eq] at h
    exact idctRows_idctRows_fill O qblock dequant biases m _ r h.2

/-- A read inside an overwritten 8 × 8 block. -/
theorem load_overwrite8 (M : Mem ρ α) (p : Ptr ρ) (Z : ℕ → ℕ → α) {o l r c : ℕ}
    (h : o + l = r * 8 + c) (hr : r < 8) (hc : c < 8) :
    load (M.overwrite p 8 (fun r c => r < 8 && c < 8) Z) (p + o) l = Z r c := by
  have := Mem.block8_overwrite M p Z hr hc
  simp only [Mem.block8, Mem.col] at this
  simp only [load, Ptr.add_buf, Ptr.add_off, Nat.add_assoc, h, this]

/-- The branches `dctsize == 2` and `dctsize == 4` of `InverseTransformBlockGeneric`:
`block2 = scratch_space + 128` holds the two-pass transform `Z` of the dequantised block when the
box averages read it. -/
theorem inverseTransformBlockGeneric_box (O : LaneOps α) (T : Target) (uninit : ℕ → α)
    (qblock : ℕ → ℤ) (dequant biases : ℕ → α) (m : Mem ρ α) (scratchSpace output : Ptr ρ)
    (s : ℕ) {N : ℕ} (hN : N = 2 ∨ N = 4) :
    ∃ M : Mem ρ α, (∀ o l r c, o + l = r * 8 + c → r < 8 → c < 8 →
        load M (scratchSpace + 2 * 64 + o) l = idctRows O.toFloatArith
          (idctRows O.toFloatArith (dequantBlock8 O qblock dequant biases)) r c) ∧
      inverseTransformBlockGeneric O T uninit qblock dequant biases m scratchSpace output s N =
        some (if N = 4 then boxAverage4 O.toFloatArith M (scratchSpace + 2 * 64) output s
          else boxAverage2 O.toFloatArith M (scratchSpace + 2 * 64) output s) := by
  have h1 : N ≠ 1 := by omega
  simp only [inverseTransformBlockGeneric, dequantBlock_eq, if_neg h1, if_pos hN]
  rw [computeScaledIDCT_eq _ T _ _ _ _ le_rfl (apart_block1_block2 scratchSpace)]
  refine ⟨_, fun o l r c h hr hc => ?_, by split_ifs <;> rfl⟩
  rw [load_overwrite8 _ _ _ h hr hc, idctRows_idctRows_fill O qblock dequant biases m _ r hc]

/-! ## The two passes of `Compute1dIDCT` -/

/-- The copy loop into a local array: the first `n` entries are stored, the rest keep their
value. -/
theorem foldl_update_range (f : ℕ → α) (d : ℕ → α) (n : ℕ) :
    (List.range n).foldl (fun d i => Function.update d i (f i)) d =
      fun i => if i < n then f i else d i := by
  induction n with
  | zero => simp
  | succ n ih =>
    funext i
    rw [List.range_succ, List.foldl_append, ih, List.foldl_cons, List.foldl_nil]
    by_cases h : i = n
    · subst h
      simp
    · simp only [Function.update_noteq h]
      split_ifs <;> first | rfl | omega

section Passes

variable (A : FloatArith α) {N : ℕ} (hN : N ∈ scaledSizes)
include hN

/-- The first pass stores, in column `ix < min(N, 8)` of the `N × N` block at
`block1 = block0 + 64`, the transform of column `ix` of the block `X` at `block0`; what the
local arrays hold afterwards does not matter. -/
theorem foldlM_columnPass (m : Mem ρ α) (block0 : Ptr ρ) (X : ℕ → ℕ → α)
    (hX : ∀ v c, v < 8 → c < 8 → m.block8 block0 v c = X v c) (din dout : ℕ → α) :
    ∃ din' dout' : ℕ → α,
      (List.range (min N 8)).foldlM (columnPass A N block0 (block0 + 64)) (m, din, dout) =
        some (m.overwrite (block0 + 64) N (fun r c => r < N && c < min N 8)
          (fun r c => compute1dAt A N (fun v => X v c) r), din', dout') := by
  have h2 := two_le_of_mem_scaledSizes hN
  suffices ∀ k ≤ min N 8, ∃ din' dout' : ℕ → α,
      (List.range k).foldlM (columnPass A N block0 (block0 + 64)) (m, din, dout) =
        some (m.overwrite (block0 + 64) N (fun r c => r < N && c < k)
          (fun r c => compute1dAt A N (fun v => X v c) r), din', dout') from
    this _ le_rfl
  intro k hk
  induction k with
  | zero =>
    exact ⟨din, dout, by rw [Mem.overwrite_of_false (fun _ _ => by simp)]; rfl⟩
  | succ k ih =>
    obtain ⟨din', dout', hk'⟩ := ih (by omega)
    -- the copy into `dctin` reads column `k` of `block0`, which the first `k` columns of
    -- `block1` do not touch
    have hcol : ∀ u < min N 8,
        (List.range (min N 8)).foldl (fun d iy => Function.update d iy
          ((m.overwrite (block0 + 64) N (fun r c => r < N && c < k)
            (fun r c => compute1dAt A N (fun v => X v c) r)) block0.buf
              (block0.off + (iy * 8 + k)))) din' u = X u k := by
      intro u hu
      simp only [foldl_update_range, if_pos hu]
      rw [Mem.overwrite_lt (by simp only [Ptr.add_off]; omega), ← hX u k (by omega) (by omega)]
      rfl
    simp only [List.range_succ, List.foldlM_append, hk', List.foldlM_cons, List.foldlM_nil,
      bind_pure, Option.bind_eq_bind, Option.some_bind]
    rw [columnPass]
    simp only []
    rw [compute1dIDCT_congr hcol, compute1dIDCT_eq_compute1dAt A _ hN]
    simp only [Option.map_some', Option.some.injEq, Prod.mk.injEq]
    refine ⟨_, _, ?_, rfl, rfl⟩
    rw [foldl_write_col _ (by omega), Mem.overwrite_overwrite (by omega)]
    refine Mem.overwrite_congr (by omega) (fun r c _ => ?_) (fun r c _ h => ?_)
    · rw [Bool.eq_iff_iff]
      simp only [Bool.or_eq_true, Bool.and_eq_true, decide_eq_true_eq, List.mem_range, beq_iff_eq]
      omega
    · by_cases hc : c = k
      · subst hc
        simp only [Bool.or_eq_true, Bool.and_eq_true, decide_eq_true_eq, List.mem_range,
          beq_iff_eq] at h
        simp [List.getElem?_eq_getElem (show r < (List.map (compute1dAt A N _) (List.range N)).length
          by simp; omega), h]
      · simp [hc]

/-- The second pass stores, in row `iy < N` of the output, the transform of row `iy` of the
block at `block1`, which it only reads when the output is in another buffer. -/
theorem foldlM_rowPass (M : Mem ρ α) (block1 output : Ptr ρ) {s : ℕ} (hs : N ≤ s)
    (hb : block1.buf ≠ output.buf) :
    (List.range N).foldlM (rowPass A N block1 output s) M =
      some (M.overwrite output s (fun r c => r < N && c < N)
        (fun r c => compute1dAt A N (load M (block1 + r * N)) c)) := by
  have h2 := two_le_of_mem_scaledSizes hN
  suffices ∀ k ≤ N, (List.range k).foldlM (rowPass A N block1 output s) M =
      some (M.overwrite output s (fun r c => r < k && c < N)
        (fun r c => compute1dAt A N (load M (block1 + r * N)) c)) from this _ le_rfl
  intro k hk
  induction k with
  | zero => rw [Mem.overwrite_of_false (fun _ _ => by simp)]; rfl
  | succ k ih =>
    have hload : load (M.overwrite output s (fun r c => r < k && c < N)
        (fun r c => compute1dAt A N (load M (block1 + r * N)) c)) (block1 + k * N) =
        load M (block1 + k * N) := by
      funext l
      simp only [load, Ptr.add_buf, Mem.overwrite_ne hb]
    simp only [List.range_succ, List.foldlM_append, ih (by omega), List.foldlM_cons,
      List.foldlM_nil, bind_pure, Option.bind_eq_bind, Option.some_bind]
    rw [rowPass, hload, compute1dIDCT_eq_compute1dAt A _ hN, Option.map_some',
      Mem.storeList_row _ _ (by omega) (by simpa using hs) (M output.buf 0),
      Mem.overwrite_overwrite (by omega)]
    refine congrArg some (Mem.overwrite_congr (by omega) (fun r c _ => ?_) (fun r c _ h => ?_))
    · rw [Bool.eq_iff_iff]
      simp only [Bool.or_eq_true, Bool.and_eq_true, decide_eq_true_eq, List.length_map,
        List.length_range, beq_iff_eq]
      omega
    · by_cases hr : r = k
      · subst hr
        simp only [Bool.or_eq_true, Bool.and_eq_true, decide_eq_true_eq, List.length_map,
          List.length_range, beq_iff_eq] at h
        have hc : c < N := by omega
        simp [hc, List.getElem?_range hc]
      · simp [hr]

end Passes

/-- At the sizes `Compute1dIDCT` handles, `InverseTransformBlockGeneric` returns. It leaves the
dequantised block in `block0`, the transform of column `c < min(N, 8)` of it in column `c` of the
`N × N` block at `block1 = block0 + 64`, and stores to output `(r, c)` output `c` of the
transform of row `r` of that block. -/
theorem inverseTransformBlockGeneric_scaled (O : LaneOps α) (T : Target) (uninit : ℕ → α)
    (qblock : ℕ → ℤ) (dequant biases : ℕ → α) (m : Mem ρ α) (scratchSpace output : Ptr ρ)
    {s N : ℕ} (hN : N ∈ scaledSizes) (hs : N ≤ s) (hsep : scratchSpace.buf ≠ output.buf) :
    inverseTransformBlockGeneric O T uninit qblock dequant biases m scratchSpace output s N =
      some (((m.fill scratchSpace 64 (fun k => dequantLane O (qblock k) (dequant k) (biases k))
        ).overwrite (scratchSpace + 64) N (fun r c => r < N && c < min N 8)
          (fun r c => compute1dAt O.toFloatArith N
            (fun v => dequantBlock8 O qblock dequant biases v c) r)
        ).overwrite output s (fun r c => r < N && c < N)
          (fun r c => compute1dAt O.toFloatArith N (fun u => compute1dAt O.toFloatArith N
            (fun v => dequantBlock8 O qblock dequant biases v u) r) c)) := by
  have h2 := two_le_of_mem_scaledSizes hN
  have hcases : N ≠ 1 ∧ ¬(N = 2 ∨ N = 4) := by
    simp only [scaledSizes, List.mem_cons, List.mem_singleton, List.not_mem_nil, or_false] at hN
    omega
  simp only [inverseTransformBlockGeneric, dequantBlock_eq, if_neg hcases.1, if_neg hcases.2]
  obtain ⟨din', dout', hcol⟩ := foldlM_columnPass O.toFloatArith hN
    (m.fill scratchSpace 64 (fun k => dequantLane O (qblock k) (dequant k) (biases k)))
    scratchSpace (dequantBlock8 O qblock dequant biases)
    (fun _ _ hv hc => Mem.block8_fill _ _ _ hv hc) uninit uninit
  rw [hcol, Option.some_bind]
  dsimp only
  rw [foldlM_rowPass O.toFloatArith hN _ _ _ hs (by simpa using hsep)]
  refine congrArg some (Mem.overwrite_congr (by omega) (fun _ _ _ => rfl) (fun r c _ h => ?_))
  simp only [Bool.and_eq_true, decide_eq_true_eq] at h
  refine compute1dAt_congr _ h2 (fun u hu => ?_) c
  rw [show ∀ (M : Mem ρ α) (p : Ptr ρ), load M (p + r * N) u = M p.buf (p.off + (r * N + u))
    from fun M p => by simp only [load, Ptr.add_buf, Ptr.add_off, Nat.add_assoc],
    Mem.overwrite_cell (by omega)]
  simp only [h.1, hu, decide_True, Bool.and_self, if_true]

/-! ## Where the generic transform aborts -/

/-- A monadic loop whose every step returns, returns. -/
theorem foldlM_isSome_of_step {β γ : Type} {f : β → γ → Option β}
    (hf : ∀ b c, (f b c).isSome) : ∀ (l : List γ) (b : β), (l.foldlM f b).isSome
  | [], _ => rfl
  | c :: l, b => by
    obtain ⟨b', hb'⟩ := Option.isSome_iff_exists.mp (hf b c)
    rw [List.foldlM_cons, hb']
    exact foldlM_isSome_of_step hf l b'

/-- At the sizes `Compute1dIDCT` handles, `InverseTransformBlockGeneric` returns, whatever the
stride and wherever the output is. -/
theorem inverseTransformBlockGeneric_isSome (O : LaneOps α) (T : Target) (uninit : ℕ → α)
    (qblock : ℕ → ℤ) (dequant biases : ℕ → α) (m : Mem ρ α) (scratchSpace output : Ptr ρ)
    (s : ℕ) {N : ℕ} (hN : N ∈ scaledSizes) :
    (inverseTransformBlockGeneric O T uninit qblock dequant biases m scratchSpace output s
      N).isSome := by
  have hcases : N ≠ 1 ∧ ¬(N = 2 ∨ N = 4) := by
    simp only [scaledSizes, List.mem_cons, List.mem_singleton, List.not_mem_nil, or_false] at hN
    omega
  have hstep : ∀ {β : Type} (g : List (Scalar O.toFloatArith) → β) (x : ℕ → α),
      ((compute1dIDCT O.toFloatArith x N).map g).isSome := fun g x => by
    rw [compute1dIDCT_eq_compute1dAt _ _ hN]
    rfl
  simp only [inverseTransformBlockGeneric, if_neg hcases.1, if_neg hcases.2]
  obtain ⟨s', hs'⟩ := Option.isSome_iff_exists.mp (foldlM_isSome_of_step
    (f := columnPass O.toFloatArith N scratchSpace (scratchSpace + 64)) (fun _ _ => hstep _ _)
    (List.range (min N 8)) (dequantBlock O T qblock dequant biases m scratchSpace, uninit, uninit))
  rw [hs', Option.some_bind]
  exact foldlM_isSome_of_step (f := rowPass O.toFloatArith N (scratchSpace + 64) output s)
    (fun _ _ => hstep _ _) _ _

/-- At size 8 and above 16 the first call of `Compute1dIDCT` reaches `JXL_ABORT`. -/
theorem inverseTransformBlockGeneric_eq_none (O : LaneOps α) (T : Target) (uninit : ℕ → α)
    (qblock : ℕ → ℤ) (dequant biases : ℕ → α) (m : Mem ρ α) (scratchSpace output : Ptr ρ)
    (s : ℕ) {N : ℕ} (h8 : 8 ≤ N) (hN : N ∉ scaledSizes) :
    inverseTransformBlockGeneric O T uninit qblock dequant biases m scratchSpace output s N =
      none := by
  simp only [inverseTransformBlockGeneric, if_neg (show N ≠ 1 by omega),
    if_neg (show ¬(N = 2 ∨ N = 4) by omega), Nat.min_eq_right h8,
    show List.range 8 = 0 :: List.range' 1 7 from rfl, List.foldlM_cons, columnPass,
    compute1dIDCT_eq_none _ _ hN, Option.map_none']
  rfl

end JpegliIdct
