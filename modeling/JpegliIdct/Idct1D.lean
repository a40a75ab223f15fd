import JpegliIdct.Memory

/-!
# The factorised transform: `IDCT1DImpl` and `IDCT1D`

The fast path of the kernel is a recursive even/odd factorisation of the 1-D inverse DCT,
instantiated by the C++ templates for `N = 1, 2, 4, 8`. `IDCT1DImpl<N>` transforms the `N` rows
of `Lanes(d8)` columns at once: one `d8` vector a row. We write it for every `N = 2 ^ k`:

* `forwardEvenOdd`, `bTranspose`, `multiplyAndAdd` — the three helpers, each a loop of vector
  loads and stores on a row-major block with rows of 8 floats;
* `idct1DImpl` — the template: the specialisations `N = 1` and `N = 2`, and the general case,
  which calls itself in place on the two halves of its local `tmp[64]`;
* `idct1D` — `IDCT1D<N>`, the loop over groups of `Lanes(d8)` columns.

The second half of the file reads the fast path column by column. `idctCol` is the value that
`IDCT1DImpl<2^k>` leaves in one output row, as a function of one input column, and
`idct1DImpl_eq` says that the memory after the call is exactly the input memory with the
`2^k × Lanes(d8)` output block overwritten by `idctCol` of the input columns, whatever
`from` and `to` are, in particular when the call is in place.
-/

namespace JpegliIdct

variable {α : Type} (A : FloatArith α) (L : ℕ)

section Model

variable {ρ σ : Type} [DecidableEq ρ] [DecidableEq σ]

/-- `ForwardEvenOdd<N>(a_in, a_in_stride, a_out)`: rows `0, 2, 4, …` of `a_in` to rows
`0, …, N/2 - 1` of `a_out`, then rows `1, 3, 5, …` to rows `N/2, …, N - 1` (rows of 8). -/
def forwardEvenOdd (N : ℕ) (m : Mem ρ α) (aIn : Ptr ρ) (aInStride : ℕ) (out : Mem σ α)
    (aOut : Ptr σ) : Mem σ α :=
  let out := (List.range (N / 2)).foldl
    (fun out i => store L (load m (aIn + 2 * i * aInStride)) out (aOut + i * 8)) out
  (List.range' (N / 2) (N - N / 2)).foldl
    (fun out i => store L (load m (aIn + (2 * (i - N / 2) + 1) * aInStride)) out (aOut + i * 8))
    out

/-- `BTranspose<N>(coeff)`: row `i` plus row `i - 1` for `i = N - 1` down to `1`, then row `0`
times `kSqrt2`. -/
def bTranspose (N : ℕ) (m : Mem ρ α) (coeff : Ptr ρ) : Mem ρ α :=
  let m := (List.range' 1 (N - 1)).reverse.foldl (fun m i =>
    let in1 := load m (coeff + i * 8)
    let in2 := load m (coeff + (i - 1) * 8)
    store L (fun l => A.add (in1 l) (in2 l)) m (coeff + i * 8)) m
  let sqrt2 := A.lit .sqrt2
  let in1 := load m coeff
  store L (fun l => A.mul (in1 l) sqrt2) m coeff

/-- `MultiplyAndAdd<N>(coeff, out, out_stride)`: rows `i` and `N - 1 - i` of `out` from the
even row `i` and the odd row `N/2 + i` of `coeff`, with the multiplier `WcMultipliers<N>[i]`. -/
def multiplyAndAdd (N : ℕ) (coeff : Mem σ α) (c : Ptr σ) (m : Mem ρ α) (out : Ptr ρ)
    (outStride : ℕ) : Mem ρ α :=
  (List.range (N / 2)).foldl (fun m i =>
    let mul := A.lit (.wc N i)
    let in1 := load coeff (c + i * 8)
    let in2 := load coeff (c + (N / 2 + i) * 8)
    let out1 := fun l => A.mulAdd mul (in2 l) (in1 l)
    let out2 := fun l => A.negMulAdd mul (in2 l) (in1 l)
    let m := store L out1 m (out + i * outStride)
    store L out2 m (out + (N - i - 1) * outStride)) m

/-- `IDCT1DImpl<2^k>()(from, from_stride, to, to_stride)`. `k = 0` and `k = 1` are the
specialisations for `N = 1` and `N = 2`; the general case transforms both halves of its local
`tmp[64]` in place, whose contents on entry are `uninit`. The model keeps `tmp` as a memory of
its own (`Mem Unit`) without a bound: the code instantiates the template only up to `N = 8`
(`k ≤ 3`, `WcMultipliers` being defined for 4 and 8), and there every index of `tmp` it touches
is below 64, the odd half at `tmp + N * 4` included. The debug-only assertions on the strides
are not part of a release build. -/
def idct1DImpl (uninit : ℕ → α) :
    ℕ → {ρ : Type} → [DecidableEq ρ] → Mem ρ α → Ptr ρ → ℕ → Ptr ρ → ℕ → Mem ρ α
  | 0, _, _, m, src, _, dst, _ => store L (load m src) m dst
  | 1, _, _, m, src, srcStride, dst, dstStride =>
    let in1 := load m src
    let in2 := load m (src + srcStride)
    let m := store L (fun l => A.add (in1 l) (in2 l)) m dst
    store L (fun l => A.sub (in1 l) (in2 l)) m (dst + dstStride)
  | k + 2, _, _, m, src, srcStride, dst, dstStride =>
    let N := 2 ^ (k + 2)
    let t : Ptr Unit := ⟨(), 0⟩
    let tmp := forwardEvenOdd L N m src srcStride (fun _ => uninit) t
    let tmp := idct1DImpl uninit (k + 1) tmp t 8 t 8
    let tmp := bTranspose A L (N / 2) tmp (t + N * 4)
    let tmp := idct1DImpl uninit (k + 1) tmp (t + N * 4) 8 (t + N * 4) 8
    multiplyAndAdd A L N tmp t m dst dstStride

/-- `IDCT1D<2^k>(from, output, output_stride)`: `IDCT1DImpl` on each group of `Lanes(d8)`
columns of a block with rows of 8. -/
def idct1D (uninit : ℕ → α) (k : ℕ) (m : Mem ρ α) (src output : Ptr ρ) (outputStride : ℕ) :
    Mem ρ α :=
  (forStep 0 8 L).foldl
    (fun m i => idct1DImpl A L uninit k m (src + i) 8 (output + i) outputStride) m

end Model

/-! ## One column at a time -/

/-- `BTranspose<M>` on one column. -/
def bTransposeCol (M : ℕ) (y : ℕ → α) (i : ℕ) : α :=
  if i = 0 then A.mul (y 0) (A.lit .sqrt2) else if i < M then A.add (y i) (y (i - 1)) else y i

/-- `IDCT1DImpl<2^k>` on one column: output row `r` from the input column `x`. -/
def idctCol : ℕ → (ℕ → α) → ℕ → α
  | 0, x, _ => x 0
  | 1, x, r => if r = 0 then A.add (x 0) (x 1) else A.sub (x 0) (x 1)
  | k + 2, x, r =>
    let N := 2 ^ (k + 2)
    let e := idctCol (k + 1) (fun i => x (2 * i))
    let o := idctCol (k + 1) (bTransposeCol A (N / 2) (fun i => x (2 * i + 1)))
    if r < N / 2 then A.mulAdd (A.lit (.wc N r)) (o r) (e r)
    else A.negMulAdd (A.lit (.wc N (N - 1 - r))) (o (N - 1 - r)) (e (N - 1 - r))

/-- `BTranspose<M>` on a column reads only its first `M` rows. -/
theorem bTransposeCol_congr {M : ℕ} {y y' : ℕ → α} (h : ∀ j < M, y j = y' j) {i : ℕ}
    (hi : i < M) : bTransposeCol A M y i = bTransposeCol A M y' i := by
  simp only [bTransposeCol]
  split_ifs with h₀
  · rw [h 0 (by omega)]
  · rw [h i hi, h (i - 1) (by omega)]

/-- `IDCT1DImpl<2^k>` on a column reads only its first `2^k` rows. -/
theorem idctCol_congr : ∀ (k : ℕ) {x y : ℕ → α}, (∀ j < 2 ^ k, x j = y j) →
    ∀ r, idctCol A k x r = idctCol A k y r
  | 0, x, y, h, r => by simp only [idctCol]; exact h 0 (by decide)
  | 1, x, y, h, r => by simp only [idctCol]; rw [h 0 (by decide), h 1 (by decide)]
  | k + 2, x, y, h, r => by
    have hM : 2 ^ (k + 2) / 2 = 2 ^ (k + 1) := by rw [Nat.pow_succ]; simp
    have he := idctCol_congr (k + 1) (x := fun i => x (2 * i)) (y := fun i => y (2 * i))
      (fun j hj => h _ (by rw [Nat.pow_succ]; omega))
    have ho := idctCol_congr (k + 1)
      (x := bTransposeCol A (2 ^ (k + 2) / 2) (fun i => x (2 * i + 1)))
      (y := bTransposeCol A (2 ^ (k + 2) / 2) (fun i => y (2 * i + 1)))
      (fun j hj => bTransposeCol_congr A (fun j' hj' => h _ (by omega)) (by omega))
    simp only [idctCol, he, ho]

section Map

variable {β : Type} {B : FloatArith β} (f : A.Hom B)

theorem bTransposeCol_map (M : ℕ) (y : ℕ → α) :
    f.toFun ∘ bTransposeCol A M y = bTransposeCol B M (f.toFun ∘ y) := by
  funext i
  simp only [Function.comp, bTransposeCol]
  split_ifs <;> simp

/-- The transform of a column, mapped to another arithmetic, is the transform there of the
mapped column. -/
theorem idctCol_map : ∀ (k : ℕ) (x : ℕ → α) (r : ℕ),
    f.toFun (idctCol A k x r) = idctCol B k (f.toFun ∘ x) r
  | 0, x, r => rfl
  | 1, x, r => by
    simp only [idctCol]
    split_ifs <;> simp
  | k + 2, x, r => by
    have he := idctCol_map (k + 1) (fun i => x (2 * i))
    have ho := idctCol_map (k + 1) (bTransposeCol A (2 ^ (k + 2) / 2) (fun i => x (2 * i + 1)))
    rw [bTransposeCol_map] at ho
    simp only [idctCol]
    split_ifs <;> simp only [f.map_mulAdd, f.map_negMulAdd, f.map_lit, he, ho] <;> rfl

end Map

/-! ## The helpers as block overwrites -/

section Characterisation

variable {ρ σ : Type} [DecidableEq ρ] [DecidableEq σ]

/-- The input row that `ForwardEvenOdd<N>` moves to row `r`. -/
def evenOddRow (N r : ℕ) : ℕ := if r < N / 2 then 2 * r else 2 * (r - N / 2) + 1

omit [DecidableEq ρ] in
theorem forwardEvenOdd_eq (hL : L ≤ 8) (N : ℕ) (m : Mem ρ α) (src : Ptr ρ) (fs : ℕ)
    (out : Mem σ α) (t : Ptr σ) :
    forwardEvenOdd L N m src fs out t =
      out.overwrite t 8 (fun r c => r < N && c < L)
        (fun r c => m.col src fs c (evenOddRow N r)) := by
  simp only [forwardEvenOdd]
  rw [foldl_store_rows L (by omega) hL (fun i => load m (src + 2 * i * fs)),
    foldl_store_rows L (by omega) hL (fun i => load m (src + (2 * (i - N / 2) + 1) * fs)),
    Mem.overwrite_overwrite (by omega)]
  refine Mem.overwrite_congr (by omega) (fun r c _ => ?_) (fun r c _ h => ?_)
  · simp only [List.mem_range, List.mem_range'_1]
    by_cases h : r < N <;> by_cases h' : r < N / 2 <;> simp [h, h'] <;> omega
  · simp only [List.mem_range, List.mem_range'_1, Bool.or_eq_true, Bool.and_eq_true,
      decide_eq_true_eq] at h ⊢
    simp only [evenOddRow, load_row]
    split_ifs <;> first | rfl | (exfalso; omega)

/-- The loop of `BTranspose`, run from the top row down: each row it writes reads itself and
the row above, which no earlier iteration has written. -/
theorem bTranspose_loop (hL : L ≤ 8) (m : Mem σ α) (p : Ptr σ) {s : ℕ} (hs : 1 ≤ s) (n : ℕ) :
    (List.range' s n).foldr (fun i m => store L
        (fun l => A.add (load m (p + i * 8) l) (load m (p + (i - 1) * 8) l)) m (p + i * 8)) m =
      m.overwrite p 8 (fun r c => s ≤ r && r < s + n && c < L)
        (fun r c => A.add (m.col p 8 c r) (m.col p 8 c (r - 1))) := by
  induction n generalizing s with
  | zero => exact (Mem.overwrite_of_false (fun r c => by simp)).symm
  | succ n ih =>
    rw [List.range'_succ, List.foldr_cons, ih (by omega), ← Nat.add_zero (s * 8),
      store_row L _ s 0 (by omega) (by omega), Mem.overwrite_overwrite (by omega)]
    refine Mem.overwrite_congr (by omega) (fun r c _ => ?_) (fun r c hc _ => ?_)
    · rw [Bool.eq_iff_iff]
      simp only [Bool.and_eq_true, Bool.or_eq_true, decide_eq_true_eq, beq_iff_eq]
      omega
    · simp only [Bool.and_eq_true, beq_iff_eq, decide_eq_true_eq, Nat.add_zero, Nat.sub_zero]
      split_ifs with h'
      · obtain ⟨rfl, -⟩ := h'
        rw [load_row, load_row, Mem.col_overwrite hc, Mem.col_overwrite hc]
        simp only [Bool.and_eq_true, decide_eq_true_eq]
        rw [if_neg (by omega), if_neg (by omega)]
      · rfl

theorem bTranspose_eq (hL : L ≤ 8) {M : ℕ} (hM : 0 < M) (m : Mem σ α) (p : Ptr σ) :
    bTranspose A L M m p =
      m.overwrite p 8 (fun r c => r < M && c < L) (fun r c => bTransposeCol A M (m.col p 8 c) r) := by
  simp only [bTranspose, List.foldl_reverse]
  rw [bTranspose_loop A L hL m p le_rfl (M - 1)]
  show store L _ _ (p + (0 * 8 + 0)) = _
  rw [store_row L _ 0 0 (by omega) (by omega), Mem.overwrite_overwrite (by omega)]
  refine Mem.overwrite_congr (by omega) (fun r c _ => ?_) (fun r c hc h => ?_)
  · rw [Bool.eq_iff_iff]
    simp only [Bool.and_eq_true, Bool.or_eq_true, decide_eq_true_eq, beq_iff_eq]
    omega
  · simp only [Bool.and_eq_true, Bool.or_eq_true, beq_iff_eq, decide_eq_true_eq, Nat.sub_zero,
      bTransposeCol] at h ⊢
    split_ifs with h₁ h₂ h₃ <;> first | rfl | (exfalso; omega) | skip
    rw [load_zero _ _ 8, Mem.col_overwrite hc]
    simp

/-- What `MultiplyAndAdd<N>` writes to output row `r`, from a column `y` of `coeff` that
holds the even half in rows `< N/2` and the odd half after. -/
def multiplyAndAddCol (N : ℕ) (y : ℕ → α) (r : ℕ) : α :=
  if r < N / 2 then A.mulAdd (A.lit (.wc N r)) (y (N / 2 + r)) (y r)
  else A.negMulAdd (A.lit (.wc N (N - 1 - r))) (y (N / 2 + (N - 1 - r))) (y (N - 1 - r))

omit [DecidableEq σ] in
/-- After `n` iterations, `MultiplyAndAdd` has written the first `n` and the last `n` rows. -/
theorem multiplyAndAdd_loop {N ts : ℕ} (hN : N % 2 = 0) (hts : 0 < ts) (hL : L ≤ ts)
    (coeff : Mem σ α) (t : Ptr σ) (m : Mem ρ α) (out : Ptr ρ) {n : ℕ} (hn : n ≤ N / 2) :
    (List.range n).foldl (fun m i =>
        store L (fun l => A.negMulAdd (A.lit (Const.wc N i)) (load coeff (t + (N / 2 + i) * 8) l)
            (load coeff (t + i * 8) l))
          (store L (fun l => A.mulAdd (A.lit (Const.wc N i)) (load coeff (t + (N / 2 + i) * 8) l)
            (load coeff (t + i * 8) l)) m (out + i * ts)) (out + (N - i - 1) * ts)) m =
      m.overwrite out ts (fun r c => (r < n || (N - n ≤ r && r < N)) && c < L)
        (fun r c => multiplyAndAddCol A N (coeff.col t 8 c) r) := by
  induction n with
  | zero => exact (Mem.overwrite_of_false (fun r c => by simp)).symm
  | succ n ih =>
    rw [List.range_succ, List.foldl_append, ih (by omega), List.foldl_cons, List.foldl_nil,
      ← Nat.add_zero (n * ts), ← Nat.add_zero ((N - n - 1) * ts),
      store_row L _ n 0 hts (by omega), Mem.overwrite_overwrite hts,
      store_row L _ (N - n - 1) 0 hts (by omega), Mem.overwrite_overwrite hts]
    refine Mem.overwrite_congr hts (fun r c _ => ?_) (fun r c _ h => ?_)
    · rw [Bool.eq_iff_iff]
      simp only [Bool.and_eq_true, Bool.or_eq_true, decide_eq_true_eq, beq_iff_eq]
      omega
    · simp only [Bool.and_eq_true, Bool.or_eq_true, beq_iff_eq, decide_eq_true_eq,
        Nat.sub_zero] at h ⊢
      simp only [load_row, multiplyAndAddCol]
      split_ifs with h₁ h₂ h₃ h₄ <;> first | rfl | (exfalso; omega) | skip
      · obtain ⟨rfl, -⟩ := h₁
        rw [show N - 1 - (N - n - 1) = n by omega]
      · obtain ⟨rfl, -⟩ := h₃
        rfl

omit [DecidableEq σ] in
theorem multiplyAndAdd_eq {N ts : ℕ} (hN : N % 2 = 0) (hts : 0 < ts) (hL : L ≤ ts)
    (coeff : Mem σ α) (t : Ptr σ) (m : Mem ρ α) (out : Ptr ρ) :
    multiplyAndAdd A L N coeff t m out ts =
      m.overwrite out ts (fun r c => r < N && c < L)
        (fun r c => multiplyAndAddCol A N (coeff.col t 8 c) r) := by
  simp only [multiplyAndAdd]
  rw [multiplyAndAdd_loop A L hN hts hL coeff t m out le_rfl]
  refine Mem.overwrite_congr hts (fun r c _ => ?_) (fun _ _ _ _ => rfl)
  rw [Bool.eq_iff_iff]
  simp only [Bool.and_eq_true, Bool.or_eq_true, decide_eq_true_eq]
  omega

end Characterisation

/-! ## `IDCT1DImpl` as a block overwrite -/

/-- **`IDCT1DImpl<2^k>` transforms each column.** The call leaves memory as it was except for
the `2^k × Lanes(d8)` block at `to`, whose column `c` is `idctCol` of column `c` at `from`, and
this whatever `from` and `to` are: every load of `from` comes before the first store to `to`,
so the in-place calls on `tmp` read their whole input first. -/
theorem idct1DImpl_eq (uninit : ℕ → α) (hL0 : 0 < L) (hL : L ≤ 8) :
    ∀ (k : ℕ) {ρ : Type} [DecidableEq ρ] (m : Mem ρ α) (src : Ptr ρ) (fs : ℕ) (dst : Ptr ρ)
      (ts : ℕ), L ≤ ts →
      idct1DImpl A L uninit k m src fs dst ts =
        m.overwrite dst ts (fun r c => r < 2 ^ k && c < L)
          (fun r c => idctCol A k (m.col src fs c) r)
  | 0, ρ, _, m, src, fs, dst, ts, hts => by
    simp only [idct1DImpl]
    rw [store_row_of_eq (p := dst) (s := ts) (q := dst) L _ 0 0 (by omega) (by omega) (by simp)]
    refine Mem.overwrite_congr (by omega) (fun r c _ => ?_) (fun r c _ _ => ?_)
    · rw [Bool.eq_iff_iff]
      simp only [Bool.and_eq_true, beq_iff_eq, decide_eq_true_eq, Nat.pow_zero]
      omega
    · rw [Nat.sub_zero, load_zero _ _ fs]
      rfl
  | 1, ρ, _, m, src, fs, dst, ts, hts => by
    simp only [idct1DImpl]
    rw [store_row_of_eq (p := dst) (s := ts) (q := dst) L _ 0 0 (by omega) (by omega) (by simp),
      store_row_of_eq (p := dst) (s := ts) (q := dst + ts) L _ 1 0 (by omega) (by omega) (by simp),
      Mem.overwrite_overwrite (by omega)]
    refine Mem.overwrite_congr (by omega) (fun r c _ => ?_) (fun r c _ h => ?_)
    · rw [Bool.eq_iff_iff]
      simp only [Bool.and_eq_true, Bool.or_eq_true, beq_iff_eq, decide_eq_true_eq, Nat.pow_one]
      omega
    · have h1 := load_row m src 1 fs c
      rw [Nat.one_mul] at h1
      simp only [Nat.sub_zero, h1]
      simp only [Bool.and_eq_true, Bool.or_eq_true, beq_iff_eq, decide_eq_true_eq, idctCol,
        load_zero _ _ fs] at h ⊢
      split_ifs <;> first | rfl | (exfalso; omega)
  | k + 2, ρ, _, m, src, fs, dst, ts, hts => by
    have hN : 2 ^ (k + 2) / 2 = 2 ^ (k + 1) := by rw [Nat.pow_succ]; simp
    have h4 : 2 ^ (k + 2) * 4 = 2 ^ (k + 1) * 8 := by rw [Nat.pow_succ]; omega
    have hNM : 2 ^ (k + 2) = 2 ^ (k + 1) + 2 ^ (k + 1) := by rw [Nat.pow_succ]; omega
    have hM0 : 0 < 2 ^ (k + 1) := Nat.pos_pow_of_pos _ (by decide)
    simp only [idct1DImpl]
    rw [hN, h4]
    generalize ht : (⟨(), 0⟩ : Ptr Unit) = t
    generalize h1 : forwardEvenOdd L (2 ^ (k + 2)) m src fs (fun _ => uninit) t = tmp1
    generalize h2 : idct1DImpl A L uninit (k + 1) tmp1 t 8 t 8 = tmp2
    generalize h3 : bTranspose A L (2 ^ (k + 1)) tmp2 (t + 2 ^ (k + 1) * 8) = tmp3
    generalize h4 : idct1DImpl A L uninit (k + 1) tmp3 (t + 2 ^ (k + 1) * 8) 8
      (t + 2 ^ (k + 1) * 8) 8 = tmp4
    rw [forwardEvenOdd_eq L hL] at h1
    rw [idct1DImpl_eq uninit hL0 hL (k + 1) tmp1 t 8 t 8 hL] at h2
    rw [bTranspose_eq A L hL hM0] at h3
    rw [idct1DImpl_eq uninit hL0 hL (k + 1) tmp3 _ 8 _ 8 hL] at h4
    rw [multiplyAndAdd_eq A L (by omega) (by omega) hts]
    refine Mem.overwrite_congr (by omega) (fun r c _ => rfl) (fun r c _ h => ?_)
    simp only [Bool.and_eq_true, decide_eq_true_eq] at h
    have hc : c < 8 := by omega
    -- the input rows of `tmp` after `ForwardEvenOdd`
    have f1 : ∀ i < 2 ^ (k + 2), tmp1.col t 8 c i = m.col src fs c (evenOddRow (2 ^ (k + 2)) i) := by
      intro i hi
      rw [← h1, Mem.col_overwrite hc]
      simp [hi, h.2]
    -- the even half, transformed in place
    have f2e : ∀ i < 2 ^ (k + 1),
        tmp2.col t 8 c i = idctCol A (k + 1) (fun j => m.col src fs c (2 * j)) i := by
      intro i hi
      rw [← h2, Mem.col_overwrite hc, if_pos (by simp [hi, h.2])]
      refine idctCol_congr A (k + 1) (fun j hj => ?_) i
      rw [f1 j (by omega), evenOddRow, hN, if_pos hj]
    have f2o : ∀ j < 2 ^ (k + 1),
        tmp2.col t 8 c (2 ^ (k + 1) + j) = m.col src fs c (2 * j + 1) := by
      intro j hj
      rw [← h2, Mem.col_overwrite hc, if_neg (by simp), f1 _ (by omega), evenOddRow, hN,
        if_neg (by omega), Nat.add_sub_cancel_left]
    -- `BTranspose` of the odd half
    have f3o : ∀ j < 2 ^ (k + 1), tmp3.col (t + 2 ^ (k + 1) * 8) 8 c j =
        bTransposeCol A (2 ^ (k + 1)) (fun j => m.col src fs c (2 * j + 1)) j := by
      intro j hj
      rw [← h3, Mem.col_overwrite hc, if_pos (by simp [hj, h.2])]
      refine bTransposeCol_congr A (fun j' hj' => ?_) hj
      rw [Mem.col_add_rows, f2o j' hj']
    have f3e : ∀ i < 2 ^ (k + 1), tmp3.col t 8 c i = tmp2.col t 8 c i := by
      intro i hi
      rw [← h3, Mem.overwrite_add_rows (by omega), Mem.col_overwrite hc, if_neg (by simp; omega)]
    -- the odd half, transformed in place
    have f4o : ∀ j < 2 ^ (k + 1), tmp4.col t 8 c (2 ^ (k + 1) + j) =
        idctCol A (k + 1) (bTransposeCol A (2 ^ (k + 1)) (fun j => m.col src fs c (2 * j + 1))) j := by
      intro j hj
      rw [← Mem.col_add_rows, ← h4, Mem.col_overwrite hc, if_pos (by simp [hj, h.2])]
      exact idctCol_congr A (k + 1) (fun j' hj' => f3o j' hj') j
    have f4e : ∀ i < 2 ^ (k + 1),
        tmp4.col t 8 c i = idctCol A (k + 1) (fun j => m.col src fs c (2 * j)) i := by
      intro i hi
      rw [← h4, Mem.overwrite_add_rows (by omega), Mem.col_overwrite hc, if_neg (by simp; omega),
        f3e i hi, f2e i hi]
    simp only [multiplyAndAddCol, idctCol, hN]
    split_ifs with hr
    · rw [f4o r hr, f4e r hr]
    · rw [f4o _ (by omega), f4e _ (by omega)]

end JpegliIdct

namespace JpegliIdct

variable {α : Type} (A : FloatArith α) (L : ℕ)

/-- **`IDCT1D<2^k>` transforms all eight columns.** For a lane count dividing 8 the column
groups tile the block, and when the destination block does not overlap the source block no
group reads what an earlier group wrote. -/
theorem idct1D_eq (uninit : ℕ → α) (hL : L ∣ 8) (k : ℕ) {ρ : Type} [DecidableEq ρ]
    (m : Mem ρ α) (src dst : Ptr ρ) (ts : ℕ) (hts : 8 ≤ ts) (hap : Apart src 8 dst ts (2 ^ k) 8) :
    idct1D A L uninit k m src dst ts =
      m.overwrite dst ts (fun r c => r < 2 ^ k && c < 8)
        (fun r c => idctCol A k (m.col src 8 c) r) := by
  have hL0 : 0 < L := Nat.pos_of_dvd_of_pos hL (by decide)
  have hL8 : L ≤ 8 := Nat.le_of_dvd (by decide) hL
  have loop : ∀ n, L * n ≤ 8 →
      (List.range' 0 n L).foldl
          (fun m i => idct1DImpl A L uninit k m (src + i) 8 (dst + i) ts) m =
        m.overwrite dst ts (fun r c => r < 2 ^ k && c < L * n)
          (fun r c => idctCol A k (m.col src 8 c) r) := by
    intro n
    induction n with
    | zero => exact fun _ => (Mem.overwrite_of_false (fun r c => by simp)).symm
    | succ n ih =>
      intro hn
      rw [Nat.mul_succ] at hn
      rw [List.range'_concat, List.foldl_append, ih (by omega), Nat.zero_add, List.foldl_cons,
        List.foldl_nil, idct1DImpl_eq A L uninit hL0 hL8 k _ _ _ _ _ (by omega),
        Mem.overwrite_add_cols (by omega) (fun r c h => by simp at h; omega),
        Mem.overwrite_overwrite (by omega)]
      refine Mem.overwrite_congr (by omega) (fun r c _ => ?_) (fun r c _ h => ?_)
      · rw [Bool.eq_iff_iff]
        simp only [Bool.and_eq_true, Bool.or_eq_true, decide_eq_true_eq, Nat.mul_succ]
        omega
      · simp only [Bool.and_eq_true, Bool.or_eq_true, decide_eq_true_eq] at h ⊢
        split_ifs with h'
        · refine idctCol_congr A k (fun j hj => ?_) r
          rw [Mem.col_add_cols, Nat.add_sub_cancel' h'.1,
            Mem.col_overwrite_apart hap (fun r c h => by simp at h; omega) hj (by omega)]
        · rfl
  simp only [idct1D]
  rw [forStep_zero_of_dvd hL0 hL, loop _ (Nat.mul_div_le 8 L), Nat.mul_div_cancel' hL]

end JpegliIdct
