import JpegliIdct.Compute1d
import JpegliIdct.Spec

/-!
# The scaled sizes compute the inverse DCT

In the exact reading, `Compute1dIDCT` computes output `x` of the unnormalised N-point inverse
DCT of its first `min(N, 8)` inputs, at each of the twelve sizes it handles. The proof is about
the table-driven form `tableIDCT`, which the code is at every size:

* folding the angle: `cos(mπ / 2N)` is `± cos(iπ / 2N)` or zero as `foldAngle` says
  (`cos_foldAngle`), so each term `± kC<N>[i] · in[u]` is `√2 cos((2j + 1) u π / 2N) in[u]`
  (`addTerm_real`);
* `even_j + odd_j` is output `j` (`evenSum_add_oddSum`), and `even_j - odd_j` is the mirror
  output `N - 1 - j`, which sees the odd terms with the other sign (`evenSum_sub_oddSum`);
* for odd `N` every odd term of the middle output vanishes (`oddSum_middle`).
-/

namespace JpegliIdct

open Real Finset

/-! ## Folding the angle -/

section Fold

variable {N : ℕ} (hN : 0 < N)
include hN

/-- A quarter period: `N · π / 2N = π / 2`. Every fold of the angle is a multiple of it. -/
theorem natCast_mul_pi_div : (N : ℝ) * (π / (2 * N)) = π / 2 := by
  have hN' : (N : ℝ) ≠ 0 := Nat.cast_ne_zero.mpr (by omega)
  field_simp
  ring

/-- The cosine of `mπ / 2N` has period `4N` in `m`. -/
theorem cos_mod_four_mul (m : ℕ) :
    Real.cos (m * π / (2 * N)) = Real.cos ((m % (4 * N) : ℕ) * π / (2 * N)) := by
  conv_lhs => rw [← Nat.mod_add_div m (4 * N)]
  rw [← Real.cos_add_nat_mul_two_pi ((m % (4 * N) : ℕ) * π / (2 * N)) (m / (4 * N))]
  congr 1
  push_cast
  linear_combination (4 * ((m / (4 * N) : ℕ) : ℝ)) * natCast_mul_pi_div hN

/-- What the entry `foldAngle N m` of the table stands for: `cos(mπ / 2N)`. -/
theorem cos_foldAngle (m : ℕ) :
    Real.cos (m * π / (2 * N)) = match foldAngle N m with
      | some (true, i) => Real.cos (i * π / (2 * N))
      | some (false, i) => -Real.cos (i * π / (2 * N))
      | none => 0 := by
  have hθ := natCast_mul_pi_div hN
  have hr : m % (4 * N) < 4 * N := Nat.mod_lt _ (by omega)
  rw [cos_mod_four_mul hN, foldAngle]
  generalize m % (4 * N) = r at hr ⊢
  split_ifs with h1 h2 h3 h4 h5 <;> dsimp only
  · rw [h2, show (N : ℝ) * π / (2 * N) = π / 2 by linear_combination hθ, Real.cos_pi_div_two]
  · rw [show (r : ℝ) * π / (2 * N) = π - ((2 * N - r : ℕ) : ℝ) * π / (2 * N) by
      rw [Nat.cast_sub h3]; push_cast; linear_combination 2 * hθ, Real.cos_pi_sub]
  · rw [show (r : ℝ) * π / (2 * N) = ((r - 2 * N : ℕ) : ℝ) * π / (2 * N) + π by
      rw [Nat.cast_sub (by omega)]; push_cast; linear_combination 2 * hθ, Real.cos_add_pi]
  · rw [h5, show ((3 * N : ℕ) : ℝ) * π / (2 * N) = π / 2 + (1 : ℕ) * π by
      push_cast; linear_combination 3 * hθ, Real.cos_add_nat_mul_pi, Real.cos_pi_div_two, mul_zero]
  · rw [show (r : ℝ) * π / (2 * N) = 2 * π - ((4 * N - r : ℕ) : ℝ) * π / (2 * N) by
      rw [Nat.cast_sub (by omega)]; push_cast; linear_combination 4 * hθ, Real.cos_two_pi_sub]

end Fold

/-! ## The partial sums -/

section Sums

variable {N : ℕ} (j : ℕ) (x : ℕ → ℝ)

/-- Each term of the table is `√2 cos((2j + 1) u π / 2N) in[u]`. -/
theorem addTerm_real (hN : 0 < N) (acc : ℝ) (u : ℕ) :
    addTerm realArith N j x acc u = (acc + √2 * Real.cos (angle N j u) * x u : ℝ) := by
  have hθ : angle N j u = ((2 * j + 1) * u : ℕ) * π / (2 * N) := by simp [angle]
  rw [hθ, cos_foldAngle hN, addTerm]
  rcases foldAngle N ((2 * j + 1) * u) with _ | ⟨_ | _, i⟩ <;>
    simp only [Scalar.add_def, Scalar.sub_def, Scalar.mul_def, kC, realArith_add, realArith_sub,
      realArith_mul, realArith_lit, Const.exact] <;> show (_ : ℝ) = _ <;> ring

theorem foldl_addTerm_real (hN : 0 < N) :
    ∀ (e s : ℕ) (acc : ℝ), (List.range' s e 2).foldl (addTerm realArith N j x) acc =
      (acc + √2 * ∑ k ∈ range e, Real.cos (angle N j (s + 2 * k)) * x (s + 2 * k) : ℝ)
  | 0, s, acc => by simp
  | e + 1, s, acc => by
    rw [List.range'_succ, List.foldl_cons, foldl_addTerm_real hN e, addTerm_real j x hN,
      sum_range_succ']
    simp only [Nat.mul_zero, Nat.add_zero, show ∀ k, s + 2 + 2 * k = s + 2 * (k + 1) by omega]
    show (_ : ℝ) = _
    ring

theorem evenSum_real (hN : 0 < N) : evenSum realArith N x j =
    (x 0 + √2 * ∑ k ∈ range ((min N 8 - 1) / 2),
      Real.cos (angle N j (2 * k + 2)) * x (2 * k + 2) : ℝ) := by
  rw [evenSum, foldl_addTerm_real j x hN]
  simp only [Nat.add_comm 2]

theorem oddSum_real (hN : 2 ≤ N) : oddSum realArith N x j =
    (√2 * ∑ k ∈ range (min N 8 / 2), Real.cos (angle N j (2 * k + 1)) * x (2 * k + 1) : ℝ) := by
  have hk : kC realArith N (2 * j + 1) = √2 * Real.cos (angle N j 1) := by
    simp [kC, Const.exact, angle]
  rw [oddSum, foldl_addTerm_real j x (by omega), show min N 8 / 2 = (min N 8 - 2) / 2 + 1 by omega,
    sum_range_succ', Scalar.mul_def, hk]
  simp only [realArith_mul, Nat.mul_zero, Nat.zero_add, show ∀ k, 3 + 2 * k = 2 * (k + 1) + 1 by omega]
  show (_ : ℝ) = _
  ring

/-- `even_j + odd_j` is output `j`. -/
theorem evenSum_add_oddSum (hN : 2 ≤ N) :
    evenSum realArith N x j + oddSum realArith N x j = idctSum N (min N 8) x j := by
  have hsplit := sum_range_even_odd (min N 8 - 1) (fun k => Real.cos (angle N j (1 + k)) * x (1 + k))
  rw [show (min N 8 - 1 + 1) / 2 = min N 8 / 2 by omega] at hsplit
  simp only [show ∀ i, 1 + (2 * i + 1) = 2 * i + 2 by omega, Nat.add_comm 1 (2 * _)] at hsplit
  rw [Scalar.add_def, realArith_add, evenSum_real j x (by omega), oddSum_real j x hN,
    idctSum_eq_angle, sum_Ico_eq_sum_range, hsplit]
  show (_ : ℝ) = _
  ring

/-- `even_j - odd_j` is the mirror output `N - 1 - j`: it sees the odd terms with the other
sign. -/
theorem evenSum_sub_oddSum (hN : 2 ≤ N) (hj : j < N) :
    evenSum realArith N x j - oddSum realArith N x j = idctSum N (min N 8) x (N - 1 - j) := by
  rw [← evenSum_add_oddSum _ x hN, Scalar.add_def, Scalar.sub_def, realArith_add, realArith_sub]
  simp only [evenSum_real _ x (show 0 < N by omega), oddSum_real _ x hN, cos_angle_mirror hj,
    show ∀ k : ℕ, ((-1 : ℝ) ^ (2 * k + 2)) = 1 from fun k => Even.neg_one_pow ⟨k + 1, by ring⟩,
    show ∀ k : ℕ, ((-1 : ℝ) ^ (2 * k + 1)) = -1 from fun k => Odd.neg_one_pow ⟨k, rfl⟩,
    one_mul, neg_one_mul, neg_mul, sum_neg_distrib]
  show (_ : ℝ) = _
  ring

/-- For odd `N` the odd terms of the middle output vanish: `(2j + 1) u = N u` with `u` odd. -/
theorem oddSum_middle (hN : 2 ≤ N) (hodd : N % 2 = 1) : oddSum realArith N x (N / 2) = (0 : ℝ) := by
  have hN' : (N : ℝ) ≠ 0 := Nat.cast_ne_zero.mpr (by omega)
  have hcos : ∀ k : ℕ, Real.cos (angle N (N / 2) (2 * k + 1)) = 0 := fun k => by
    have h2 : ((2 * (N / 2) + 1 : ℕ) : ℝ) = N := by rw [show 2 * (N / 2) + 1 = N by omega]
    push_cast at h2
    rw [angle, h2, show (N : ℝ) * (2 * k + 1 : ℕ) * π / (2 * N) = π / 2 + k * π by
      push_cast; field_simp; ring, Real.cos_add_nat_mul_pi, Real.cos_pi_div_two, mul_zero]
  simp [oddSum_real _ x hN, hcos]

end Sums

/-! ## The outputs -/

/-- The middle output of odd `N` has no odd terms. -/
theorem evenSum_middle {N : ℕ} (hN : 2 ≤ N) (hodd : N % 2 = 1) (x : ℕ → ℝ) :
    evenSum realArith N x (N / 2) = idctSum N (min N 8) x (N / 2) := by
  rw [← evenSum_add_oddSum _ x hN, Scalar.add_def, oddSum_middle x hN hodd, realArith_add,
    add_zero]

/-- The table-driven form computes every output of the inverse DCT of the first `min(N, 8)`
inputs. -/
theorem tableIDCT_real {N : ℕ} (hN : 2 ≤ N) (x : ℕ → ℝ) :
    tableIDCT realArith N x = (List.range N).map (idctSum N (min N 8) x) := by
  have hmid : (if N % 2 = 1 then [evenSum realArith N x (N / 2)] else []) =
      (List.range (N % 2)).map (fun _ => idctSum N (min N 8) x (N / 2)) := by
    rcases Nat.mod_two_eq_zero_or_one N with hm | hm
    · simp [hm]
    · simp [hm, evenSum_middle hN hm x]
  apply List.ext_getElem
  · simp only [tableIDCT, hmid, List.length_append, List.length_map, List.length_range,
      List.length_reverse]
    omega
  · intro i h1 h2
    simp only [tableIDCT, hmid, List.getElem_append, List.getElem_map, List.getElem_range,
      List.getElem_reverse, List.length_map, List.length_range, List.length_reverse]
    split_ifs with hi hm
    · exact evenSum_add_oddSum i x hN
    · congr 1
      omega
    · rw [evenSum_sub_oddSum _ x hN (by omega)]
      congr 1
      simp only [List.length_append, List.length_map, List.length_range, List.length_reverse,
        tableIDCT, hmid] at h1
      omega
/-- At every size it handles, `Compute1dIDCT` computes the unnormalised N-point inverse DCT of
its first `min(N, 8)` inputs, and under any arithmetic it reads no input beyond them. -/
theorem compute1dIDCT_computes_idctSum {N : ℕ} (hN : N ∈ scaledSizes) (inp : ℕ → ℝ) :
    compute1dIDCT realArith inp N = some ((List.range N).map (idctSum N (min N 8) inp)) ∧
      ∀ {α : Type} (A : FloatArith α) (x y : ℕ → Scalar A), (∀ u < min N 8, x u = y u) →
        compute1dIDCT A x N = compute1dIDCT A y N :=
  ⟨by rw [compute1dIDCT_eq_tableIDCT _ _ hN, tableIDCT_real (two_le_of_mem_scaledSizes hN)],
    fun _ _ _ h => compute1dIDCT_congr h⟩

theorem compute1dIDCT_computes_idctSum_at_three :
    3 ∈ scaledSizes ∧
      (compute1dIDCT realArith (fun u => (u : ℝ)) 3 =
        some ((List.range 3).map (idctSum 3 (min 3 8) (fun u => (u : ℝ)))) ∧
      ∀ {α : Type} (A : FloatArith α) (x y : ℕ → Scalar A), (∀ u < min 3 8, x u = y u) →
        compute1dIDCT A x 3 = compute1dIDCT A y 3) :=
  ⟨by decide, compute1dIDCT_computes_idctSum (by decide) _⟩

end JpegliIdct
