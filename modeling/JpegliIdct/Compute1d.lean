import JpegliIdct.Arith

/-!
# `Compute1dIDCT`

The scaled sizes `3, 5, 6, 7, 9, …, 16` have no power-of-two factorisation, and the kernel
spells out, for each of them, a closed-form even/odd decomposition of the N-point inverse DCT
with its own table `kC<N>`. `compute1dIDCT` is that function case by case, as the code writes
it: the `even` and `odd` partial sums, then `out[j] = even_j + odd_j` and
`out[N - 1 - j] = even_j - odd_j`, with the unpaired middle output for odd `N`. It returns the
values stored to `out[0], …, out[N - 1]` in index order, or `none` where the code reaches
`JXL_ABORT("Compute1dIDCT does not support N=%d")`. No size reads `in[8]` or beyond: the code
takes the coefficients `8, …, N - 1` of the larger sizes to be zero.

Every size is one instance of a table-driven form, `tableIDCT`: the term of coefficient `u` in
output `j` is `± kC<N>[i] · in[u]`, where `cos((2j + 1) u π / 2N) = ± cos(iπ / 2N)` folds the
angle into `[0, π/2)` (`foldAngle`), and is absent where that cosine vanishes. The code is that
form at all twelve sizes (`compute1dIDCT_eq_tableIDCT`), so one proof about `tableIDCT` covers
them, and every other size aborts (`compute1dIDCT_eq_none`). Read through the form, the code
reads only `in[0], …, in[min(N, 8) - 1]`, whatever the arithmetic (`compute1dIDCT_congr`).
-/

namespace JpegliIdct

variable {α : Type} (A : FloatArith α)

/-- `Compute1dIDCT(in, out, N)`. -/
def compute1dIDCT (x : ℕ → Scalar A) : ℕ → Option (List (Scalar A))
  | 3 =>
    let k := kC A 3
    let even0 := x 0 + k 2 * x 2
    let even1 := x 0 - k 0 * x 2
    let odd0 := k 1 * x 1
    some [even0 + odd0, even1, even0 - odd0]
  | 5 =>
    let k := kC A 5
    let even0 := x 0 + k 2 * x 2 + k 4 * x 4
    let even1 := x 0 - k 4 * x 2 - k 2 * x 4
    let even2 := x 0 - k 0 * x 2 + k 0 * x 4
    let odd0 := k 1 * x 1 + k 3 * x 3
    let odd1 := k 3 * x 1 - k 1 * x 3
    some [even0 + odd0, even1 + odd1, even2, even1 - odd1, even0 - odd0]
  | 6 =>
    let k := kC A 6
    let even0 := x 0 + k 2 * x 2 + k 4 * x 4
    let even1 := x 0 - k 0 * x 4
    let even2 := x 0 - k 2 * x 2 + k 4 * x 4
    let odd0 := k 1 * x 1 + k 3 * x 3 + k 5 * x 5
    let odd1 := k 3 * x 1 - k 3 * x 3 - k 3 * x 5
    let odd2 := k 5 * x 1 - k 3 * x 3 + k 1 * x 5
    some [even0 + odd0, even1 + odd1, even2 + odd2, even2 - odd2, even1 - odd1, even0 - odd0]
  | 7 =>
    let k := kC A 7
    let even0 := x 0 + k 2 * x 2 + k 4 * x 4 + k 6 * x 6
    let even1 := x 0 + k 6 * x 2 - k 2 * x 4 - k 4 * x 6
    let even2 := x 0 - k 4 * x 2 - k 6 * x 4 + k 2 * x 6
    let even3 := x 0 - k 0 * x 2 + k 0 * x 4 - k 0 * x 6
    let odd0 := k 1 * x 1 + k 3 * x 3 + k 5 * x 5
    let odd1 := k 3 * x 1 - k 5 * x 3 - k 1 * x 5
    let odd2 := k 5 * x 1 - k 1 * x 3 + k 3 * x 5
    some [even0 + odd0, even1 + odd1, even2 + odd2, even3, even2 - odd2, even1 - odd1, even0 - odd0]
  | 9 =>
    let k := kC A 9
    let even0 := x 0 + k 2 * x 2 + k 4 * x 4 + k 6 * x 6
    let even1 := x 0 + k 6 * x 2 - k 6 * x 4 - k 0 * x 6
    let even2 := x 0 - k 8 * x 2 - k 2 * x 4 + k 6 * x 6
    let even3 := x 0 - k 4 * x 2 + k 8 * x 4 + k 6 * x 6
    let even4 := x 0 - k 0 * x 2 + k 0 * x 4 - k 0 * x 6
    let odd0 := k 1 * x 1 + k 3 * x 3 + k 5 * x 5 + k 7 * x 7
    let odd1 := k 3 * x 1 - k 3 * x 5 - k 3 * x 7
    let odd2 := k 5 * x 1 - k 3 * x 3 - k 7 * x 5 + k 1 * x 7
    let odd3 := k 7 * x 1 - k 3 * x 3 + k 1 * x 5 - k 5 * x 7
    some [
      even0 + odd0, even1 + odd1, even2 + odd2, even3 + odd3, even4, even3 - odd3, even2 - odd2,
      even1 - odd1, even0 - odd0]
  | 10 =>
    let k := kC A 10
    let even0 := x 0 + k 2 * x 2 + k 4 * x 4 + k 6 * x 6
    let even1 := x 0 + k 6 * x 2 - k 8 * x 4 - k 2 * x 6
    let even2 := x 0 - k 0 * x 4
    let even3 := x 0 - k 6 * x 2 - k 8 * x 4 + k 2 * x 6
    let even4 := x 0 - k 2 * x 2 + k 4 * x 4 - k 6 * x 6
    let odd0 := k 1 * x 1 + k 3 * x 3 + k 5 * x 5 + k 7 * x 7
    let odd1 := k 3 * x 1 + k 9 * x 3 - k 5 * x 5 - k 1 * x 7
    let odd2 := k 5 * x 1 - k 5 * x 3 - k 5 * x 5 + k 5 * x 7
    let odd3 := k 7 * x 1 - k 1 * x 3 + k 5 * x 5 + k 9 * x 7
    let odd4 := k 9 * x 1 - k 7 * x 3 + k 5 * x 5 - k 3 * x 7
    some [
      even0 + odd0, even1 + odd1, even2 + odd2, even3 + odd3, even4 + odd4, even4 - odd4,
      even3 - odd3, even2 - odd2, even1 - odd1, even0 - odd0]
  | 11 =>
    let k := kC A 11
    let even0 := x 0 + k 2 * x 2 + k 4 * x 4 + k 6 * x 6
    let even1 := x 0 + k 6 * x 2 - k 10 * x 4 - k 4 * x 6
    let even2 := x 0 + k 10 * x 2 - k 2 * x 4 - k 8 * x 6
    let even3 := x 0 - k 8 * x 2 - k 6 * x 4 + k 2 * x 6
    let even4 := x 0 - k 4 * x 2 + k 8 * x 4 + k 10 * x 6
    let even5 := x 0 - k 0 * x 2 + k 0 * x 4 - k 0 * x 6
    let odd0 := k 1 * x 1 + k 3 * x 3 + k 5 * x 5 + k 7 * x 7
    let odd1 := k 3 * x 1 + k 9 * x 3 - k 7 * x 5 - k 1 * x 7
    let odd2 := k 5 * x 1 - k 7 * x 3 - k 3 * x 5 + k 9 * x 7
    let odd3 := k 7 * x 1 - k 1 * x 3 + k 9 * x 5 + k 5 * x 7
    let odd4 := k 9 * x 1 - k 5 * x 3 + k 1 * x 5 - k 3 * x 7
    some [
      even0 + odd0, even1 + odd1, even2 + odd2, even3 + odd3, even4 + odd4, even5, even4 - odd4,
      even3 - odd3, even2 - odd2, even1 - odd1, even0 - odd0]
  | 12 =>
    let k := kC A 12
    let even0 := x 0 + k 2 * x 2 + k 4 * x 4 + k 6 * x 6
    let even1 := x 0 + k 6 * x 2 - k 6 * x 6
    let even2 := x 0 + k 10 * x 2 - k 4 * x 4 - k 6 * x 6
    let even3 := x 0 - k 10 * x 2 - k 4 * x 4 + k 6 * x 6
    let even4 := x 0 - k 6 * x 2 + k 6 * x 6
    let even5 := x 0 - k 2 * x 2 + k 4 * x 4 - k 6 * x 6
    let odd0 := k 1 * x 1 + k 3 * x 3 + k 5 * x 5 + k 7 * x 7
    let odd1 := k 3 * x 1 + k 9 * x 3 - k 9 * x 5 - k 3 * x 7
    let odd2 := k 5 * x 1 - k 9 * x 3 - k 1 * x 5 - k 11 * x 7
    let odd3 := k 7 * x 1 - k 3 * x 3 - k 11 * x 5 + k 1 * x 7
    let odd4 := k 9 * x 1 - k 3 * x 3 + k 3 * x 5 - k 9 * x 7
    let odd5 := k 11 * x 1 - k 9 * x 3 + k 7 * x 5 - k 5 * x 7
    some [
      even0 + odd0, even1 + odd1, even2 + odd2, even3 + odd3, even4 + odd4, even5 + odd5,
      even5 - odd5, even4 - odd4, even3 - odd3, even2 - odd2, even1 - odd1, even0 - odd0]
  | 13 =>
    let k := kC A 13
    let even0 := x 0 + k 2 * x 2 + k 4 * x 4 + k 6 * x 6
    let even1 := x 0 + k 6 * x 2 + k 12 * x 4 - k 8 * x 6
    let even2 := x 0 + k 10 * x 2 - k 6 * x 4 - k 4 * x 6
    let even3 := x 0 - k 12 * x 2 - k 2 * x 4 + k 10 * x 6
    let even4 := x 0 - k 8 * x 2 - k 10 * x 4 + k 2 * x 6
    let even5 := x 0 - k 4 * x 2 + k 8 * x 4 - k 12 * x 6
    let even6 := x 0 - k 0 * x 2 + k 0 * x 4 - k 0 * x 6
    let odd0 := k 1 * x 1 + k 3 * x 3 + k 5 * x 5 + k 7 * x 7
    let odd1 := k 3 * x 1 + k 9 * x 3 - k 11 * x 5 - k 5 * x 7
    let odd2 := k 5 * x 1 - k 11 * x 3 - k 1 * x 5 - k 9 * x 7
    let odd3 := k 7 * x 1 - k 5 * x 3 - k 9 * x 5 + k 3 * x 7
    let odd4 := k 9 * x 1 - k 1 * x 3 + k 7 * x 5 + k 11 * x 7
    let odd5 := k 11 * x 1 - k 7 * x 3 + k 3 * x 5 - k 1 * x 7
    some [
      even0 + odd0, even1 + odd1, even2 + odd2, even3 + odd3, even4 + odd4, even5 + odd5, even6,
      even5 - odd5, even4 - odd4, even3 - odd3, even2 - odd2, even1 - odd1, even0 - odd0]
  | 14 =>
    let k := kC A 14
    let even0 := x 0 + k 2 * x 2 + k 4 * x 4 + k 6 * x 6
    let even1 := x 0 + k 6 * x 2 + k 12 * x 4 - k 10 * x 6
    let even2 := x 0 + k 10 * x 2 - k 8 * x 4 - k 2 * x 6
    let even3 := x 0 - k 0 * x 4
    let even4 := x 0 - k 10 * x 2 - k 8 * x 4 + k 2 * x 6
    let even5 := x 0 - k 6 * x 2 + k 12 * x 4 + k 10 * x 6
    let even6 := x 0 - k 2 * x 2 + k 4 * x 4 - k 6 * x 6
    let odd0 := k 1 * x 1 + k 3 * x 3 + k 5 * x 5 + k 7 * x 7
    let odd1 := k 3 * x 1 + k 9 * x 3 - k 13 * x 5 - k 7 * x 7
    let odd2 := k 5 * x 1 - k 13 * x 3 - k 3 * x 5 - k 7 * x 7
    let odd3 := k 7 * x 1 - k 7 * x 3 - k 7 * x 5 + k 7 * x 7
    let odd4 := k 9 * x 1 - k 1 * x 3 + k 11 * x 5 + k 7 * x 7
    let odd5 := k 11 * x 1 - k 5 * x 3 + k 1 * x 5 - k 7 * x 7
    let odd6 := k 13 * x 1 - k 11 * x 3 + k 9 * x 5 - k 7 * x 7
    some [
      even0 + odd0, even1 + odd1, even2 + odd2, even3 + odd3, even4 + odd4, even5 + odd5,
      even6 + odd6, even6 - odd6, even5 - odd5, even4 - odd4, even3 - odd3, even2 - odd2,
      even1 - odd1, even0 - odd0]
  | 15 =>
    let k := kC A 15
    let even0 := x 0 + k 2 * x 2 + k 4 * x 4 + k 6 * x 6
    let even1 := x 0 + k 6 * x 2 + k 12 * x 4 - k 12 * x 6
    let even2 := x 0 + k 10 * x 2 - k 10 * x 4 - k 0 * x 6
    let even3 := x 0 + k 14 * x 2 - k 2 * x 4 - k 12 * x 6
    let even4 := x 0 - k 12 * x 2 - k 6 * x 4 + k 6 * x 6
    let even5 := x 0 - k 8 * x 2 - k 14 * x 4 + k 6 * x 6
    let even6 := x 0 - k 4 * x 2 + k 8 * x 4 - k 12 * x 6
    let even7 := x 0 - k 0 * x 2 + k 0 * x 4 - k 0 * x 6
    let odd0 := k 1 * x 1 + k 3 * x 3 + k 5 * x 5 + k 7 * x 7
    let odd1 := k 3 * x 1 + k 9 * x 3 - k 9 * x 7
    let odd2 := k 5 * x 1 - k 5 * x 5 - k 5 * x 7
    let odd3 := k 7 * x 1 - k 9 * x 3 - k 5 * x 5 + k 11 * x 7
    let odd4 := k 9 * x 1 - k 3 * x 3 + k 3 * x 7
    let odd5 := k 11 * x 1 - k 3 * x 3 + k 5 * x 5 - k 13 * x 7
    let odd6 := k 13 * x 1 - k 9 * x 3 + k 5 * x 5 - k 1 * x 7
    some [
      even0 + odd0, even1 + odd1, even2 + odd2, even3 + odd3, even4 + odd4, even5 + odd5,
      even6 + odd6, even7, even6 - odd6, even5 - odd5, even4 - odd4, even3 - odd3, even2 - odd2,
      even1 - odd1, even0 - odd0]
  | 16 =>
    let k := kC A 16
    let even0 := x 0 + k 2 * x 2 + k 4 * x 4 + k 6 * x 6
    let even1 := x 0 + k 6 * x 2 + k 12 * x 4 - k 14 * x 6
    let even2 := x 0 + k 10 * x 2 - k 12 * x 4 - k 2 * x 6
    let even3 := x 0 + k 14 * x 2 - k 4 * x 4 - k 10 * x 6
    let even4 := x 0 - k 14 * x 2 - k 4 * x 4 + k 10 * x 6
    let even5 := x 0 - k 10 * x 2 - k 12 * x 4 + k 2 * x 6
    let even6 := x 0 - k 6 * x 2 + k 12 * x 4 + k 14 * x 6
    let even7 := x 0 - k 2 * x 2 + k 4 * x 4 - k 6 * x 6
    let odd0 := k 1 * x 1 + k 3 * x 3 + k 5 * x 5 + k 7 * x 7
    let odd1 := k 3 * x 1 + k 9 * x 3 + k 15 * x 5 - k 11 * x 7
    let odd2 := k 5 * x 1 + k 15 * x 3 - k 7 * x 5 - k 3 * x 7
    let odd3 := k 7 * x 1 - k 11 * x 3 - k 3 * x 5 + k 15 * x 7
    let odd4 := k 9 * x 1 - k 5 * x 3 - k 13 * x 5 + k 1 * x 7
    let odd5 := k 11 * x 1 - k 1 * x 3 + k 9 * x 5 + k 13 * x 7
    let odd6 := k 13 * x 1 - k 7 * x 3 + k 1 * x 5 - k 5 * x 7
    let odd7 := k 15 * x 1 - k 13 * x 3 + k 11 * x 5 - k 9 * x 7
    some [
      even0 + odd0, even1 + odd1, even2 + odd2, even3 + odd3, even4 + odd4, even5 + odd5,
      even6 + odd6, even7 + odd7, even7 - odd7, even6 - odd6, even5 - odd5, even4 - odd4,
      even3 - odd3, even2 - odd2, even1 - odd1, even0 - odd0]
  | _ => none

/-- The sizes `Compute1dIDCT` has a case for. -/
def scaledSizes : List ℕ := [3, 5, 6, 7, 9, 10, 11, 12, 13, 14, 15, 16]

theorem two_le_of_mem_scaledSizes {N : ℕ} (hN : N ∈ scaledSizes) : 2 ≤ N := by
  simp only [scaledSizes, List.mem_cons, List.mem_singleton, List.not_mem_nil, or_false] at hN
  omega

/-! ## The table-driven form -/

/-- Where `cos(mπ / 2N)` lands in the table: `some (true, i)` for `cos(iπ / 2N)`,
`some (false, i)` for `-cos(iπ / 2N)`, with `i < N`, and `none` where the cosine is zero. -/
def foldAngle (N m : ℕ) : Option (Bool × ℕ) :=
  let r := m % (4 * N)
  if r < N then some (true, r)
  else if r = N then none
  else if r ≤ 2 * N then some (false, 2 * N - r)
  else if r < 3 * N then some (false, r - 2 * N)
  else if r = 3 * N then none
  else some (true, 4 * N - r)

/-- The partial sum of output `j` after the term of coefficient `u`. -/
def addTerm (N j : ℕ) (x : ℕ → Scalar A) (acc : Scalar A) (u : ℕ) : Scalar A :=
  match foldAngle N ((2 * j + 1) * u) with
  | some (true, i) => acc + kC A N i * x u
  | some (false, i) => acc - kC A N i * x u
  | none => acc

/-- `even_j`: `in[0]` and the terms of the even coefficients `2, 4, … < min(N, 8)`. -/
def evenSum (N : ℕ) (x : ℕ → Scalar A) (j : ℕ) : Scalar A :=
  (List.range' 2 ((min N 8 - 1) / 2) 2).foldl (addTerm A N j x) (x 0)

/-- `odd_j`: the terms of the odd coefficients `1, 3, … < min(N, 8)`. The first one is
`kC<N>[2j + 1] · in[1]`, since `2j + 1 < N`. -/
def oddSum (N : ℕ) (x : ℕ → Scalar A) (j : ℕ) : Scalar A :=
  (List.range' 3 ((min N 8 - 2) / 2) 2).foldl (addTerm A N j x) (kC A N (2 * j + 1) * x 1)

/-- The outputs in index order: `even_j + odd_j` for `j < N/2`, the middle `even_{N/2}` for
odd `N`, then `even_j - odd_j` for `j = N/2 - 1, …, 0`. -/
def tableIDCT (N : ℕ) (x : ℕ → Scalar A) : List (Scalar A) :=
  (List.range (N / 2)).map (fun j => evenSum A N x j + oddSum A N x j) ++
    ((if N % 2 = 1 then [evenSum A N x (N / 2)] else []) ++
      (List.range (N / 2)).reverse.map (fun j => evenSum A N x j - oddSum A N x j))

/-- Each size of the code is the table-driven form: every `kC<N>[i]` term stands where the
folded angle puts it, with its sign. -/
theorem compute1dIDCT_eq_tableIDCT (x : ℕ → Scalar A) {N : ℕ} (hN : N ∈ scaledSizes) :
    compute1dIDCT A x N = some (tableIDCT A N x) := by
  simp only [scaledSizes, List.mem_cons, List.mem_singleton, List.not_mem_nil, or_false] at hN
  rcases hN with rfl | rfl | rfl | rfl | rfl | rfl | rfl | rfl | rfl | rfl | rfl | rfl <;> rfl

/-- Every other size reaches `JXL_ABORT`. -/
theorem compute1dIDCT_eq_none (x : ℕ → Scalar A) {N : ℕ} (hN : N ∉ scaledSizes) :
    compute1dIDCT A x N = none := by
  simp only [scaledSizes, List.mem_cons, List.mem_singleton, List.not_mem_nil, or_false,
    not_or] at hN
  obtain ⟨h3, h5, h6, h7, h9, h10, h11, h12, h13, h14, h15, h16⟩ := hN
  exact compute1dIDCT.eq_13 A x N h3 h5 h6 h7 h9 h10 h11 h12 h13 h14 h15 h16

/-! ## What the code reads -/

section Congr

variable {A} {N j : ℕ} {x y : ℕ → Scalar A}

theorem foldl_addTerm_congr :
    ∀ {l : List ℕ} (acc : Scalar A), (∀ u ∈ l, x u = y u) →
      l.foldl (addTerm A N j x) acc = l.foldl (addTerm A N j y) acc
  | [], _, _ => rfl
  | u :: l, acc, h => by
    have hu : addTerm A N j x acc u = addTerm A N j y acc u := by
      simp only [addTerm, h u (List.mem_cons_self u l)]
    rw [List.foldl_cons, List.foldl_cons, hu,
      foldl_addTerm_congr _ (fun v hv => h v (List.mem_cons_of_mem u hv))]

variable (h : ∀ u < min N 8, x u = y u)
include h

theorem evenSum_congr (hN : 0 < N) : evenSum A N x j = evenSum A N y j := by
  rw [evenSum, evenSum, h 0 (by omega)]
  refine foldl_addTerm_congr _ (fun u hu => h u ?_)
  obtain ⟨i, hi, rfl⟩ := List.mem_range'.1 hu
  omega

theorem oddSum_congr (hN : 2 ≤ N) : oddSum A N x j = oddSum A N y j := by
  rw [oddSum, oddSum, h 1 (by omega)]
  refine foldl_addTerm_congr _ (fun u hu => h u ?_)
  obtain ⟨i, hi, rfl⟩ := List.mem_range'.1 hu
  omega

theorem tableIDCT_congr (hN : 2 ≤ N) : tableIDCT A N x = tableIDCT A N y := by
  simp only [tableIDCT, evenSum_congr h (j := _) (by omega), oddSum_congr h (j := _) hN]

/-- `Compute1dIDCT` reads no input at or beyond `min(N, 8)`, under any arithmetic. -/
theorem compute1dIDCT_congr : compute1dIDCT A x N = compute1dIDCT A y N := by
  by_cases hN : N ∈ scaledSizes
  · rw [compute1dIDCT_eq_tableIDCT A _ hN, compute1dIDCT_eq_tableIDCT A _ hN,
      tableIDCT_congr h (two_le_of_mem_scaledSizes hN)]
  · rw [compute1dIDCT_eq_none A x hN, compute1dIDCT_eq_none A y hN]

end Congr

theorem tableIDCT_length (N : ℕ) (x : ℕ → Scalar A) : (tableIDCT A N x).length = N := by
  simp only [tableIDCT, List.length_append, List.length_map, List.length_range,
    List.length_reverse]
  split <;> simp <;> omega

/-- Output `i` of `Compute1dIDCT` on `x` at size `N`. -/
def compute1dAt (N : ℕ) (x : ℕ → Scalar A) (i : ℕ) : Scalar A := (tableIDCT A N x).getD i (x 0)

/-- At every size it handles, `Compute1dIDCT` returns its outputs `0, …, N - 1` in order. -/
theorem compute1dIDCT_eq_compute1dAt (x : ℕ → Scalar A) {N : ℕ} (hN : N ∈ scaledSizes) :
    compute1dIDCT A x N = some ((List.range N).map (compute1dAt A N x)) := by
  rw [compute1dIDCT_eq_tableIDCT A x hN]
  refine congrArg some (List.ext_getElem (by simp [tableIDCT_length]) (fun i h₁ h₂ => ?_))
  simp [compute1dAt, List.getElem?_eq_getElem h₁]

theorem compute1dAt_congr {N : ℕ} (hN : 2 ≤ N) {x y : ℕ → Scalar A}
    (h : ∀ u < min N 8, x u = y u) (i : ℕ) : compute1dAt A N x i = compute1dAt A N y i := by
  rw [compute1dAt, compute1dAt, tableIDCT_congr h hN, h 0 (by omega)]

/-! ## Changing the arithmetic -/

section Map

variable {A} {β : Type} {B : FloatArith β} (f : A.Hom B) (N : ℕ) (x : ℕ → Scalar A)

theorem foldl_addTerm_map (j : ℕ) :
    ∀ (l : List ℕ) (acc : Scalar A),
      f.toFun (l.foldl (addTerm A N j x) acc) = l.foldl (addTerm B N j (f.toFun ∘ x)) (f.toFun acc)
  | [], _ => rfl
  | u :: l, acc => by
    rw [List.foldl_cons, List.foldl_cons, foldl_addTerm_map j l]
    congr 1
    simp only [addTerm]
    split <;> simp [Function.comp]

theorem evenSum_map (j : ℕ) : f.toFun (evenSum A N x j) = evenSum B N (f.toFun ∘ x) j :=
  foldl_addTerm_map f N x j _ _

theorem oddSum_map (j : ℕ) : f.toFun (oddSum A N x j) = oddSum B N (f.toFun ∘ x) j := by
  rw [oddSum, oddSum, foldl_addTerm_map]
  simp [Function.comp]

theorem tableIDCT_map : (tableIDCT A N x).map f.toFun = tableIDCT B N (f.toFun ∘ x) := by
  simp only [tableIDCT, List.map_append, List.map_map, Function.comp_def, List.map_reverse]
  split <;>
    simp only [List.map_cons, List.map_nil, Scalar.add_def, Scalar.sub_def, f.map_add, f.map_sub,
      evenSum_map, oddSum_map, Function.comp_def]

end Map

end JpegliIdct
