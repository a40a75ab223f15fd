import Mathlib.Data.Nat.Bitwise

/-!
# `Values<Enum>()`: the enumerators of a bit set

`lib/cms/color_encoding_internal.h` lists the values of each colour-encoding enum as a 64-bit
set, `EnumBits(e) = MakeBit(e₁) | MakeBit(e₂) | …`, and `Values<Enum>()` turns the set back into
the list of values: while `bits != 0` it appends the index of the least-significant one bit and
clears that bit with `bits &= bits - 1`.

* **The loop** (`values_exact`): `values bits` is strictly increasing and holds exactly the
  indices of the one bits of `bits`.
* **Round trips.** `EnumBits` of the list is the set again (`enumBits_values`), and the list of
  the set of any indices below 64 is those indices, sorted and each once (`values_enumBits`).

The enumerators' numeric values are declared in `color_encoding_cms.h`, which is not part of the
sources: `enumBits` takes them as a list, and each enum's `EnumBits` takes them as a function. The proofs read each `uint64_t` operation through
`BitVec.toNat` and reason on `Nat.testBit`; the one fact about the loop's step is that
`n &&& (n - 1)` is `n` without its least-significant one bit (`testBit_and_sub_one`).
-/

namespace JpegliIdct

/-! ## The code -/

/-- `MakeBit(index)`: the bit of the given index, `1ULL << index`. -/
def makeBit (index : ℕ) : BitVec 64 := 1#64 <<< index

/-- Modelled from the spec: `Num0BitsBelowLS1Bit_Nonzero(x)` of `lib/base/bits.h`, whose source
is not in the repository, is the number of zero bits below the least-significant one bit of a
nonzero `x`, that is the index of that bit. -/
def num0BitsBelowLS1BitNonzero (x : BitVec 64) : ℕ :=
  ((List.range 64).find? fun i => x.getLsbD i).getD 64

theorem toNat_sub_one {bits : BitVec 64} (h : bits ≠ 0#64) :
    (bits - 1#64).toNat = bits.toNat - 1 := by
  have h0 : bits.toNat ≠ 0 := fun h' => h (BitVec.eq_of_toNat_eq (by simpa using h'))
  rw [BitVec.toNat_sub_of_le (BitVec.le_def.2 (by simp; omega))]
  simp

/-- `bits &= bits - 1` makes the set smaller, so the loop ends. -/
theorem toNat_and_sub_one_lt {bits : BitVec 64} (h : bits ≠ 0#64) :
    (bits &&& (bits - 1#64)).toNat < bits.toNat := by
  have h0 : bits.toNat ≠ 0 := fun h' => h (BitVec.eq_of_toNat_eq (by simpa using h'))
  rw [BitVec.toNat_and, toNat_sub_one h]
  exact Nat.lt_of_le_of_lt Nat.and_le_right (by omega)

/-- The loop of `Values<Enum>()` on `bits = EnumBits(Enum())`: the index of the least-significant
one bit, then the loop on `bits & (bits - 1)`, until `bits == 0`. -/
def values (bits : BitVec 64) : List ℕ :=
  if bits = 0#64 then []
  else num0BitsBelowLS1BitNonzero bits :: values (bits &&& (bits - 1#64))
termination_by bits.toNat
decreasing_by exact toNat_and_sub_one_lt ‹_›

/-- `EnumBits`: `MakeBit(e₁) | MakeBit(e₂) | …` over the values of the enumerators. -/
def enumBits (indices : List ℕ) : BitVec 64 := indices.foldl (fun acc i => acc ||| makeBit i) 0#64

/-! ## The enums -/

/-- The enumerators of `ColorSpace` that `EnumBits(ColorSpace)` lists. -/
inductive ColorSpace | kRGB | kGray | kXYB | kUnknown
  deriving DecidableEq, Repr

/-- The enumerators of `WhitePoint` that `EnumBits(WhitePoint)` lists. -/
inductive WhitePoint | kD65 | kCustom | kE | kDCI
  deriving DecidableEq, Repr

/-- The enumerators of `Primaries` that `EnumBits(Primaries)` lists. -/
inductive Primaries | kSRGB | kCustom | k2100 | kP3
  deriving DecidableEq, Repr

/-- The enumerators of `TransferFunction` that `EnumBits(TransferFunction)` lists. -/
inductive TransferFunction | k709 | kLinear | kSRGB | kPQ | kDCI | kHLG | kUnknown
  deriving DecidableEq, Repr

/-- The enumerators of `RenderingIntent` that `EnumBits(RenderingIntent)` lists. -/
inductive RenderingIntent | kPerceptual | kRelative | kSaturation | kAbsolute
  deriving DecidableEq, Repr

/-- `EnumBits(ColorSpace)`, for the values `value` of the enumerators. -/
def ColorSpace.enumBits (value : ColorSpace → ℕ) : BitVec 64 :=
  JpegliIdct.enumBits [value .kRGB, value .kGray, value .kXYB, value .kUnknown]

/-- `EnumBits(WhitePoint)`, for the values `value` of the enumerators. -/
def WhitePoint.enumBits (value : WhitePoint → ℕ) : BitVec 64 :=
  JpegliIdct.enumBits [value .kD65, value .kCustom, value .kE, value .kDCI]

/-- `EnumBits(Primaries)`, for the values `value` of the enumerators. -/
def Primaries.enumBits (value : Primaries → ℕ) : BitVec 64 :=
  JpegliIdct.enumBits [value .kSRGB, value .kCustom, value .k2100, value .kP3]

/-- `EnumBits(TransferFunction)`, for the values `value` of the enumerators. -/
def TransferFunction.enumBits (value : TransferFunction → ℕ) : BitVec 64 :=
  JpegliIdct.enumBits [value .k709, value .kLinear, value .kSRGB, value .kPQ, value .kDCI,
    value .kHLG, value .kUnknown]

/-- `EnumBits(RenderingIntent)`, for the values `value` of the enumerators. -/
def RenderingIntent.enumBits (value : RenderingIntent → ℕ) : BitVec 64 :=
  JpegliIdct.enumBits [value .kPerceptual, value .kRelative, value .kSaturation, value .kAbsolute]

/-! ## Bits of natural numbers -/

/-- `n &&& (n - 1)` is `n` without its least-significant one bit `i`: writing `n = 2^i q` with
`q` odd, `n - 1 = 2^i (q - 1) + (2^i - 1)`, and `q - 1` is `q` without bit `0`. -/
theorem testBit_and_sub_one {n i : ℕ} (hi : n.testBit i = true)
    (hlow : ∀ j < i, n.testBit j = false) (j : ℕ) :
    (n &&& (n - 1)).testBit j = (n.testBit j && j != i) := by
  have hmod : n % 2 ^ i = 0 := Nat.eq_of_testBit_eq fun j => by
    rw [Nat.testBit_mod_two_pow, Nat.zero_testBit]
    by_cases hj : j < i
    · simp [hj, hlow j hj]
    · simp [hj]
  set q := n / 2 ^ i
  have hn : n = 2 ^ i * q + 0 := by
    rw [Nat.add_zero, Nat.mul_div_cancel' (Nat.dvd_of_mod_eq_zero hmod)]
  have hbit : ∀ k, n.testBit k = if k < i then false else q.testBit (k - i) := fun k => by
    rw [hn, Nat.testBit_mul_pow_two_add q (Nat.two_pow_pos i) k, Nat.zero_testBit]
  -- `q` is odd, `q - 1` is `q` without bit `0`
  have hq : q.testBit 0 = true := by simpa using (hbit i).symm.trans hi
  set m := q / 2
  have hq1 : q = 2 ^ 1 * m + 1 := by
    have : q % 2 = 1 := by simpa [Nat.testBit_zero] using hq
    omega
  have hbitq : ∀ k, (q - 1).testBit k = (q.testBit k && k != 0) := fun k => by
    rw [show q - 1 = 2 ^ 1 * m + 0 by omega, hq1,
      Nat.testBit_mul_pow_two_add m (by decide : 0 < 2 ^ 1),
      Nat.testBit_mul_pow_two_add m (by decide : 1 < 2 ^ 1)]
    rcases Nat.eq_zero_or_pos k with rfl | hk
    · simp
    · simp [show ¬ k < 1 by omega, show k ≠ 0 by omega]
  have hsub : n - 1 = 2 ^ i * (q - 1) + (2 ^ i - 1) := by
    have hq1 : 1 ≤ q := by omega
    have := Nat.two_pow_pos i
    rw [hn, Nat.add_zero, Nat.mul_sub_one]
    have : 2 ^ i ≤ 2 ^ i * q := Nat.le_mul_of_pos_right _ hq1
    omega
  rw [Nat.testBit_and, hsub, Nat.testBit_mul_pow_two_add _ (by omega : 2 ^ i - 1 < 2 ^ i), hbit,
    Nat.testBit_two_pow_sub_one]
  by_cases hj : j < i
  · simp [hj]
  · rw [if_neg hj, if_neg hj, hbitq]
    rcases Nat.lt_or_ge i j with hij | hij
    · rw [show (j - i != 0) = true from bne_iff_ne.2 (by omega),
        show (j != i) = true from bne_iff_ne.2 (by omega), Bool.and_true, Bool.and_self]
    · simp [show j = i by omega]

/-- The first element of a filtered list is the first one the predicate finds. -/
theorem find?_eq_head?_filter {α : Type} (p : α → Bool) :
    ∀ l : List α, l.find? p = (l.filter p).head?
  | [] => rfl
  | a :: l => by
    cases h : p a <;> simp only [List.find?, List.filter, h, find?_eq_head?_filter p l]; rfl

/-! ## The loop -/

/-- The indices of the one bits of `bits`, in increasing order. -/
def setBits (bits : BitVec 64) : List ℕ := (List.range 64).filter fun i => bits.getLsbD i

theorem mem_setBits {bits : BitVec 64} {i : ℕ} : i ∈ setBits bits ↔ bits.getLsbD i = true := by
  rw [setBits, List.mem_filter, List.mem_range]
  exact ⟨And.right, fun h => ⟨by_contra fun hi => by
    rw [BitVec.getLsbD_ge _ _ (by omega)] at h; exact Bool.false_ne_true h, h⟩⟩

/-- One turn of the loop: the first index of the set is the least-significant one bit, and the
rest is the set of `bits & (bits - 1)`. -/
theorem setBits_step {bits : BitVec 64} (h : bits ≠ 0#64) :
    setBits bits = num0BitsBelowLS1BitNonzero bits :: setBits (bits &&& (bits - 1#64)) := by
  have hne : setBits bits ≠ [] := fun h' => h (BitVec.eq_of_getLsbD_eq fun i => by
    have := mt mem_setBits.2 (h' ▸ List.not_mem_nil i.val)
    simpa using this)
  obtain ⟨a, rest, hL⟩ := List.exists_cons_of_ne_nil hne
  have hsorted : (a :: rest).Pairwise (· < ·) := hL ▸ (List.pairwise_lt_range 64).filter _
  have ha : bits.toNat.testBit a = true := mem_setBits.1 (hL ▸ List.mem_cons_self a rest)
  have hlow : ∀ j < a, bits.toNat.testBit j = false := fun j hj => by
    by_contra hb
    have hj' : j ∈ a :: rest := hL ▸ mem_setBits.2 (by simpa using hb)
    rcases List.mem_cons.1 hj' with rfl | hr
    · exact lt_irrefl _ hj
    · exact lt_asymm hj (List.rel_of_pairwise_cons hsorted hr)
  have hnum : num0BitsBelowLS1BitNonzero bits = a := by
    rw [num0BitsBelowLS1BitNonzero, find?_eq_head?_filter]
    change (setBits bits).head?.getD 64 = a
    rw [hL]
    rfl
  have hrest : setBits (bits &&& (bits - 1#64)) = rest := by
    have hp : ∀ j, (bits &&& (bits - 1#64)).getLsbD j = (j != a && bits.getLsbD j) := fun j => by
      rw [← BitVec.testBit_toNat, BitVec.toNat_and, toNat_sub_one h, testBit_and_sub_one ha hlow,
        Bool.and_comm]
      rfl
    simp only [setBits, hp]
    rw [← List.filter_filter]
    change List.filter _ (setBits bits) = rest
    rw [hL, List.filter_cons_of_neg (by simp), List.filter_eq_self]
    intro x hx
    simpa using (ne_of_lt (List.rel_of_pairwise_cons hsorted hx)).symm
  rw [hL, hnum, hrest]

/-- The loop computes the set of one bits, by the loop's own recursion. -/
theorem values_eq_setBits (bits : BitVec 64) : values bits = setBits bits := by
  induction bits using values.induct with
  | case1 =>
    rw [values, if_pos rfl]
    simp [setBits]
  | case2 bits h ih => rw [values, if_neg h, ih, setBits_step h]

/-- **`Values<Enum>()` lists the one bits of the set, from the least significant up.** For
every 64-bit set, the list is strictly increasing and holds exactly the indices of its one
bits. -/
theorem values_exact (bits : BitVec 64) :
    (values bits).Pairwise (· < ·) ∧ ∀ i, i ∈ values bits ↔ bits.getLsbD i = true := by
  rw [values_eq_setBits]
  exact ⟨(List.pairwise_lt_range 64).filter _, fun _ => mem_setBits⟩

/-! ## Round trips -/

theorem getLsbD_makeBit {i : ℕ} (hi : i < 64) (j : ℕ) : (makeBit i).getLsbD j = decide (i = j) := by
  rw [← BitVec.testBit_toNat, makeBit, BitVec.toNat_shiftLeft]
  simp [Nat.one_shiftLeft, Nat.mod_eq_of_lt (Nat.pow_lt_pow_right (by decide : 1 < 2) hi),
    Nat.testBit_two_pow]

theorem getLsbD_foldl_makeBit {l : List ℕ} (hl : ∀ i ∈ l, i < 64) (j : ℕ) :
    ∀ acc : BitVec 64, (l.foldl (fun acc i => acc ||| makeBit i) acc).getLsbD j =
      (acc.getLsbD j || decide (j ∈ l)) := by
  induction l with
  | nil => simp
  | cons i l ih =>
    intro acc
    rw [List.foldl_cons, ih (fun k hk => hl k (List.mem_cons_of_mem i hk)), BitVec.getLsbD_or,
      getLsbD_makeBit (hl i (List.mem_cons_self i l))]
    by_cases h : j = i <;> simp [h, eq_comm]

/-- Bit `j` of `EnumBits` is set exactly when `j` is one of the listed indices. -/
theorem getLsbD_enumBits {l : List ℕ} (hl : ∀ i ∈ l, i < 64) (j : ℕ) :
    (enumBits l).getLsbD j = decide (j ∈ l) := by
  rw [enumBits, getLsbD_foldl_makeBit hl, BitVec.getLsbD_zero, Bool.false_or]

/-- **`EnumBits` of `Values` is the set again**, for every 64-bit set. -/
theorem enumBits_values (bits : BitVec 64) : enumBits (values bits) = bits := by
  have hl : ∀ i ∈ values bits, i < 64 := fun i hi => by
    rw [values_eq_setBits, setBits, List.mem_filter, List.mem_range] at hi
    exact hi.1
  refine BitVec.eq_of_getLsbD_eq fun i => ?_
  rw [getLsbD_enumBits hl, values_eq_setBits]
  by_cases h : bits.getLsbD i <;> simp [h, mem_setBits]

/-- **`Values` of `EnumBits` lists the enumerators once each, in increasing order of value**,
when every value is below 64, as the source comment requires. -/
theorem values_enumBits (l : List ℕ) (hl : ∀ i ∈ l, i < 64) :
    values (enumBits l) = (List.range 64).filter (· ∈ l) := by
  rw [values_eq_setBits, setBits]
  exact List.filter_congr fun j _ => getLsbD_enumBits hl j

/-- Three values given out of order and one repeated come back sorted, each once. -/
theorem values_enumBits_transfer :
    (∀ i ∈ [13, 1, 8, 1], i < 64) ∧
      values (enumBits [13, 1, 8, 1]) = (List.range 64).filter (· ∈ [13, 1, 8, 1]) :=
  ⟨by decide, values_enumBits [13, 1, 8, 1] (by decide)⟩

end JpegliIdct
