import Mathlib.Data.Nat.Defs
import Mathlib.Data.Int.Defs
import Mathlib.Algebra.Group.Nat.Basic

/-!
# The float arithmetic of the kernel

`lib/jpegli/idct.cc` is written against Highway vectors of `float` lanes, and every vector
operation it applies acts lane by lane. We therefore model the arithmetic as a record of
**per-lane functions** on an abstract lane type `α`, and leave the record a parameter of the
whole model:

* `FloatArith` — what the transforms use: `Add`, `Sub`, `Mul`, `MulAdd`, `NegMulAdd` and the
  float constants the code names (`Const`). The scalar code of `Compute1dIDCT` and of the box
  averages uses the same operations on single floats.
* `LaneOps` — adds what `DequantBlock` uses on top: `Abs`, `Xor`, `Gt`, `IfThenElseZero`,
  `Zero` and the `int32 → float` `ConvertTo`.

The same model is then read with exact reals (`JpegliIdct.Exact`) or with arbitrary per-lane
functions (`JpegliIdct.Lanes`). A `Target` fixes the two lane counts the code asks Highway for.
-/

namespace JpegliIdct

/-! ## Named float constants -/

/-- The float literals of the kernel, by the name the code gives them. -/
inductive Const where
  /-- `kSqrt2` of `BTranspose`. -/
  | sqrt2
  /-- `WcMultipliers<n>::kMultipliers[i]`. -/
  | wc (n i : ℕ)
  /-- `kC<n>[j]`, the table of `Compute1dIDCT` for size `n`. -/
  | kC (n j : ℕ)
  /-- `0.25f`, the weight of the 2×2 box average. -/
  | quarter
  /-- `0.0625f`, the weight of the 4×4 box average. -/
  | sixteenth
  deriving DecidableEq, Repr

/-! ## Per-lane arithmetic -/

/-- The arithmetic of one float lane: one function per operation of the transforms. -/
structure FloatArith (α : Type) where
  /-- `Add(a, b)`, and the scalar `a + b`. -/
  add : α → α → α
  /-- `Sub(a, b)`, and the scalar `a - b`. -/
  sub : α → α → α
  /-- `Mul(a, b)`, and the scalar `a * b`. -/
  mul : α → α → α
  /-- `MulAdd(m, x, a) = m * x + a`. -/
  mulAdd : α → α → α → α
  /-- `NegMulAdd(m, x, a) = a - m * x`. -/
  negMulAdd : α → α → α → α
  /-- The value a named literal denotes. -/
  lit : Const → α

/-- The lane operations of `DequantBlock` on top of the arithmetic. Masks are one `Bool` a lane. -/
structure LaneOps (α : Type) extends FloatArith α where
  /-- `Abs(a)`. -/
  abs : α → α
  /-- `Xor(a, b)`, on the bit patterns of the two floats. -/
  xor : α → α → α
  /-- `Gt(a, b)`, a mask lane. -/
  gt : α → α → Bool
  /-- `IfThenElseZero(mask, a)`. -/
  ifThenElseZero : Bool → α → α
  /-- `Zero(d)`. -/
  zero : α
  /-- `ConvertTo(df, ·)` of an `int32` lane (itself `PromoteTo` of the `int16` coefficient). -/
  convertTo : ℤ → α

/-! ## Scalar code -/

/-- A single float under the arithmetic `A`. The scalar code of the kernel is written with
`+`, `-` and `*` on these, so that it reads as the C it models. -/
def Scalar {α : Type} (_A : FloatArith α) : Type := α

section Scalar

variable {α : Type} {A : FloatArith α}

instance : Add (Scalar A) := ⟨A.add⟩
instance : Sub (Scalar A) := ⟨A.sub⟩
instance : Mul (Scalar A) := ⟨A.mul⟩

@[simp] theorem Scalar.add_def (a b : Scalar A) : a + b = A.add a b := rfl
@[simp] theorem Scalar.sub_def (a b : Scalar A) : a - b = A.sub a b := rfl
@[simp] theorem Scalar.mul_def (a b : Scalar A) : a * b = A.mul a b := rfl

end Scalar

/-- A named literal as a scalar. -/
def Scalar.lit {α : Type} (A : FloatArith α) (c : Const) : Scalar A := A.lit c

/-- `kC<N>[j]`, the table of `Compute1dIDCT` for size `N`, as scalars. -/
def kC {α : Type} (A : FloatArith α) (N j : ℕ) : Scalar A := A.lit (.kC N j)

/-! ## Maps between arithmetics -/

/-- A map between two arithmetics that commutes with every operation and literal: a
computation under `A`, mapped, is the same computation under `B`. -/
structure FloatArith.Hom {α β : Type} (A : FloatArith α) (B : FloatArith β) where
  toFun : α → β
  map_add : ∀ a b, toFun (A.add a b) = B.add (toFun a) (toFun b)
  map_sub : ∀ a b, toFun (A.sub a b) = B.sub (toFun a) (toFun b)
  map_mul : ∀ a b, toFun (A.mul a b) = B.mul (toFun a) (toFun b)
  map_mulAdd : ∀ m x a, toFun (A.mulAdd m x a) = B.mulAdd (toFun m) (toFun x) (toFun a)
  map_negMulAdd : ∀ m x a, toFun (A.negMulAdd m x a) = B.negMulAdd (toFun m) (toFun x) (toFun a)
  map_lit : ∀ c, toFun (A.lit c) = B.lit c

attribute [simp] FloatArith.Hom.map_add FloatArith.Hom.map_sub FloatArith.Hom.map_mul
  FloatArith.Hom.map_mulAdd FloatArith.Hom.map_negMulAdd FloatArith.Hom.map_lit

section Hom

variable {α β : Type} {A : FloatArith α} {B : FloatArith β} (f : A.Hom B)

@[simp] theorem FloatArith.Hom.map_scalar_add (a b : Scalar A) :
    f.toFun (a + b) = B.add (f.toFun a) (f.toFun b) := f.map_add a b

@[simp] theorem FloatArith.Hom.map_scalar_sub (a b : Scalar A) :
    f.toFun (a - b) = B.sub (f.toFun a) (f.toFun b) := f.map_sub a b

@[simp] theorem FloatArith.Hom.map_scalar_mul (a b : Scalar A) :
    f.toFun (a * b) = B.mul (f.toFun a) (f.toFun b) := f.map_mul a b

@[simp] theorem FloatArith.Hom.map_kC (N j : ℕ) : f.toFun (kC A N j) = kC B N j :=
  f.map_lit _

end Hom

/-! ## Targets -/

/-- A Highway target as the kernel sees it: `Lanes(d8)` of the capped descriptor
`HWY_CAPPED(float, 8)` and `Lanes(d)` of the full descriptor `HWY_FULL(float)`. Both are
powers of two; the capped one is at most 8 and the full one (at most 2048 bits) divides 64. -/
structure Target where
  lanes8 : ℕ
  lanes : ℕ
  lanes8_dvd : lanes8 ∣ 8
  lanes_dvd : lanes ∣ 64

namespace Target

/-- The one-lane (scalar) execution. -/
def scalar : Target := ⟨1, 1, Nat.one_dvd 8, Nat.one_dvd 64⟩

theorem lanes8_pos (T : Target) : 0 < T.lanes8 :=
  Nat.pos_of_dvd_of_pos T.lanes8_dvd (by decide)

theorem lanes8_le (T : Target) : T.lanes8 ≤ 8 :=
  Nat.le_of_dvd (by decide) T.lanes8_dvd

theorem lanes_pos (T : Target) : 0 < T.lanes :=
  Nat.pos_of_dvd_of_pos T.lanes_dvd (by decide)

end Target

end JpegliIdct
