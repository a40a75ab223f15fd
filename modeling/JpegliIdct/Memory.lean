import JpegliIdct.Arith

/-!
# Float buffers, pointers and vector loads and stores

The kernel works on `float*` buffers: the caller's scratch space and output plane, and the
local arrays of its functions. A `Ptr ρ` is a buffer of the index type `ρ` with an element
offset, and `Mem ρ α` gives every buffer an unbounded array of lane values, so that a read
never fails and the bounds the code keeps become statements about which cells it touches.

A Highway vector is the function from lane index to lane value; a descriptor with `L` lanes
uses lanes `< L`. `load` is `Load`/`LoadU` and `store L` is `Store`/`StoreU` (the model does
not distinguish aligned accesses).

Every store the kernel makes writes one row of a row-major block, so the effect of a whole
loop of stores is an `overwrite` of a set of cells of that block. The lemmas here say, once,
how a row store and two successive overwrites combine; the functions of the kernel are then
characterised as overwrites without any further address arithmetic.
-/

namespace JpegliIdct

variable {ρ α : Type}

/-! ## Pointers -/

/-- A `float*`: the buffer it points into and the element offset in that buffer. -/
structure Ptr (ρ : Type) where
  buf : ρ
  off : ℕ

/-- Pointer arithmetic `p + n`. -/
instance : HAdd (Ptr ρ) ℕ (Ptr ρ) := ⟨fun p n => ⟨p.buf, p.off + n⟩⟩

@[simp] theorem Ptr.add_buf (p : Ptr ρ) (n : ℕ) : (p + n).buf = p.buf := rfl

@[simp] theorem Ptr.add_off (p : Ptr ρ) (n : ℕ) : (p + n).off = p.off + n := rfl

theorem Ptr.add_add (p : Ptr ρ) (m n : ℕ) : p + m + n = p + (m + n) := by
  show (⟨p.buf, p.off + m + n⟩ : Ptr ρ) = ⟨p.buf, p.off + (m + n)⟩
  rw [Nat.add_assoc]

@[simp] theorem Ptr.add_zero (p : Ptr ρ) : p + 0 = p := rfl

/-- Float buffers: an unbounded array of lane values for each buffer. -/
abbrev Mem (ρ α : Type) := ρ → ℕ → α

/-! ## Loops -/

/-- The indices of `for (i = start; i < stop; i += step)`, for a positive `step`. -/
def forStep (start stop step : ℕ) : List ℕ :=
  List.range' start ((stop - start + step - 1) / step) step

/-- A loop from `0` whose step divides its bound runs `stop / step` times. -/
theorem forStep_zero_of_dvd {stop step : ℕ} (hpos : 0 < step) (hdvd : step ∣ stop) :
    forStep 0 stop step = List.range' 0 (stop / step) step := by
  obtain ⟨q, rfl⟩ := hdvd
  have : (step * q + step - 1) / step = q := by
    rw [Nat.add_sub_assoc hpos, Nat.mul_comm, Nat.add_comm, Nat.add_mul_div_right _ _ hpos,
      Nat.div_eq_of_lt (by omega), Nat.zero_add]
  simp only [forStep, Nat.sub_zero, this, Nat.mul_div_cancel_left _ hpos]

/-! ## Cells of a row-major block

Cell `(r, c)` of the block at `p` with row stride `s` is the element `p + (r * s + c)`, for
`c < s`. Distinct cells are distinct elements (`cell_le_cell`). -/

/-- A whole row of stride `s` lies below the start of any later row. -/
theorem cell_le_cell {a b i j s : ℕ} (hab : a < b) (hi : i ≤ s) : a * s + i ≤ b * s + j := by
  have : (a + 1) * s ≤ b * s := Nat.mul_le_mul_right s hab
  rw [Nat.add_mul, Nat.one_mul] at this
  omega

/-- A cell has one row and one column. -/
theorem cell_inj {r c y x s : ℕ} (hc : c < s) (hx : x < s) (h : r * s + c = y * s + x) :
    r = y ∧ c = x := by
  rcases Nat.lt_trichotomy r y with hr | rfl | hr
  · have := cell_le_cell (j := x) hr (show c + 1 ≤ s by omega)
    omega
  · omega
  · have := cell_le_cell (j := c) hr (show x + 1 ≤ s by omega)
    omega

/-- Every offset at or after `p` is a cell of the block at `p`, for a positive stride. -/
theorem exists_cell {s o : ℕ} (po : ℕ) (hs : 0 < s) (ho : po ≤ o) :
    ∃ r c, c < s ∧ o = po + (r * s + c) :=
  ⟨(o - po) / s, (o - po) % s, Nat.mod_lt _ hs, by
    have := Nat.div_add_mod (o - po) s
    rw [Nat.mul_comm] at this
    omega⟩

/-- The column `c` of the block at `p` with row stride `s`, as a function of the row. -/
def Mem.col (m : Mem ρ α) (p : Ptr ρ) (s c : ℕ) : ℕ → α := fun r => m p.buf (p.off + (r * s + c))

/-- `Load(d, p)` and `LoadU(d, p)`: the lanes read from `p, p + 1, …`. -/
def load (m : Mem ρ α) (p : Ptr ρ) : ℕ → α := fun i => m p.buf (p.off + i)

@[simp] theorem load_apply (m : Mem ρ α) (p : Ptr ρ) (i : ℕ) :
    load m p i = m p.buf (p.off + i) := rfl

/-- Column `c` of the block `d` rows further down. -/
theorem Mem.col_add_rows (m : Mem ρ α) (p : Ptr ρ) (s c d j : ℕ) :
    m.col (p + d * s) s c j = m.col p s c (d + j) := by
  simp only [Mem.col, Ptr.add_buf, Ptr.add_off, Nat.add_mul]
  congr 1
  omega

/-- Column `c` of the block `d` columns to the right. -/
theorem Mem.col_add_cols (m : Mem ρ α) (p : Ptr ρ) (s c d j : ℕ) :
    m.col (p + d) s c j = m.col p s (d + c) j := by
  simp only [Mem.col, Ptr.add_buf, Ptr.add_off]
  congr 1
  omega

/-- A vector load at the start of a block reads its first row. -/
theorem load_zero (m : Mem ρ α) (p : Ptr ρ) (s l : ℕ) : load m p l = m.col p s l 0 := by
  simp [load, Mem.col]

/-- A vector load of row `r` reads that row's cells. -/
theorem load_row (m : Mem ρ α) (p : Ptr ρ) (r s l : ℕ) : load m (p + r * s) l = m.col p s l r := by
  simp only [load, Mem.col, Ptr.add_buf, Ptr.add_off, Nat.add_assoc]

variable [DecidableEq ρ]

/-- To show two memories equal, compare them off the buffer of `p`, before `p`, and on every
cell of the block at `p`. -/
theorem Mem.ext_cell {m₁ m₂ : Mem ρ α} (p : Ptr ρ) {s : ℕ} (hs : 0 < s)
    (hne : ∀ b, b ≠ p.buf → ∀ o, m₁ b o = m₂ b o)
    (hlt : ∀ o, o < p.off → m₁ p.buf o = m₂ p.buf o)
    (hcell : ∀ r c, c < s → m₁ p.buf (p.off + (r * s + c)) = m₂ p.buf (p.off + (r * s + c))) :
    m₁ = m₂ := by
  funext b o
  by_cases hb : b = p.buf
  · subst hb
    by_cases ho : o < p.off
    · exact hlt o ho
    · obtain ⟨r, c, hc, rfl⟩ := exists_cell p.off hs (Nat.le_of_not_lt ho)
      exact hcell r c hc
  · exact hne b hb o

/-! ## Contiguous writes -/

/-- `m` with the `n` elements from `p` on replaced by `f 0, …, f (n - 1)`. -/
def Mem.fill (m : Mem ρ α) (p : Ptr ρ) (n : ℕ) (f : ℕ → α) : Mem ρ α :=
  fun b o => if b = p.buf ∧ p.off ≤ o ∧ o < p.off + n then f (o - p.off) else m b o

/-- `Store(v, d, p)` and `StoreU(v, d, p)` for a descriptor `d` with `L` lanes. -/
def store (L : ℕ) (v : ℕ → α) (m : Mem ρ α) (p : Ptr ρ) : Mem ρ α := m.fill p L v

/-- The scalar store `*p = v`. -/
def write (v : α) (m : Mem ρ α) (p : Ptr ρ) : Mem ρ α := store 1 (fun _ => v) m p

/-- The scalar stores `p[0] = vs[0], …, p[n - 1] = vs[n - 1]` of a list of `n` values. -/
def Mem.storeList (m : Mem ρ α) (p : Ptr ρ) (vs : List α) : Mem ρ α :=
  fun b o => if b = p.buf ∧ p.off ≤ o then vs.getD (o - p.off) (m b o) else m b o

theorem Mem.storeList_ne_buf' {m : Mem ρ α} {p : Ptr ρ} {vs : List α} {b : ρ} (hb : b ≠ p.buf)
    (o : ℕ) : m.storeList p vs b o = m b o := by
  simp [Mem.storeList, hb]

theorem Mem.fill_ne {m : Mem ρ α} {p : Ptr ρ} {n : ℕ} {f : ℕ → α} {b : ρ} (hb : b ≠ p.buf)
    (o : ℕ) : m.fill p n f b o = m b o := by
  simp [Mem.fill, hb]

/-- Two adjacent fills from one sequence are one fill. -/
theorem Mem.fill_fill (m : Mem ρ α) (p : Ptr ρ) (k n : ℕ) (f : ℕ → α) :
    (m.fill p k f).fill (p + k) n (fun i => f (k + i)) = m.fill p (k + n) f := by
  funext b o
  simp only [Mem.fill, Ptr.add_buf, Ptr.add_off]
  by_cases hb : b = p.buf
  · by_cases h₁ : p.off + k ≤ o ∧ o < p.off + k + n
    · rw [if_pos ⟨hb, h₁⟩, if_pos ⟨hb, by omega, by omega⟩]
      congr 1
      omega
    · rw [if_neg (fun h => h₁ h.2)]
      by_cases h₂ : p.off ≤ o ∧ o < p.off + k
      · rw [if_pos ⟨hb, h₂⟩, if_pos ⟨hb, h₂.1, by omega⟩]
      · rw [if_neg (fun h => h₂ h.2), if_neg (fun h => by omega)]
  · simp [hb]

/-! ## Block overwrites -/

/-- `m` with the cells `(r, c)` of the block at `p` (row stride `s`) that `sel` chooses
replaced by `v r c`. -/
def Mem.overwrite (m : Mem ρ α) (p : Ptr ρ) (s : ℕ) (sel : ℕ → ℕ → Bool)
    (v : ℕ → ℕ → α) : Mem ρ α :=
  fun b o =>
    if b = p.buf ∧ p.off ≤ o ∧ sel ((o - p.off) / s) ((o - p.off) % s) = true then
      v ((o - p.off) / s) ((o - p.off) % s)
    else m b o

section Overwrite

variable {m : Mem ρ α} {p : Ptr ρ} {s : ℕ} {sel : ℕ → ℕ → Bool} {v : ℕ → ℕ → α}

theorem Mem.overwrite_ne {b : ρ} (hb : b ≠ p.buf) (o : ℕ) : m.overwrite p s sel v b o = m b o := by
  simp [Mem.overwrite, hb]

theorem Mem.overwrite_lt {o : ℕ} (ho : o < p.off) (b : ρ) : m.overwrite p s sel v b o = m b o := by
  simp only [Mem.overwrite]
  rw [if_neg (fun h => by omega)]

theorem Mem.overwrite_cell {r c : ℕ} (hc : c < s) :
    m.overwrite p s sel v p.buf (p.off + (r * s + c)) =
      if sel r c then v r c else m p.buf (p.off + (r * s + c)) := by
  have hdm : (r * s + c) / s = r ∧ (r * s + c) % s = c :=
    (Nat.div_mod_unique (by omega)).2 ⟨by rw [Nat.mul_comm s r, Nat.add_comm], hc⟩
  simp only [Mem.overwrite, Nat.add_sub_cancel_left, hdm.1, hdm.2]
  by_cases h : sel r c <;> simp [h]

theorem Mem.overwrite_of_false (hsel : ∀ r c, sel r c = false) : m.overwrite p s sel v = m := by
  funext b o
  simp [Mem.overwrite, hsel]

/-- Column `c` of an overwritten block. -/
theorem Mem.col_overwrite {c : ℕ} (hc : c < s) (r : ℕ) :
    (m.overwrite p s sel v).col p s c r = if sel r c then v r c else m.col p s c r :=
  Mem.overwrite_cell hc

/-- The row store of `L` lanes at `p + (r * s + c₀)` touches exactly the cells `(r, c)` with
`c₀ ≤ c < c₀ + L`. -/
theorem Mem.fill_cell {f : ℕ → α} {r r' c c₀ L : ℕ} (hc : c < s) (hL : c₀ + L ≤ s) :
    m.fill (p + (r * s + c₀)) L f p.buf (p.off + (r' * s + c)) =
      if r' = r ∧ c₀ ≤ c ∧ c < c₀ + L then f (c - c₀) else m p.buf (p.off + (r' * s + c)) := by
  have key : (p.off + (r * s + c₀) ≤ p.off + (r' * s + c) ∧
      p.off + (r' * s + c) < p.off + (r * s + c₀) + L) ↔ (r' = r ∧ c₀ ≤ c ∧ c < c₀ + L) := by
    rcases lt_trichotomy r' r with h | rfl | h
    · have := cell_le_cell (s := s) (i := c + 1) (j := c₀) h (by omega)
      omega
    · omega
    · have := cell_le_cell (s := s) (i := c₀ + L) (j := c) h hL
      omega
  simp only [Mem.fill, Ptr.add_buf, Ptr.add_off, true_and, key]
  split_ifs with h
  · obtain ⟨rfl, -, -⟩ := h
    congr 1
    omega
  · rfl

/-- Overwrites that agree on the chosen cells, and on their values there, are equal. -/
theorem Mem.overwrite_congr (hs : 0 < s) {sel' : ℕ → ℕ → Bool} {v' : ℕ → ℕ → α}
    (hsel : ∀ r c, c < s → sel r c = sel' r c)
    (hv : ∀ r c, c < s → sel r c = true → v r c = v' r c) :
    m.overwrite p s sel v = m.overwrite p s sel' v' := by
  refine Mem.ext_cell p hs (fun b hb o => ?_) (fun o ho => ?_) (fun r c hc => ?_)
  · rw [Mem.overwrite_ne hb, Mem.overwrite_ne hb]
  · rw [Mem.overwrite_lt ho, Mem.overwrite_lt ho]
  · rw [Mem.overwrite_cell hc, Mem.overwrite_cell hc, ← hsel r c hc]
    split_ifs with h
    · exact hv r c hc h
    · rfl

/-- An overwrite leaves every element of its buffer that is not a chosen cell. -/
theorem Mem.overwrite_of_not_sel (hs : 0 < s) {o : ℕ}
    (ho : ∀ r c, c < s → sel r c = true → o ≠ p.off + (r * s + c)) :
    m.overwrite p s sel v p.buf o = m p.buf o := by
  by_cases hlt : o < p.off
  · exact Mem.overwrite_lt hlt _
  · obtain ⟨r, c, hc, rfl⟩ := exists_cell p.off hs (Nat.le_of_not_lt hlt)
    rw [Mem.overwrite_cell hc]
    cases h : sel r c
    · rfl
    · exact absurd rfl (ho r c hc h)

/-- A contiguous fill of `h` whole rows is the overwrite of those rows. -/
theorem Mem.fill_eq_overwrite (f : ℕ → α) (h : ℕ) (hs : 0 < s) :
    m.fill p (h * s) f = m.overwrite p s (fun r c => r < h && c < s) (fun r c => f (r * s + c)) := by
  refine Mem.ext_cell p hs (fun b hb o => ?_) (fun o ho => ?_) (fun r c hc => ?_)
  · rw [Mem.fill_ne hb, Mem.overwrite_ne hb]
  · rw [Mem.overwrite_lt ho]
    simp only [Mem.fill]
    rw [if_neg (fun h => by omega)]
  · rw [Mem.overwrite_cell hc]
    simp only [Mem.fill, true_and, Nat.le_add_right, Nat.add_sub_cancel_left, Bool.and_eq_true,
      decide_eq_true_eq, hc, and_true]
    by_cases hr : r < h
    · have : r * s + c < h * s := by
        have := cell_le_cell (s := s) (i := c + 1) (j := 0) hr (by omega)
        omega
      simp [hr, this]
    · have : ¬ r * s + c < h * s := by
        have := Nat.mul_le_mul_right s (Nat.le_of_not_lt hr)
        omega
      simp [hr, this]

/-- A row store is the overwrite of that row's cells. -/
theorem store_row (L : ℕ) (f : ℕ → α) (r c₀ : ℕ) (hs : 0 < s) (hL : c₀ + L ≤ s) :
    store L f m (p + (r * s + c₀)) =
      m.overwrite p s (fun r' c => r' == r && (c₀ ≤ c && c < c₀ + L)) (fun _ c => f (c - c₀)) := by
  refine Mem.ext_cell p hs (fun b hb o => ?_) (fun o ho => ?_) (fun r' c hc => ?_)
  · rw [store, Mem.fill_ne (by simpa using hb), Mem.overwrite_ne hb]
  · rw [store, Mem.overwrite_lt ho]
    simp only [Mem.fill, Ptr.add_buf, Ptr.add_off]
    rw [if_neg (fun h => by omega)]
  · rw [store, Mem.fill_cell hc hL, Mem.overwrite_cell hc]
    simp only [Bool.and_eq_true, beq_iff_eq, decide_eq_true_eq]

/-- `store_row` for a pointer given in another form. -/
theorem store_row_of_eq (L : ℕ) (f : ℕ → α) (r c₀ : ℕ) (hs : 0 < s) (hL : c₀ + L ≤ s)
    {q : Ptr ρ} (hq : q = p + (r * s + c₀)) :
    store L f m q =
      m.overwrite p s (fun r' c => r' == r && (c₀ ≤ c && c < c₀ + L)) (fun _ c => f (c - c₀)) := by
  rw [hq, store_row L f r c₀ hs hL]

/-- Storing a list of at most `s` values at the start of row `r` overwrites that row's first
cells. -/
theorem Mem.storeList_row (vs : List α) (r : ℕ) (hs : 0 < s) (hw : vs.length ≤ s) (d : α) :
    m.storeList (p + r * s) vs =
      m.overwrite p s (fun r' c => r' == r && c < vs.length) (fun _ c => vs.getD c d) := by
  refine Mem.ext_cell p hs (fun b hb o => ?_) (fun o ho => ?_) (fun r' c hc => ?_)
  · rw [Mem.storeList_ne_buf' (by simpa using hb), Mem.overwrite_ne hb]
  · rw [Mem.overwrite_lt ho]
    simp only [Mem.storeList, Ptr.add_buf, Ptr.add_off]
    rw [if_neg (fun h => by omega)]
  · rw [Mem.overwrite_cell hc]
    simp only [Mem.storeList, Ptr.add_buf, Ptr.add_off, true_and, Bool.and_eq_true, beq_iff_eq,
      decide_eq_true_eq]
    rcases lt_trichotomy r' r with h | rfl | h
    · have := cell_le_cell (s := s) (i := c + 1) (j := 0) h (by omega)
      rw [if_neg (by omega), if_neg (by omega)]
    · rw [if_pos (by omega), show p.off + (r' * s + c) - (p.off + r' * s) = c by omega]
      by_cases hc' : c < vs.length
      · simp [hc', List.getElem?_eq_getElem hc']
      · simp [hc', List.getElem?_eq_none (Nat.le_of_not_lt hc')]
    · have := cell_le_cell (s := s) (i := s) (j := c) h le_rfl
      rw [if_pos (by omega), if_neg (by omega)]
      simp [List.getElem?_eq_none (show vs.length ≤ p.off + (r' * s + c) - (p.off + r * s) by omega)]

/-- An overwrite of an overwritten block: the later one wins on the cells it chooses. -/
theorem Mem.overwrite_overwrite (hs : 0 < s) (sel' : ℕ → ℕ → Bool) (v' : ℕ → ℕ → α) :
    (m.overwrite p s sel v).overwrite p s sel' v' =
      m.overwrite p s (fun r c => sel r c || sel' r c)
        (fun r c => if sel' r c then v' r c else v r c) := by
  refine Mem.ext_cell p hs (fun b hb o => ?_) (fun o ho => ?_) (fun r c hc => ?_)
  · simp only [Mem.overwrite_ne hb]
  · simp only [Mem.overwrite_lt ho]
  · simp only [Mem.overwrite_cell hc]
    cases sel r c <;> cases sel' r c <;> rfl

/-- An overwrite of the block `d` rows further down is an overwrite of rows `≥ d` of the block. -/
theorem Mem.overwrite_add_rows (hs : 0 < s) (d : ℕ) :
    m.overwrite (p + d * s) s sel v =
      m.overwrite p s (fun r c => d ≤ r && sel (r - d) c) (fun r c => v (r - d) c) := by
  refine Mem.ext_cell p hs (fun b hb o => ?_) (fun o ho => ?_) (fun r c hc => ?_)
  · rw [Mem.overwrite_ne (by simpa using hb), Mem.overwrite_ne hb]
  · rw [Mem.overwrite_lt (by simp; omega), Mem.overwrite_lt ho]
  · rw [Mem.overwrite_cell hc]
    by_cases hr : d ≤ r
    · have h : m.overwrite (p + d * s) s sel v p.buf (p.off + d * s + ((r - d) * s + c)) =
          if sel (r - d) c then v (r - d) c
          else m p.buf (p.off + d * s + ((r - d) * s + c)) := Mem.overwrite_cell hc
      have ha : p.off + (r * s + c) = p.off + d * s + ((r - d) * s + c) := by
        rw [Nat.sub_mul]
        have : d * s ≤ r * s := Nat.mul_le_mul_right s hr
        omega
      simp only [ha, h, hr, decide_True, Bool.true_and]
    · have : r * s + c < d * s := by
        have := cell_le_cell (s := s) (a := r) (b := d) (i := c + 1) (j := 0) (by omega)
          (by omega)
        omega
      rw [Mem.overwrite_lt (by simp; omega)]
      simp [hr]

/-- An overwrite of the block `d` columns to the right, within the row stride, is an overwrite
of columns `≥ d` of the block. -/
theorem Mem.overwrite_add_cols {d : ℕ} (hd : d < s) (hsel : ∀ r c, sel r c = true → c + d < s) :
    m.overwrite (p + d) s sel v =
      m.overwrite p s (fun r c => d ≤ c && sel r (c - d)) (fun r c => v r (c - d)) := by
  refine Mem.ext_cell p (s := s) (by omega) (fun b hb o => ?_) (fun o ho => ?_) (fun r c hc => ?_)
  · rw [Mem.overwrite_ne (by simpa using hb), Mem.overwrite_ne hb]
  · rw [Mem.overwrite_lt (by simp; omega), Mem.overwrite_lt ho]
  · rw [Mem.overwrite_cell hc]
    by_cases hdc : d ≤ c
    · have h : m.overwrite (p + d) s sel v p.buf (p.off + d + (r * s + (c - d))) =
          if sel r (c - d) then v r (c - d) else m p.buf (p.off + d + (r * s + (c - d))) :=
        Mem.overwrite_cell (by omega)
      rw [show p.off + (r * s + c) = p.off + d + (r * s + (c - d)) by omega, h]
      simp [hdc]
    · simp only [show decide (d ≤ c) = false from decide_eq_false hdc, Bool.false_and]
      rcases r with _ | r
      · rw [Mem.overwrite_lt (by simp; omega)]
        rfl
      · have h : m.overwrite (p + d) s sel v p.buf (p.off + d + (r * s + (s + c - d))) =
            if sel r (s + c - d) then v r (s + c - d)
            else m p.buf (p.off + d + (r * s + (s + c - d))) :=
          Mem.overwrite_cell (by omega)
        have ha : p.off + ((r + 1) * s + c) = p.off + d + (r * s + (s + c - d)) := by
          rw [Nat.succ_mul]
          omega
        have hns : sel r (s + c - d) = false := by
          by_contra hc'
          have := hsel r _ (by simpa using hc')
          omega
        rw [ha, h, hns]
        rfl

/-- The `n × w` blocks at `p` (row stride `s`) and at `q` (row stride `t`) share no element. -/
def Apart (p : Ptr ρ) (s : ℕ) (q : Ptr ρ) (t n w : ℕ) : Prop :=
  ∀ r < n, ∀ c < w, ∀ r' < n, ∀ c' < w,
    p.buf ≠ q.buf ∨ p.off + (r * s + c) ≠ q.off + (r' * t + c')

/-- An overwrite inside the block at `q` leaves a block apart from it unchanged. -/
theorem Mem.col_overwrite_apart {q : Ptr ρ} {t n w : ℕ} (h : Apart q t p s n w)
    (hsel : ∀ r c, sel r c = true → r < n ∧ c < w) {r c : ℕ} (hr : r < n) (hc : c < w) :
    (m.overwrite p s sel v).col q t c r = m.col q t c r := by
  simp only [Mem.col]
  by_cases hb : q.buf = p.buf
  · by_cases ho : q.off + (r * t + c) < p.off
    · exact Mem.overwrite_lt ho _
    · by_cases hs : 0 < s
      · obtain ⟨r', c', hc', he⟩ := exists_cell p.off hs (Nat.le_of_not_lt ho)
        rw [hb, he, Mem.overwrite_cell hc']
        split_ifs with hs'
        · obtain ⟨hr', hw'⟩ := hsel r' c' hs'
          rcases h r hr c hc r' hr' c' hw' with h' | h'
          · exact absurd hb h'
          · exact absurd he h'
        · rfl
      · simp only [Mem.overwrite, Nat.le_zero.mp (Nat.le_of_not_lt hs), Nat.div_zero,
          Nat.mod_zero]
        split_ifs with h'
        · obtain ⟨-, -, h''⟩ := h'
          obtain ⟨hr', hw'⟩ := hsel _ _ h''
          rcases h r hr c hc 0 hr' (q.off + (r * t + c) - p.off) hw' with h₁ | h₁
          · exact absurd hb h₁
          · omega
        · rfl
  · exact Mem.overwrite_ne hb _

/-- A loop that stores row `i` of a block with a vector fixed in advance, for each `i` of a
list, is one overwrite of those rows. -/
theorem foldl_store_rows (L : ℕ) (hs : 0 < s) (hL : L ≤ s) (val : ℕ → ℕ → α) (l : List ℕ) :
    l.foldl (fun m i => store L (val i) m (p + i * s)) m =
      m.overwrite p s (fun r c => decide (r ∈ l) && c < L) val := by
  induction l generalizing m with
  | nil => exact (Mem.overwrite_of_false (fun _ _ => by simp)).symm
  | cons i l ih =>
    rw [List.foldl_cons, ih, ← Nat.add_zero (i * s), store_row L _ i 0 hs (by omega),
      Mem.overwrite_overwrite hs]
    refine Mem.overwrite_congr hs (fun r c _ => ?_) (fun r c _ h => ?_)
    · simp only [List.mem_cons, Nat.zero_le, decide_True, Nat.zero_add, Bool.true_and]
      by_cases hr : r = i <;> simp [hr]
    · by_cases hr : decide (r ∈ l) && decide (c < L) <;> simp_all

/-- A scalar store `*p = v` at cell `(r, c)` is the overwrite of that cell. -/
theorem write_cell (v : α) {r c : ℕ} (hc : c < s) :
    write v m (p + (r * s + c)) =
      m.overwrite p s (fun r' c' => r' == r && c' == c) (fun _ _ => v) := by
  rw [write, store_row 1 _ r c (by omega) (by omega)]
  refine Mem.overwrite_congr (by omega) (fun r' c' _ => ?_) (fun _ _ _ _ => rfl)
  rw [Bool.eq_iff_iff]
  simp only [Bool.and_eq_true, beq_iff_eq, decide_eq_true_eq]
  omega

/-- A loop of scalar stores down column `c`, one for each row of a list. -/
theorem foldl_write_col (val : ℕ → α) {c : ℕ} (hc : c < s) (l : List ℕ) :
    l.foldl (fun m r => write (val r) m (p + (r * s + c))) m =
      m.overwrite p s (fun r c' => decide (r ∈ l) && c' == c) (fun r _ => val r) := by
  induction l generalizing m with
  | nil => exact (Mem.overwrite_of_false (fun _ _ => by simp)).symm
  | cons i l ih =>
    rw [List.foldl_cons, ih, write_cell _ hc, Mem.overwrite_overwrite (by omega)]
    refine Mem.overwrite_congr (by omega) (fun r c' _ => ?_) (fun r c' _ h => ?_)
    · by_cases hr : r = i <;> simp [hr]
    · by_cases hr : decide (r ∈ l) && c' == c <;> simp_all

/-- A loop of scalar stores along row `r`, over the columns `c < w`. -/
theorem foldl_write_row (val : ℕ → α) (r : ℕ) {w : ℕ} (hw : w ≤ s) :
    (List.range w).foldl (fun m c => write (val c) m (p + (r * s + c))) m =
      m.overwrite p s (fun r' c => r' == r && c < w) (fun _ c => val c) := by
  induction w generalizing m with
  | zero => exact (Mem.overwrite_of_false (fun _ _ => by simp)).symm
  | succ w ih =>
    rw [List.range_succ, List.foldl_append, ih (by omega), List.foldl_cons, List.foldl_nil,
      write_cell _ (by omega), Mem.overwrite_overwrite (by omega)]
    refine Mem.overwrite_congr (by omega) (fun r' c _ => ?_) (fun r' c _ _ => ?_)
    · rw [Bool.eq_iff_iff]
      simp only [Bool.or_eq_true, Bool.and_eq_true, decide_eq_true_eq, beq_iff_eq]
      omega
    · by_cases hc : c = w <;> simp [hc]

/-- Nested loops of scalar stores over the `h × w` cells of a block, with values fixed in
advance. -/
theorem foldl_write_block (val : ℕ → ℕ → α) {h w : ℕ} (hs : 0 < s) (hw : w ≤ s) :
    (List.range h).foldl (fun m r => (List.range w).foldl
        (fun m c => write (val r c) m (p + (r * s + c))) m) m =
      m.overwrite p s (fun r c => r < h && c < w) val := by
  induction h generalizing m with
  | zero => exact (Mem.overwrite_of_false (fun _ _ => by simp)).symm
  | succ h ih =>
    rw [List.range_succ, List.foldl_append, ih, List.foldl_cons, List.foldl_nil,
      foldl_write_row _ _ hw, Mem.overwrite_overwrite hs]
    refine Mem.overwrite_congr hs (fun r c _ => ?_) (fun r c _ _ => ?_)
    · rw [Bool.eq_iff_iff]
      simp only [Bool.or_eq_true, Bool.and_eq_true, decide_eq_true_eq, beq_iff_eq]
      omega
    · by_cases hr : r = h <;> simp [hr]

end Overwrite

/-! ## Frames

Code that stores only to one buffer leaves every other buffer as it was, so a loop whose
values read only such a buffer computes them from the memory it started with. -/

section Frame

variable {β : Type} {b : ρ}

theorem write_ne_buf (v : α) (m : Mem ρ α) {p : Ptr ρ} (hb : b ≠ p.buf) : write v m p b = m b := by
  funext o
  simp [write, store, Mem.fill_ne hb]

omit [DecidableEq ρ] in
/-- A loop whose every step leaves buffer `b` as it was leaves it as it was. -/
theorem foldl_frame (step : Mem ρ α → β → Mem ρ α) (hstep : ∀ m i, step m i b = m b) :
    ∀ (l : List β) (m : Mem ρ α), l.foldl step m b = m b
  | [], _ => rfl
  | i :: l, m => by rw [List.foldl_cons, foldl_frame step hstep l, hstep]

omit [DecidableEq ρ] in
/-- Two loops agree if their steps agree while buffer `b` holds its initial contents, and the
first leaves `b` as it was. -/
theorem foldl_congr_frame {m₀ : Mem ρ α} (step step' : Mem ρ α → β → Mem ρ α)
    (hstep : ∀ m i, step m i b = m b) (heq : ∀ m i, m b = m₀ b → step m i = step' m i) :
    ∀ (l : List β) (m : Mem ρ α), m b = m₀ b → l.foldl step m = l.foldl step' m
  | [], _, _ => rfl
  | i :: l, m, hm => by
    rw [List.foldl_cons, List.foldl_cons, ← heq m i hm,
      foldl_congr_frame step step' hstep heq l _ (by rw [hstep, hm])]

/-- Nested loops of scalar stores over the `h × w` cells of a block at `p`, whose values read
only a buffer `b` other than the block's. -/
theorem foldl_write_block_frame {p : Ptr ρ} {s h w : ℕ} (hb : b ≠ p.buf) (hs : 0 < s) (hw : w ≤ s)
    (val : Mem ρ α → ℕ → ℕ → α) (hval : ∀ m₁ m₂ : Mem ρ α, m₁ b = m₂ b → val m₁ = val m₂)
    (m : Mem ρ α) :
    (List.range h).foldl (fun m r => (List.range w).foldl
        (fun m c => write (val m r c) m (p + (r * s + c))) m) m =
      m.overwrite p s (fun r c => r < h && c < w) (val m) := by
  have hw' : ∀ (m' : Mem ρ α) (r : ℕ), (List.range w).foldl
      (fun m c => write (val m r c) m (p + (r * s + c))) m' b = m' b :=
    fun m' r => foldl_frame _ (fun m c => write_ne_buf _ _ (by simpa using hb)) _ m'
  rw [← foldl_write_block (val m) hs hw]
  refine foldl_congr_frame _ _ hw' (fun m' r hm => ?_) _ m rfl
  exact foldl_congr_frame _ _ (fun _ _ => write_ne_buf _ _ (by simpa using hb))
    (fun m'' c hm'' => by rw [hval m'' m hm'']) _ m' hm

end Frame

/-! ## Footprints

What a call may change, as a region of `(buffer, offset)` pairs: `m'` agrees with `m` outside
the region. A run's footprint is built one step at a time, from the empty run, by the lemmas
that extend it by a fill or an overwrite whose cells lie in the region. -/

section Footprint

/-- The `n` elements from `p` on. -/
def Ptr.span (p : Ptr ρ) (n : ℕ) (b : ρ) (o : ℕ) : Prop := b = p.buf ∧ p.off ≤ o ∧ o < p.off + n

/-- `m'` agrees with `m` outside the region `w`: the run from `m` to `m'` wrote only in `w`. -/
def Mem.AgreeOutside (w : ρ → ℕ → Prop) (m m' : Mem ρ α) : Prop :=
  ∀ b o, ¬ w b o → m' b o = m b o

variable {w w' : ρ → ℕ → Prop} {m M : Mem ρ α}

omit [DecidableEq ρ] in
theorem Mem.AgreeOutside.refl : Mem.AgreeOutside w m m := fun _ _ _ => rfl

omit [DecidableEq ρ] in
theorem Mem.AgreeOutside.mono (h : Mem.AgreeOutside w m M) (hw : ∀ b o, w b o → w' b o) :
    Mem.AgreeOutside w' m M :=
  fun b o h' => h b o (fun hb => h' (hw b o hb))

omit [DecidableEq ρ] in
/-- Outside the region's buffers a run leaves whole buffers as they were. -/
theorem Mem.AgreeOutside.apply_eq (h : Mem.AgreeOutside w m M) {b : ρ} (hb : ∀ o, ¬ w b o) :
    M b = m b :=
  funext fun o => h b o (hb o)

omit [DecidableEq ρ] in
/-- An 8 × 8 block of stride 8, `d` elements into the `n` from `q`. -/
theorem Ptr.span_block8 (q : Ptr ρ) {n : ℕ} (d : ℕ) (hd : d + 64 ≤ n) :
    ∀ r c, c < 8 → (r < 8 && c < 8) = true → q.span n (q + d).buf ((q + d).off + (r * 8 + c)) :=
  fun r c _ h => by
    simp only [Bool.and_eq_true, decide_eq_true_eq] at h
    exact ⟨rfl, by simp only [Ptr.add_off]; omega, by simp only [Ptr.add_off]; omega⟩

/-- A run followed by a fill inside the region. -/
theorem Mem.AgreeOutside.fill (h : Mem.AgreeOutside w m M) {p : Ptr ρ} {n : ℕ} (f : ℕ → α)
    (hw : ∀ o, p.off ≤ o → o < p.off + n → w p.buf o) : Mem.AgreeOutside w m (M.fill p n f) :=
  fun b o h' => by
    rw [Mem.fill, if_neg (fun ⟨hb, h₁, h₂⟩ => h' (hb ▸ hw o h₁ h₂))]
    exact h b o h'

/-- A run followed by an overwrite whose chosen cells lie inside the region. -/
theorem Mem.AgreeOutside.overwrite (h : Mem.AgreeOutside w m M) {p : Ptr ρ} {s : ℕ}
    {sel : ℕ → ℕ → Bool} (v : ℕ → ℕ → α) (hs : 0 < s)
    (hw : ∀ r c, c < s → sel r c = true → w p.buf (p.off + (r * s + c))) :
    Mem.AgreeOutside w m (M.overwrite p s sel v) := fun b o h' => by
  by_cases hb : b = p.buf
  · subst hb
    rw [Mem.overwrite_of_not_sel hs (fun r c hc hsel ho => h' (by rw [ho]; exact hw r c hc hsel))]
    exact h _ o h'
  · rw [Mem.overwrite_ne hb]
    exact h b o h'

/-- An overwrite reads, off its chosen cells, only the buffer it writes to. -/
theorem Mem.overwrite_apply_congr {M₁ M₂ : Mem ρ α} {p : Ptr ρ} {s : ℕ} {sel : ℕ → ℕ → Bool}
    {v : ℕ → ℕ → α} {b : ρ} (h : M₁ b = M₂ b) :
    M₁.overwrite p s sel v b = M₂.overwrite p s sel v b := by
  funext o
  simp only [Mem.overwrite, h]

/-- Two overwrites of the same cells agree at an element if their values agree on the chosen
cells and the memories they overwrite agree there unless it is a chosen cell. -/
theorem Mem.overwrite_agree {M₁ M₂ : Mem ρ α} {p : Ptr ρ} {s : ℕ} {sel : ℕ → ℕ → Bool}
    {v₁ v₂ : ℕ → ℕ → α} (hs : 0 < s) {b : ρ} {o : ℕ}
    (hv : ∀ r c, c < s → sel r c = true → v₁ r c = v₂ r c)
    (hM : (b = p.buf → ∀ r c, c < s → sel r c = true → o ≠ p.off + (r * s + c)) →
      M₁ b o = M₂ b o) :
    M₁.overwrite p s sel v₁ b o = M₂.overwrite p s sel v₂ b o := by
  by_cases hb : b = p.buf
  · subst hb
    by_cases hlt : o < p.off
    · rw [Mem.overwrite_lt hlt, Mem.overwrite_lt hlt]
      exact hM (fun _ r c _ _ h => by omega)
    · obtain ⟨r, c, hc, rfl⟩ := exists_cell p.off hs (Nat.le_of_not_lt hlt)
      rw [Mem.overwrite_cell hc, Mem.overwrite_cell hc]
      cases hsel : sel r c
      · -- another chosen cell at the same element would be the same cell
        refine hM (fun _ r' c' hc' hsel' h => ?_)
        obtain ⟨rfl, rfl⟩ := cell_inj (r := r) (y := r') hc hc' (by omega)
        exact absurd hsel' (by simp [hsel])
      · exact hv r c hc hsel
  · rw [Mem.overwrite_ne hb, Mem.overwrite_ne hb]
    exact hM (fun h => absurd h hb)

end Footprint

end JpegliIdct