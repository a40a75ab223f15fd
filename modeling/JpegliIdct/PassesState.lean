import Mathlib.Data.List.Infix

/-!
# The shared state of the passes

`InitializePassesSharedState` (`lib/jxl/passes_state.cc`) prepares the state the passes of a
frame share: it creates the per-block images, the colour correlation map and the quantised DC,
grows the encoder's coefficient orders, and points `dc` at the DC image the frame will use:
a DC frame decoded before, when the frame's header sets `kUseDcFrame` in the decoder, and
otherwise a freshly created `dc_storage`.

The images and what the function does with them (`T::Create`, the empty `Image3F()`,
`xsize()`, `ZeroFillImage`) are declared outside the file; the model takes them as the
parameter `ImageOps`. Each `Create` call is asked separately whether it succeeds, as an
allocation may fail at any call. `JXL_ASSERT` and a read outside `dc_frames` are the results
`none`: the program stops, or its behaviour is undefined. A `Status` is read as a `Bool`.

* **When it fails** (`initializePassesSharedState_status`). For a header with its metadata and a
  DC level of at most 4, with the four `dc_frames`, the function returns, and it returns `true`
  exactly when every `Create` it calls succeeds and, where it uses a DC frame, the level is not
  4 and the frame at that level was decoded.
* **Where `dc` points** (`initializePassesSharedState_dc`). After a successful call `dc` points
  at a decoded DC frame or at the `dc_storage` just created, never at an empty frame.
* **The coefficient orders** (`initializePassesSharedState_coeffOrders`). A successful call only
  appends zero orders; in the encoder for a VarDCT frame it leaves room for every pass, and in
  the decoder it leaves them as they are.
-/

namespace JpegliIdct

/-- The fields of `FrameDimensions` the function reads. -/
structure FrameDimensions where
  xsize : ℕ
  ysize : ℕ
  xsizeBlocks : ℕ
  ysizeBlocks : ℕ
  deriving DecidableEq, Repr

inductive FrameEncoding | kVarDCT | kModular
  deriving DecidableEq, Repr

/-- The fields of `FrameHeader` the function reads, over a type `μ` of image metadata;
`frameDim` is what `ToFrameDimensions()` computes from the others. -/
structure FrameHeader (μ : Type) where
  nonserializedMetadata : Option μ
  frameDim : FrameDimensions
  numPasses : ℕ
  encoding : FrameEncoding
  flags : ℕ
  dcLevel : ℕ

/-- The images of the shared state the function creates, one per `Create` call. -/
inductive SharedImage | acStrategy | rawQuantField | epfSharpness | cmap | quantDc | dcStorage
  deriving DecidableEq, Repr

/-- What the function does with images of a type `I`: the `Create(xsize, ysize)` that fills a
field of the shared state, `none` where it fails; the empty `Image3F()`; `xsize()`; and
`ZeroFillImage`. -/
structure ImageOps (I : Type) where
  create : SharedImage → ℕ → ℕ → Option I
  empty : I
  xsize : I → ℕ
  zeroFill : I → I

/-- Where `shared->dc` points: at `dc_storage`, or at `dc_frames[level]`. -/
inductive DcRef | dcStorage | dcFrame (level : ℕ)
  deriving DecidableEq, Repr

/-- The fields of `PassesSharedState` the function reads or writes; `dc` is `none` while it is
null. -/
structure PassesSharedState (μ I : Type) where
  metadata : Option μ
  frameDim : FrameDimensions
  acStrategy : I
  rawQuantField : I
  epfSharpness : I
  cmap : I
  coeffOrderSize : ℕ
  coeffOrders : List ℕ
  quantDc : I
  dcStorage : I
  dcFrames : List I
  dc : Option DcRef

/-- `std::vector::resize`: keep the first `n` elements, or append zeros up to `n`. -/
def resize (l : List ℕ) (n : ℕ) : List ℕ := l.take n ++ List.replicate (n - l.length) 0

/-- `JXL_ASSIGN_OR_RETURN(field, Create(...))`: where the creation fails, return a failing status
with the state as it is; otherwise store the image with `set` and go on with `k`. -/
def assignOrReturn {I σ : Type} (r : Option I) (shared : σ) (set : σ → I → σ)
    (k : σ → Option (σ × Bool)) : Option (σ × Bool) :=
  match r with
  | none => some (shared, false)
  | some x => k (set shared x)

@[simp]
theorem assignOrReturn_none {I σ : Type} (shared : σ) (set : σ → I → σ)
    (k : σ → Option (σ × Bool)) : assignOrReturn none shared set k = some (shared, false) := rfl

@[simp]
theorem assignOrReturn_some {I σ : Type} (x : I) (shared : σ) (set : σ → I → σ)
    (k : σ → Option (σ × Bool)) : assignOrReturn (some x) shared set k = k (set shared x) := rfl

section AssignOrReturn

variable {I σ : Type} {r : Option I} {shared : σ} {set : σ → I → σ} {k : σ → Option (σ × Bool)}

/-- Past a `JXL_ASSIGN_OR_RETURN`, a function that returns `true` created the image and went
on. -/
theorem assignOrReturn_eq_true {out : σ} (h : assignOrReturn r shared set k = some (out, true)) :
    ∃ x, r = some x ∧ k (set shared x) = some (out, true) := by
  cases r with
  | none => cases h
  | some x => exact ⟨x, rfl, h⟩

/-- The status through a `JXL_ASSIGN_OR_RETURN`: `true` exactly when the creation succeeds and
the rest of the function returns `true`. -/
theorem assignOrReturn_status {Q : Prop}
    (hk : ∀ x, ∃ out, k (set shared x) = some out ∧ (out.2 = true ↔ Q)) :
    ∃ out, assignOrReturn r shared set k = some out ∧ (out.2 = true ↔ r.isSome ∧ Q) := by
  cases r with
  | none => exact ⟨_, rfl, by simp⟩
  | some x => simpa using hk x

end AssignOrReturn

section Init

variable {μ I : Type} (A : ImageOps I) (kCoeffOrderMaxSize kUseDcFrame : ℕ)

/-- The coefficient orders after the encoder's `resize` of `coeff_orders`. -/
def coeffOrdersAfter (F : FrameHeader μ) (encoder : Bool) (orders : List ℕ) : List ℕ :=
  if encoder && decide (orders.length < F.numPasses * kCoeffOrderMaxSize) &&
      F.encoding == .kVarDCT then
    resize orders (F.numPasses * kCoeffOrderMaxSize)
  else orders

/-- The encoder's `resize` only appends zero orders, up to room for every pass of a VarDCT
frame. -/
theorem coeffOrdersAfter_eq (F : FrameHeader μ) (encoder : Bool) (orders : List ℕ) :
    coeffOrdersAfter kCoeffOrderMaxSize F encoder orders = orders ++ List.replicate
      (if encoder && F.encoding == .kVarDCT then F.numPasses * kCoeffOrderMaxSize - orders.length
        else 0) 0 := by
  unfold coeffOrdersAfter resize
  by_cases hlt : orders.length < F.numPasses * kCoeffOrderMaxSize
  · cases encoder <;> cases F.encoding <;> simp [hlt, List.take_of_length_le hlt.le]
  · cases encoder <;> cases F.encoding <;> simp [hlt, Nat.sub_eq_zero_of_le (not_lt.1 hlt)]

/-- `InitializePassesSharedState(frame_header, shared, encoder)`, with the constants
`kCoeffOrderMaxSize` and `FrameHeader::kUseDcFrame`: the shared state after the call and the
status, or `none` where `JXL_ASSERT` stops the program or `dc_frames` is read out of range. -/
def initializePassesSharedState (F : FrameHeader μ) (shared : PassesSharedState μ I)
    (encoder : Bool) : Option (PassesSharedState μ I × Bool) :=
  F.nonserializedMetadata.bind fun md =>
  let shared := { shared with metadata := some md, frameDim := F.frameDim }
  let d := shared.frameDim
  assignOrReturn (A.create .acStrategy d.xsizeBlocks d.ysizeBlocks) shared
    (fun s x => { s with acStrategy := x }) fun shared =>
  assignOrReturn (A.create .rawQuantField d.xsizeBlocks d.ysizeBlocks) shared
    (fun s x => { s with rawQuantField := x }) fun shared =>
  assignOrReturn (A.create .epfSharpness d.xsizeBlocks d.ysizeBlocks) shared
    (fun s x => { s with epfSharpness := x }) fun shared =>
  assignOrReturn (A.create .cmap d.xsize d.ysize) shared
    (fun s x => { s with cmap := x }) fun shared =>
  let shared := { shared with
    coeffOrderSize := kCoeffOrderMaxSize,
    coeffOrders := coeffOrdersAfter kCoeffOrderMaxSize F encoder shared.coeffOrders }
  assignOrReturn (A.create .quantDc d.xsizeBlocks d.ysizeBlocks) shared
    (fun s x => { s with quantDc := x }) fun shared =>
  let useDcFrame := F.flags &&& kUseDcFrame != 0
  if !encoder && useDcFrame then
    if F.dcLevel = 4 then some (shared, false)
    else
      let shared := { shared with dcStorage := A.empty, dc := some (.dcFrame F.dcLevel) }
      match shared.dcFrames[F.dcLevel]? with
      | none => none
      | some frame =>
        if A.xsize frame = 0 then some (shared, false)
        else some ({ shared with quantDc := A.zeroFill shared.quantDc }, true)
  else
    assignOrReturn (A.create .dcStorage d.xsizeBlocks d.ysizeBlocks) shared
      (fun s x => { s with dcStorage := x }) fun shared =>
    some ({ shared with dc := some .dcStorage }, true)

/-! ## A successful call -/

variable {A kCoeffOrderMaxSize kUseDcFrame} {F : FrameHeader μ} {shared : PassesSharedState μ I}
  {encoder : Bool}

/-- What a call that returns `true` leaves: the coefficient orders are `coeffOrdersAfter`, and
`dc` points at a decoded DC frame of the untouched `dc_frames`, with `quant_dc` zero-filled, or at
the new `dc_storage`. -/
theorem initializePassesSharedState_eq_true {s' : PassesSharedState μ I}
    (h : initializePassesSharedState A kCoeffOrderMaxSize kUseDcFrame F shared encoder =
      some (s', true)) :
    s'.coeffOrders = coeffOrdersAfter kCoeffOrderMaxSize F encoder shared.coeffOrders ∧
      ∃ qd, A.create .quantDc F.frameDim.xsizeBlocks F.frameDim.ysizeBlocks = some qd ∧
        ((!encoder && F.flags &&& kUseDcFrame != 0) = true ∧ F.dcLevel ≠ 4 ∧
            (∃ frame, shared.dcFrames[F.dcLevel]? = some frame ∧ A.xsize frame ≠ 0) ∧
            s'.dc = some (.dcFrame F.dcLevel) ∧ s'.dcFrames = shared.dcFrames ∧
            s'.quantDc = A.zeroFill qd ∨
          (!encoder && F.flags &&& kUseDcFrame != 0) = false ∧
            A.create .dcStorage F.frameDim.xsizeBlocks F.frameDim.ysizeBlocks = some s'.dcStorage ∧
            s'.dc = some .dcStorage) := by
  simp only [initializePassesSharedState, Option.bind_eq_some] at h
  obtain ⟨md, -, h⟩ := h
  iterate 4 obtain ⟨_, -, h⟩ := assignOrReturn_eq_true h
  obtain ⟨qd, h5, h⟩ := assignOrReturn_eq_true h
  dsimp only at h
  split_ifs at h with hdc hl
  · cases h
  · split at h
    · cases h
    · rename_i frame hfr
      split_ifs at h with hx
      · cases h
      · cases h
        exact ⟨rfl, qd, h5, .inl ⟨hdc, hl, ⟨frame, hfr, hx⟩, rfl, rfl, rfl⟩⟩
  · obtain ⟨_, h6, h⟩ := assignOrReturn_eq_true h
    cases h
    exact ⟨rfl, qd, h5, .inr ⟨eq_false_of_ne_true hdc, h6, rfl⟩⟩

/-- **Where `dc` points after a successful call.** In the decoder for a frame with
`kUseDcFrame`, at the DC frame of the frame's level in `dc_frames`, which was decoded (its
`xsize()` is not 0), with `quant_dc` zero-filled; otherwise at the `dc_storage` just created. -/
theorem initializePassesSharedState_dc (A : ImageOps I) (kCoeffOrderMaxSize kUseDcFrame : ℕ)
    (F : FrameHeader μ) (shared : PassesSharedState μ I) (encoder : Bool)
    {s' : PassesSharedState μ I}
    (h : initializePassesSharedState A kCoeffOrderMaxSize kUseDcFrame F shared encoder =
      some (s', true)) :
    (!encoder && F.flags &&& kUseDcFrame != 0) = true ∧
        (∃ frame, s'.dc = some (.dcFrame F.dcLevel) ∧ s'.dcFrames[F.dcLevel]? = some frame ∧
          A.xsize frame ≠ 0) ∧
        (∃ qd, A.create .quantDc F.frameDim.xsizeBlocks F.frameDim.ysizeBlocks = some qd ∧
          s'.quantDc = A.zeroFill qd) ∨
      (!encoder && F.flags &&& kUseDcFrame != 0) = false ∧ s'.dc = some .dcStorage ∧
        A.create .dcStorage F.frameDim.xsizeBlocks F.frameDim.ysizeBlocks = some s'.dcStorage := by
  obtain ⟨-, qd, hqd, hdc⟩ := initializePassesSharedState_eq_true h
  rcases hdc with ⟨hu, -, ⟨frame, hfr, hx⟩, hd, hfs, hq⟩ | ⟨hu, hs, hd⟩
  · exact .inl ⟨hu, ⟨frame, hd, hfs ▸ hfr, hx⟩, qd, hqd, hq⟩
  · exact .inr ⟨hu, hd, hs⟩

/-- **A successful call only appends zero coefficient orders.** In the encoder for a VarDCT frame
there is then room for the orders of every pass; in the decoder the orders are as they were. -/
theorem initializePassesSharedState_coeffOrders (A : ImageOps I)
    (kCoeffOrderMaxSize kUseDcFrame : ℕ) (F : FrameHeader μ) (shared : PassesSharedState μ I)
    (encoder : Bool) {s' : PassesSharedState μ I}
    (h : initializePassesSharedState A kCoeffOrderMaxSize kUseDcFrame F shared encoder =
      some (s', true)) :
    shared.coeffOrders <+: s'.coeffOrders ∧
      (∀ o ∈ s'.coeffOrders.drop shared.coeffOrders.length, o = 0) ∧
      (encoder = true → F.encoding = .kVarDCT →
        F.numPasses * kCoeffOrderMaxSize ≤ s'.coeffOrders.length) ∧
      (encoder = false → s'.coeffOrders = shared.coeffOrders) := by
  obtain ⟨hco, -⟩ := initializePassesSharedState_eq_true h
  rw [hco, coeffOrdersAfter_eq]
  refine ⟨List.prefix_append _ _, fun o ho => ?_, fun he hv => ?_, fun he => by simp [he]⟩
  · rw [List.drop_left] at ho
    exact List.eq_of_mem_replicate ho
  · simp only [he, hv, Bool.true_and, beq_self_eq_true, if_true, List.length_append,
      List.length_replicate]
    omega

/-! ## When the call fails -/

/-- **When the call fails.** For a header with its metadata and a DC level of at most 4, and a
shared state with the four `dc_frames`, `InitializePassesSharedState` returns, and it returns
`true` exactly when every `Create` it calls succeeds and, in the decoder for a frame with
`kUseDcFrame`, the DC level is not 4 and the DC frame at that level was decoded (its `xsize()` is
not 0). -/
theorem initializePassesSharedState_status (A : ImageOps I) (kCoeffOrderMaxSize kUseDcFrame : ℕ)
    (F : FrameHeader μ) (shared : PassesSharedState μ I) (encoder : Bool)
    (hmd : F.nonserializedMetadata.isSome) (hlevel : F.dcLevel ≤ 4)
    (hframes : shared.dcFrames.length = 4) :
    ∃ r, initializePassesSharedState A kCoeffOrderMaxSize kUseDcFrame F shared encoder = some r ∧
      (r.2 = true ↔
        (A.create .acStrategy F.frameDim.xsizeBlocks F.frameDim.ysizeBlocks).isSome ∧
        (A.create .rawQuantField F.frameDim.xsizeBlocks F.frameDim.ysizeBlocks).isSome ∧
        (A.create .epfSharpness F.frameDim.xsizeBlocks F.frameDim.ysizeBlocks).isSome ∧
        (A.create .cmap F.frameDim.xsize F.frameDim.ysize).isSome ∧
        (A.create .quantDc F.frameDim.xsizeBlocks F.frameDim.ysizeBlocks).isSome ∧
        if (!encoder && F.flags &&& kUseDcFrame != 0) = true then
          F.dcLevel ≠ 4 ∧ ∃ frame, shared.dcFrames[F.dcLevel]? = some frame ∧ A.xsize frame ≠ 0
        else (A.create .dcStorage F.frameDim.xsizeBlocks F.frameDim.ysizeBlocks).isSome) := by
  obtain ⟨md, hmd⟩ := Option.isSome_iff_exists.1 hmd
  simp only [initializePassesSharedState, hmd, Option.some_bind]
  -- each `JXL_ASSIGN_OR_RETURN` adds its creation to the condition
  iterate 5 (refine assignOrReturn_status fun _ => ?_; dsimp only)
  split_ifs with hdc h4
  · simp [h4]
  · -- a level below 4 is inside the four `dc_frames`
    obtain ⟨frame, hfr⟩ : ∃ frame, shared.dcFrames[F.dcLevel]? = some frame :=
      ⟨_, List.getElem?_eq_getElem (by omega)⟩
    by_cases hx : A.xsize frame = 0 <;> simp [h4, hfr, hx]
  · cases A.create .dcStorage F.frameDim.xsizeBlocks F.frameDim.ysizeBlocks <;> simp

end Init

end JpegliIdct
