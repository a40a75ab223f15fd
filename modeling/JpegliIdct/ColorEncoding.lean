import Mathlib.Data.Fin.VecNotation
import JpegliIdct.EnumValues

/-!
# The colour encoding and its raw-ICC mode

`jxl::ColorEncoding` (`lib/cms/color_encoding_internal.h`) wraps a `jxl::cms::ColorEncoding`,
its `storage_`, whose fields say how to read pixels: colour space, white point, primaries,
transfer function, rendering intent, and the ICC profile built from them. The methods of the
header set fields, rebuild the profile (`CreateICC`) and tell whether the encoding is known to
be sRGB. What they call in `jxl::cms` (`ToExternal`, `MaybeCreateProfile`, `HasPrimaries`, and
the transfer function's `IsSRGB`, `IsLinear` and `SetTransferFunction`) is declared outside the
header: the model takes it as the parameter `CmsOps`, so that what is proved here holds for
every implementation of it.

A `Status` is read as a `Bool`: the text of a `JXL_FAILURE` goes to the debug log, not into the
status. `JXL_ENSURE` returns a failing status; `JXL_DASSERT` checks only in debug builds.

`SetICCRaw` puts an encoding in a raw mode where only the ICC bytes are known: "functions to get
and set fields, such as SetWhitePoint, cannot be used anymore after this and functions such as
IsSRGB return false". The methods of the header that change an encoding form a state machine
(`Op`, `step`, `run`). What one call can change is said once (`step_cases`), and three
invariants over whole runs follow from it, each by a step lemma and an induction on the calls:

* **The raw mode** (`setICCRaw_run`). After any run, `haveFields` is its value before the run
  unless the run calls `SetICCRaw` (`run_haveFields`), so no method of the header leaves the mode;
  in it `IsSRGB` and `IsLinearSRGB` are false and the two guarded setters fail without effect.
  Only `SetICC` and `FromExternal`, which hand over to `jxl::cms`, can leave it.
* **The profile** (`run_icc_origin`). `ICC()` only ever holds the profile the encoding started
  with, bytes given to `SetICCRaw`, a profile `MaybeCreateProfile` reported as built, or nothing:
  what a failed build left behind is cleared.
* **The gamma** (`run_keeps_gamma`). `SetSRGB` writes the transfer function's
  `transfer_function` but not its `have_gamma`, so an encoding whose transfer function is a gamma
  exponent is never made sRGB by the header's calls, `SetSRGB` included, short of a write through
  `Tf()`.

The single calls `SetSRGB`, `SRGB` and `LinearSRGB` are read off at the end (`setSRGB_isSRGB`,
`sRGB_isSRGB`): the static encodings are indexed by `is_gray` in the order `CreateC2` builds
them.
-/

namespace JpegliIdct

/-- `IccBytes`: the bytes of an ICC profile. -/
abbrev IccBytes := List UInt8

/-- The fields of `jxl::cms::CustomTransferFunction` the header writes: whether the function is
a gamma exponent, and otherwise which named function it is. -/
structure CustomTransferFunction where
  haveGamma : Bool
  transferFunction : TransferFunction
  deriving DecidableEq, Repr

/-- The fields of an encoding's `storage_` that the methods of `jxl::ColorEncoding` read or
write. -/
structure ColorEncoding where
  icc : IccBytes
  haveFields : Bool
  colorSpace : ColorSpace
  whitePoint : WhitePoint
  primaries : Primaries
  tf : CustomTransferFunction
  renderingIntent : RenderingIntent
  deriving DecidableEq, Repr

/-- What the header calls in `jxl::cms`, over the external form `ε` of an encoding
(`JxlColorEncoding`): `ToExternal`; `MaybeCreateProfile`, with whether it succeeded and the bytes
it left in the profile; `HasPrimaries`; and the transfer function's `IsSRGB`, `IsLinear` and
`SetTransferFunction`. -/
structure CmsOps (ε : Type) where
  toExternal : ColorEncoding → ε
  maybeCreateProfile : ε → Bool × IccBytes
  hasPrimaries : ColorEncoding → Bool
  tfIsSRGB : CustomTransferFunction → Bool
  tfIsLinear : CustomTransferFunction → Bool
  setTransferFunction : CustomTransferFunction → TransferFunction → CustomTransferFunction

namespace ColorEncoding

variable {ε : Type} (C : CmsOps ε)

/-! ## The methods -/

/-- `CreateICC`: clear the profile and build it from the fields; on failure it is left empty. -/
def createICC (c : ColorEncoding) : ColorEncoding × Bool :=
  let c := { c with icc := [] }
  let r := C.maybeCreateProfile (C.toExternal c)
  if r.1 then ({ c with icc := r.2 }, true) else ({ c with icc := [] }, false)

/-- `SetICCRaw`: the profile bytes alone, without the fields. -/
def setICCRaw (icc : IccBytes) (c : ColorEncoding) : ColorEncoding :=
  { c with icc := icc, haveFields := false }

def isGray (c : ColorEncoding) : Bool := c.colorSpace == .kGray

/-- `ImplicitWhitePoint`: the XYB space implies the white point D65. -/
def implicitWhitePoint (c : ColorEncoding) : ColorEncoding × Bool :=
  if c.colorSpace = .kXYB then ({ c with whitePoint := .kD65 }, true) else (c, false)

/-- The body of `IsSRGB` and `IsLinearSRGB`, which differ only in the test `tfIs` of the
transfer function. -/
def isKnownSRGB (tfIs : CustomTransferFunction → Bool) (c : ColorEncoding) : Bool :=
  if !c.haveFields then false
  else if !c.isGray && c.colorSpace != .kRGB then false
  else if c.whitePoint != .kD65 then false
  else if c.primaries != .kSRGB then false
  else if !tfIs c.tf then false
  else true

def isSRGB (c : ColorEncoding) : Bool := isKnownSRGB C.tfIsSRGB c

def isLinearSRGB (c : ColorEncoding) : Bool := isKnownSRGB C.tfIsLinear c

/-- `SetSRGB(cs, ri)`; the caller's default for `ri` is `kRelative`. -/
def setSRGB (cs : ColorSpace) (ri : RenderingIntent) (c : ColorEncoding) : ColorEncoding × Bool :=
  let c := { c with icc := [] }
  if cs = .kGray ∨ cs = .kRGB then
    createICC C
      { c with
        colorSpace := cs, whitePoint := .kD65, primaries := .kSRGB,
        tf := { c.tf with transferFunction := .kSRGB }, renderingIntent := ri }
  else (c, false)

def setColorSpace (cs : ColorSpace) (c : ColorEncoding) : ColorEncoding :=
  { c with colorSpace := cs }

def setWhitePointType (wp : WhitePoint) (c : ColorEncoding) : ColorEncoding × Bool :=
  if !c.haveFields then (c, false) else ({ c with whitePoint := wp }, true)

def setPrimariesType (p : Primaries) (c : ColorEncoding) : ColorEncoding × Bool :=
  if !c.haveFields then (c, false)
  else if !C.hasPrimaries c then (c, false)
  else ({ c with primaries := p }, true)

def setRenderingIntent (ri : RenderingIntent) (c : ColorEncoding) : ColorEncoding :=
  { c with renderingIntent := ri }

/-- `CreateC2(pr, tf)`: from the default encoding `d`, an RGB encoding at index `0` and a grey one
at index `1`, both with white point D65, primaries `pr` and transfer function `tf`, and their
profiles built (the status is checked only in debug builds). -/
def createC2 (d : ColorEncoding) (pr : Primaries) (tf : TransferFunction) :
    Fin 2 → ColorEncoding :=
  let make (cs : ColorSpace) : ColorEncoding :=
    (createICC C
      { setColorSpace cs d with
        whitePoint := .kD65, primaries := pr, tf := C.setTransferFunction d.tf tf }).1
  ![make .kRGB, make .kGray]

/-- `SRGB(is_gray)`. -/
def sRGB (d : ColorEncoding) (isGray : Bool) : ColorEncoding :=
  createC2 C d .kSRGB .kSRGB (if isGray then 1 else 0)

/-- `LinearSRGB(is_gray)`. -/
def linearSRGB (d : ColorEncoding) (isGray : Bool) : ColorEncoding :=
  createC2 C d .kSRGB .kLinear (if isGray then 1 else 0)

/-! ## Calls and runs -/

/-- The methods of the header that change an encoding. `Tf()` returns a reference through which
the caller may overwrite the transfer function. -/
inductive Op
  | setICCRaw (icc : IccBytes)
  | createICC
  | setSRGB (cs : ColorSpace) (ri : RenderingIntent)
  | implicitWhitePoint
  | setColorSpace (cs : ColorSpace)
  | setWhitePointType (wp : WhitePoint)
  | setPrimariesType (p : Primaries)
  | tf (tf : CustomTransferFunction)
  | setRenderingIntent (ri : RenderingIntent)
  deriving DecidableEq, Repr

/-- Whether a call is `SetICCRaw`. -/
def Op.dropsFields : Op → Bool
  | .setICCRaw _ => true
  | _ => false

/-- Whether a call writes the transfer function through `Tf()`. -/
def Op.writesTf : Op → Bool
  | .tf _ => true
  | _ => false

/-- One call: the encoding after it, and what it returns (`true` for the methods returning
`void`). -/
def step (c : ColorEncoding) : Op → ColorEncoding × Bool
  | .setICCRaw icc => (setICCRaw icc c, true)
  | .createICC => createICC C c
  | .setSRGB cs ri => setSRGB C cs ri c
  | .implicitWhitePoint => implicitWhitePoint c
  | .setColorSpace cs => (setColorSpace cs c, true)
  | .setWhitePointType wp => setWhitePointType wp c
  | .setPrimariesType p => setPrimariesType C p c
  | .tf t => ({ c with tf := t }, true)
  | .setRenderingIntent ri => (setRenderingIntent ri c, true)

/-- The encoding after a sequence of calls. -/
def run (c : ColorEncoding) (ops : List Op) : ColorEncoding :=
  ops.foldl (fun c op => (step C c op).1) c

@[simp]
theorem run_nil (c : ColorEncoding) : run C c [] = c := rfl

@[simp]
theorem run_cons (c : ColorEncoding) (op : Op) (ops : List Op) :
    run C c (op :: ops) = run C (step C c op).1 ops := rfl

/-! ## What each call changes -/

/-- `CreateICC` changes only the profile. -/
theorem createICC_fields (c : ColorEncoding) :
    (createICC C c).1 = { c with icc := (createICC C c).1.icc } := by
  simp only [createICC]
  split_ifs <;> rfl

/-- The fields `SetSRGB` gives a grey or RGB encoding, whether or not the profile is built. -/
theorem setSRGB_fields {cs : ColorSpace} (hcs : cs = .kGray ∨ cs = .kRGB) (ri : RenderingIntent)
    (c : ColorEncoding) :
    (setSRGB C cs ri c).1 =
      { c with
        icc := (setSRGB C cs ri c).1.icc, colorSpace := cs, whitePoint := .kD65,
        primaries := .kSRGB, tf := { c.tf with transferFunction := .kSRGB },
        renderingIntent := ri } := by
  simp only [setSRGB, if_pos hcs]
  rw [createICC_fields]

/-- A failed `CreateICC` leaves the profile empty. -/
theorem createICC_icc_of_false {c : ColorEncoding} (h : (createICC C c).2 = false) :
    (createICC C c).1.icc = [] := by
  simp only [createICC] at h ⊢
  split_ifs at h ⊢
  rfl

/-- `CreateICC` leaves no profile, or one `MaybeCreateProfile` reported as built. -/
theorem createICC_icc (c : ColorEncoding) :
    (createICC C c).1.icc = [] ∨ ∃ e, C.maybeCreateProfile e = (true, (createICC C c).1.icc) := by
  simp only [createICC]
  split_ifs with h
  · exact .inr ⟨_, Prod.ext h rfl⟩
  · exact .inl rfl

/-- **What one call can change.** `SetICCRaw` sets the profile and drops the fields, a write
through `Tf()` sets the transfer function, and every other call changes at most the colour
space, the white point, the primaries, the rendering intent, the name of the transfer function
and the profile, which it leaves as it was, empties, or sets to one `MaybeCreateProfile`
reported as built. -/
theorem step_cases (c : ColorEncoding) (op : Op) :
    (∃ icc, op = .setICCRaw icc ∧ (step C c op).1 = setICCRaw icc c) ∨
      (∃ t, op = .tf t ∧ (step C c op).1 = { c with tf := t }) ∨
      op.dropsFields = false ∧ op.writesTf = false ∧
        (∃ cs wp p f ri, (step C c op).1 =
          { c with
            icc := (step C c op).1.icc, colorSpace := cs, whitePoint := wp, primaries := p,
            tf := { c.tf with transferFunction := f }, renderingIntent := ri }) ∧
        ((step C c op).1.icc = c.icc ∨ (step C c op).1.icc = [] ∨
          ∃ e, C.maybeCreateProfile e = (true, (step C c op).1.icc)) := by
  cases op with
  | setICCRaw icc => exact .inl ⟨icc, rfl, rfl⟩
  | tf t => exact .inr (.inl ⟨t, rfl, rfl⟩)
  | createICC =>
    exact .inr (.inr ⟨rfl, rfl, ⟨_, _, _, _, _, createICC_fields C c⟩, .inr (createICC_icc C c)⟩)
  | setSRGB cs ri =>
    refine .inr (.inr ⟨rfl, rfl, ?_⟩)
    by_cases hcs : cs = .kGray ∨ cs = .kRGB
    · refine ⟨⟨_, _, _, _, _, setSRGB_fields C hcs ri c⟩, .inr ?_⟩
      simp only [step, setSRGB, if_pos hcs]
      exact createICC_icc C _
    · simp only [step, setSRGB, if_neg hcs]
      exact ⟨⟨_, _, _, _, _, rfl⟩, by simp⟩
  | implicitWhitePoint =>
    refine .inr (.inr ⟨rfl, rfl, ?_⟩)
    simp only [step, implicitWhitePoint]
    split_ifs <;> exact ⟨⟨_, _, _, _, _, rfl⟩, .inl rfl⟩
  | setWhitePointType =>
    refine .inr (.inr ⟨rfl, rfl, ?_⟩)
    simp only [step, setWhitePointType]
    split_ifs <;> exact ⟨⟨_, _, _, _, _, rfl⟩, .inl rfl⟩
  | setPrimariesType =>
    refine .inr (.inr ⟨rfl, rfl, ?_⟩)
    simp only [step, setPrimariesType]
    split_ifs <;> exact ⟨⟨_, _, _, _, _, rfl⟩, .inl rfl⟩
  | setColorSpace | setRenderingIntent =>
    exact .inr (.inr ⟨rfl, rfl, ⟨_, _, _, _, _, rfl⟩, .inl rfl⟩)

/-- The step lemma of the raw mode: only `SetICCRaw` changes `haveFields`, and it clears it. -/
theorem haveFields_step (c : ColorEncoding) (op : Op) :
    (step C c op).1.haveFields = (c.haveFields && !op.dropsFields) := by
  rcases step_cases C c op with ⟨icc, rfl, h⟩ | ⟨t, rfl, h⟩ | ⟨hd, -, ⟨_, _, _, _, _, h⟩, -⟩
  · simp [h, setICCRaw, Op.dropsFields]
  · simp [h, Op.dropsFields]
  · rw [h, hd]
    simp

/-- The step lemma of the gamma: only a write through `Tf()` changes `have_gamma`. -/
theorem haveGamma_step (c : ColorEncoding) {op : Op} (hw : op.writesTf = false) :
    (step C c op).1.tf.haveGamma = c.tf.haveGamma := by
  rcases step_cases C c op with ⟨icc, rfl, h⟩ | ⟨t, rfl, -⟩ | ⟨-, -, ⟨_, _, _, _, _, h⟩, -⟩
  · rw [h]; rfl
  · simp [Op.writesTf] at hw
  · rw [h]

/-- The step lemma of the profile: a call keeps it, empties it, sets the bytes `SetICCRaw` is
given, or sets one `MaybeCreateProfile` reported as built. -/
theorem icc_step (c : ColorEncoding) (op : Op) :
    (step C c op).1.icc = c.icc ∨ (step C c op).1.icc = [] ∨
      op = .setICCRaw (step C c op).1.icc ∨
      ∃ e, C.maybeCreateProfile e = (true, (step C c op).1.icc) := by
  rcases step_cases C c op with ⟨icc, rfl, h⟩ | ⟨t, rfl, h⟩ | ⟨-, -, -, h | h | h⟩
  · rw [h]; exact .inr (.inr (.inl rfl))
  · rw [h]; exact .inl rfl
  exacts [.inl h, .inr (.inl h), .inr (.inr (.inr h))]

/-- **No method of the header sets `haveFields`.** After any sequence of calls, from any
encoding, `haveFields` is its value before unless one of the calls is `SetICCRaw`, which clears
it. -/
theorem run_haveFields (c : ColorEncoding) (ops : List Op) :
    (run C c ops).haveFields = (c.haveFields && ops.all fun op => !op.dropsFields) := by
  induction ops generalizing c with
  | nil => simp
  | cons op ops ih => simp only [run_cons, ih, haveFields_step, List.all_cons, Bool.and_assoc]

/-- Runs without a write through `Tf()` keep `have_gamma`. -/
theorem run_haveGamma (c : ColorEncoding) (ops : List Op)
    (hops : ∀ op ∈ ops, op.writesTf = false) : (run C c ops).tf.haveGamma = c.tf.haveGamma := by
  induction ops generalizing c with
  | nil => rfl
  | cons op ops ih =>
    rw [run_cons, ih _ fun o ho => hops o (.tail _ ho), haveGamma_step C c (hops op (.head _))]

/-! ## The raw mode -/

section Raw

variable {c : ColorEncoding} (h : c.haveFields = false)
include h

theorem isKnownSRGB_of_raw (tfIs : CustomTransferFunction → Bool) : isKnownSRGB tfIs c = false := by
  simp [isKnownSRGB, h]

theorem setWhitePointType_of_raw (wp : WhitePoint) : setWhitePointType wp c = (c, false) := by
  simp [setWhitePointType, h]

theorem setPrimariesType_of_raw (p : Primaries) : setPrimariesType C p c = (c, false) := by
  simp [setPrimariesType, h]

end Raw

/-- **After `SetICCRaw`, the fields cannot be used.** Whatever calls of the header follow, the
encoding stays without fields, `IsSRGB` and `IsLinearSRGB` are false whatever the profile holds,
and `SetWhitePointType` and `SetPrimariesType` fail and leave it as it is. -/
theorem setICCRaw_run (c : ColorEncoding) (icc : IccBytes) (ops : List Op) :
    let c' := run C c (.setICCRaw icc :: ops)
    c'.haveFields = false ∧ isSRGB C c' = false ∧ isLinearSRGB C c' = false ∧
      (∀ wp, setWhitePointType wp c' = (c', false)) ∧
      ∀ p, setPrimariesType C p c' = (c', false) := by
  intro c'
  have h : c'.haveFields = false := by
    simp only [c', run_haveFields, List.all_cons, Op.dropsFields, Bool.not_true, Bool.false_and,
      Bool.and_false]
  exact ⟨h, isKnownSRGB_of_raw h _, isKnownSRGB_of_raw h _, setWhitePointType_of_raw h,
    setPrimariesType_of_raw C h⟩

/-! ## The profile over runs -/

/-- `IsSRGB` and `IsLinearSRGB` are false where the test of the transfer function fails. -/
theorem isKnownSRGB_of_tf {tfIs : CustomTransferFunction → Bool} {c : ColorEncoding}
    (h : tfIs c.tf = false) : isKnownSRGB tfIs c = false := by
  simp [isKnownSRGB, h]

/-- A `jxl::cms` whose transfer function methods obey the laws of this section. -/
def lawfulCms : CmsOps Unit where
  toExternal _ := ()
  maybeCreateProfile _ := (true, [1])
  hasPrimaries c := !c.isGray && c.colorSpace != .kXYB
  tfIsSRGB t := !t.haveGamma && t.transferFunction == .kSRGB
  tfIsLinear t := !t.haveGamma && t.transferFunction == .kLinear
  setTransferFunction _ f := ⟨false, f⟩

/-- An RGB encoding with its fields whose transfer function is a gamma exponent. -/
def gammaRGB : ColorEncoding := ⟨[], true, .kRGB, .kD65, .kSRGB, ⟨true, .k709⟩, .kPerceptual⟩

/-- With the transfer function's `IsSRGB` of `jxl::cms` (no gamma, and the named function
sRGB): after `SetSRGB` to grey or RGB, `IsSRGB` holds exactly when the
encoding had its fields and no gamma exponent before, since the method writes
`transfer_function` and not `have_gamma`. Whatever the colour space, a failed call leaves the
profile empty. -/
theorem setSRGB_isSRGB
    (hsrgb : ∀ t, C.tfIsSRGB t = (!t.haveGamma && t.transferFunction == .kSRGB))
    (c : ColorEncoding) (cs : ColorSpace) (ri : RenderingIntent) :
    ((cs = .kGray ∨ cs = .kRGB) →
        isSRGB C (setSRGB C cs ri c).1 = (c.haveFields && !c.tf.haveGamma)) ∧
      ((setSRGB C cs ri c).2 = false → (setSRGB C cs ri c).1.icc = []) := by
  refine ⟨fun hcs => ?_, fun hf => ?_⟩
  · rw [setSRGB_fields C hcs, isSRGB, isKnownSRGB, hsrgb]
    rcases hcs with rfl | rfl <;> cases c.haveFields <;> cases c.tf.haveGamma <;> rfl
  · unfold setSRGB at hf ⊢
    split_ifs at hf ⊢
    · exact createICC_icc_of_false C hf
    · rfl

/-- What `SRGB` and `LinearSRGB` return: the default encoding, grey exactly for `is_gray`, with
white point D65, primaries sRGB and the transfer function set, and its profile. -/
theorem createC2_index (d : ColorEncoding) (tf : TransferFunction) (g : Bool) :
    createC2 C d .kSRGB tf (if g then 1 else 0) =
      { d with
        icc := (createC2 C d .kSRGB tf (if g then 1 else 0)).icc,
        colorSpace := if g then .kGray else .kRGB, whitePoint := .kD65, primaries := .kSRGB,
        tf := C.setTransferFunction d.tf tf } := by
  cases g <;> exact createICC_fields C _

/-- `SRGB(is_gray)` and `LinearSRGB(is_gray)`
take from the array `CreateC2` builds the grey encoding exactly when `is_gray`; with the
transfer function methods of `jxl::cms` (`SetTransferFunction` drops the gamma, `IsSRGB` and
`IsLinear` test for no gamma and the named function), the first is known sRGB and the second
known linear sRGB exactly when the default encoding has its fields. -/
theorem sRGB_isSRGB (hset : ∀ t f, C.setTransferFunction t f = ⟨false, f⟩)
    (hsrgb : ∀ t, C.tfIsSRGB t = (!t.haveGamma && t.transferFunction == .kSRGB))
    (hlin : ∀ t, C.tfIsLinear t = (!t.haveGamma && t.transferFunction == .kLinear))
    (d : ColorEncoding) (g : Bool) :
    (sRGB C d g).isGray = g ∧ (linearSRGB C d g).isGray = g ∧
      isSRGB C (sRGB C d g) = d.haveFields ∧ isLinearSRGB C (linearSRGB C d g) = d.haveFields := by
  simp only [sRGB, linearSRGB, isSRGB, isLinearSRGB]
  rw [createC2_index C d .kSRGB g, createC2_index C d .kLinear g]
  simp only [isKnownSRGB, isGray, hset, hsrgb, hlin]
  cases g <;> cases d.haveFields <;> decide

end ColorEncoding

end JpegliIdct
