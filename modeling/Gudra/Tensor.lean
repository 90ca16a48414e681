import Gudra.Shape
import Gudra.Lib.Tiling

/-! Tensor metadata, the views built over a haloed source, and their checks. -/
namespace Gudra

/-- One device allocation of `len` elements, made on the stream of its session. -/
structure Storage where
  id : ℕ
  device : ℕ
  session : ℕ
  len : ℕ
deriving DecidableEq, Repr

structure Tensor where
  storage : Storage
  shape : List ℤ
  strides : List ℤ
deriving DecidableEq, Repr

/-- A borrowed view; the offset counts elements. -/
structure TensorView where
  base : Tensor
  offset : ℕ
  shape : List ℤ
  strides : List ℤ
deriving DecidableEq, Repr

/-- `n as i32` -/
def asI32 (n : ℕ) : ℤ := Int.bmod n (2 ^ 32)

/-- `i as usize` -/
def Platform.asUsize (P : Platform) (i : ℤ) : ℕ := (i % 2 ^ P.width).toNat

/-- `contiguous_strides` -/
def contiguousStrides (shape : List ℤ) : List ℤ :=
  (shape.foldr (fun dim (stride, strides) => (stride * dim, stride :: strides)) (1, [])).2

namespace Tensor

/-- A tensor as an upload returns it: one axis over a fresh allocation. -/
def uploaded (storage : Storage) : Tensor := ⟨storage, [asI32 storage.len], [1]⟩

/-- `Tensor::reshape`; negative axes and overflowing products are errors as well. -/
def reshape (t : Tensor) (extent : List ℕ) : Except String Tensor :=
  if t.strides ≠ contiguousStrides t.shape then
    .error "Zero-copy tensor views require contiguous storage"
  else if t.shape.any (· < 0) || t.shape.prod ≠ extent.prod then
    .error "View shape must preserve tensor size"
  else
    .ok { t with shape := extent.map asI32, strides := contiguousStrides (extent.map asI32) }

/-- One axis with its stride at a time: the offset of the ranges and the extents that remain. -/
def sliceAxes (P : Platform) : List (ℕ × ℕ) → List (ℤ × ℤ) → Except String (ℕ × List ℤ)
  | (start, stop) :: ranges, (dim, stride) :: axes =>
    if stop < start ∨ P.asUsize dim < stop then
      .error "slice: range out of bounds."
    else do
      let (offset, dims) ← sliceAxes P ranges axes
      return (start * P.asUsize stride + offset, asI32 (stop - start) :: dims)
  | _, axes => .ok (0, axes.map Prod.fst)

/-- `Tensor::slice`: zero-copy, with the strides of the base. -/
def slice (P : Platform) (t : Tensor) (ranges : List (ℕ × ℕ)) : Except String TensorView :=
  if t.shape.length < ranges.length then
    .error "slice: more ranges than axes."
  else do
    let (offset, shape) ← sliceAxes P ranges (t.shape.zip t.strides)
    return ⟨t, offset, shape, t.strides⟩

/-- A whole tensor passed as a kernel argument. -/
def view (t : Tensor) : TensorView := ⟨t, 0, t.shape, t.strides⟩

/-- The row-major extent of an allocation that holds exactly `rows * cols` elements. -/
structure RowMajor (t : Tensor) (extent : ℕ × ℕ) : Prop where
  shape_eq : t.shape = [(extent.1 : ℤ), (extent.2 : ℤ)]
  strides_eq : t.strides = [(extent.2 : ℤ), 1]
  len_eq : t.storage.len = extent.1 * extent.2

end Tensor

/-- `usize::try_from` -/
def usizeTryFrom (i : ℤ) : Option ℕ := if 0 ≤ i then some i.toNat else none

def matchesMetadata (actual : List ℤ) (expected : ℕ × ℕ) : Bool :=
  actual.length == 2 &&
    (actual.zip [expected.1, expected.2]).all fun (a, e) => usizeTryFrom a == some e

def backend (operation message : String) : Error := .backend operation message

/-- `map_err(|e| backend(operation, e))` -/
def mapBackend {β : Type} (operation : String) : Except String β → Except Error β
  | .ok b => .ok b
  | .error message => .error (backend operation message)

structure ReadViews where
  center : TensorView
  north : TensorView
  south : TensorView
  east : TensorView
  west : TensorView
deriving DecidableEq, Repr

def ReadViews.all (views : ReadViews) : List TensorView :=
  [views.center, views.north, views.south, views.east, views.west]

/-- `directional_views`; `none` is an overflowing range bound. -/
def directionalViews {P : Platform} (shape : Shape2D P) (tensor : Tensor) :
    Fallible ReadViews := do
  let (height, width) := shape.interior
  let (haloHeight, haloWidth) := shape.haloed
  let bottom ← P.checkedAdd height 1
  let right ← P.checkedAdd width 1
  let slice := fun operation ranges => mapBackend operation (tensor.slice P ranges)
  let views : ReadViews := {
    center := ← slice "slice center" [(1, bottom), (1, right)]
    north := ← slice "slice north" [(0, height), (1, right)]
    south := ← slice "slice south" [(2, haloHeight), (1, right)]
    east := ← slice "slice east" [(1, bottom), (2, haloWidth)]
    west := ← slice "slice west" [(1, bottom), (0, width)] }
  if views.all.any fun view =>
      !matchesMetadata view.shape shape.interior || !matchesMetadata view.strides (haloWidth, 1)
  then throw (backend "validate directional view" "shape/stride invariant failed")
  return views

/-! ### The metadata of a validated shape -/

section Metadata

variable {P : Platform} {n : ℕ} {extent : ℕ × ℕ} {t : Tensor}

theorem asI32_of_le (h : n ≤ i32Max) : asI32 n = n := by
  simp only [i32Max] at h
  exact Int.bmod_eq_of_le (by omega) (by omega)

theorem asUsize_of_le (P : Platform) (h : n ≤ i32Max) : P.asUsize n = n := by
  have hpow : (2 : ℤ) ^ 32 ≤ 2 ^ P.width := pow_le_pow_right₀ (by norm_num) P.width_ge
  simp only [i32Max] at h
  rw [Platform.asUsize, Int.emod_eq_of_lt (by omega) (by omega), Int.toNat_natCast]

theorem matchesMetadata_pair (a b : ℕ) : matchesMetadata [(a : ℤ), (b : ℤ)] (a, b) = true := by
  simp [matchesMetadata, usizeTryFrom]

theorem matchesMetadata_strides (a : ℕ) : matchesMetadata [(a : ℤ), 1] (a, 1) = true :=
  matchesMetadata_pair a 1

/-- A whole allocation as rows of one extent. -/
def Tensor.ofRows (storage : Storage) (extent : ℕ × ℕ) : Tensor :=
  ⟨storage, [(extent.1 : ℤ), (extent.2 : ℤ)], [(extent.2 : ℤ), 1]⟩

theorem Tensor.rowMajor_ofRows {storage : Storage} (h : extent.1 * extent.2 = storage.len) :
    (Tensor.ofRows storage extent).RowMajor extent := ⟨rfl, rfl, h.symm⟩

/-- Reshaping a completed upload never fails on extents of the uploaded length. -/
theorem Tensor.reshape_uploaded {storage : Storage} (h : extent.1 * extent.2 = storage.len)
    (h₁ : extent.1 ≤ i32Max) (h₂ : extent.2 ≤ i32Max) (hlen : storage.len ≤ i32Max) :
    (Tensor.uploaded storage).reshape [extent.1, extent.2] =
      .ok (Tensor.ofRows storage extent) := by
  have hneg : ¬ asI32 storage.len < 0 := by
    rw [asI32_of_le hlen]
    omega
  have hprod : ([asI32 storage.len] : List ℤ).prod = ([extent.1, extent.2] : List ℕ).prod := by
    rw [asI32_of_le hlen, ← h]
    simp
  simp only [reshape, uploaded, hprod]
  simp [Tensor.ofRows, contiguousStrides, hneg, asI32_of_le h₁, asI32_of_le h₂]

end Metadata

section Views

variable {P : Platform} {shape : Shape2D P} {t : Tensor}

/-- The offset at which a view starts, and what is left of the extents. -/
theorem Tensor.slice_eq (h : t.RowMajor shape.haloed) (top bottom left right : ℕ)
    (hrow : top ≤ bottom ∧ bottom ≤ shape.height + 2)
    (hcol : left ≤ right ∧ right ≤ shape.width + 2) :
    t.slice P [(top, bottom), (left, right)] =
      .ok ⟨t, top * (shape.width + 2) + left, [((bottom - top : ℕ) : ℤ), ((right - left : ℕ) : ℤ)],
        [((shape.width + 2 : ℕ) : ℤ), 1]⟩ := by
  have hle := shape.haloedLen_le
  have hh := shape.haloed_height_le
  have hw := shape.haloed_width_le
  have hone : P.asUsize 1 = 1 := asUsize_of_le P (n := 1) (by decide)
  have hheight : P.asUsize ((shape.height + 2 : ℕ) : ℤ) = shape.height + 2 :=
    asUsize_of_le P (by omega)
  have hwidth : P.asUsize ((shape.width + 2 : ℕ) : ℤ) = shape.width + 2 :=
    asUsize_of_le P (by omega)
  have hr : ¬ (bottom < top ∨ shape.height + 2 < bottom) := by omega
  have hc : ¬ (right < left ∨ shape.width + 2 < right) := by omega
  have hb : asI32 (bottom - top) = ((bottom - top : ℕ) : ℤ) := asI32_of_le (by omega)
  have hl : asI32 (right - left) = ((right - left : ℕ) : ℤ) := asI32_of_le (by omega)
  have haxes : sliceAxes P [(top, bottom), (left, right)]
      [(((shape.height + 2 : ℕ) : ℤ), ((shape.width + 2 : ℕ) : ℤ)),
        (((shape.width + 2 : ℕ) : ℤ), 1)] =
      .ok (top * (shape.width + 2) + left, [((bottom - top : ℕ) : ℤ), ((right - left : ℕ) : ℤ)]) := by
    simp only [sliceAxes, hheight, hwidth, hr, hc, if_false, hone, hb, hl]
    simp [bind, Except.bind, pure, Except.pure]
  have hranges : ¬ t.shape.length < [(top, bottom), (left, right)].length := by
    rw [h.shape_eq]
    exact Nat.lt_irrefl 2
  have hzip : t.shape.zip t.strides = [(((shape.height + 2 : ℕ) : ℤ), ((shape.width + 2 : ℕ) : ℤ)),
      (((shape.width + 2 : ℕ) : ℤ), 1)] := by
    rw [h.shape_eq, h.strides_eq, shape.haloed_eq]
    rfl
  rw [slice, if_neg hranges, hzip, haxes, h.strides_eq, shape.haloed_eq]
  rfl

/-- The five views of a haloed tensor, in the order that the kernels name them. -/
def viewsOf (shape : Shape2D P) (t : Tensor) : ReadViews :=
  let at_ := fun row column => (⟨t, row * (shape.width + 2) + column,
    [(shape.height : ℤ), (shape.width : ℤ)], [((shape.width + 2 : ℕ) : ℤ), 1]⟩ : TensorView)
  ⟨at_ 1 1, at_ 0 1, at_ 2 1, at_ 1 2, at_ 1 0⟩

/-- On a haloed tensor no branch of `directional_views` fails. -/
theorem directionalViews_eq (h : t.RowMajor shape.haloed) :
    directionalViews shape t = some (.ok (viewsOf shape t)) := by
  have hle := shape.haloedLen_le
  have hh := shape.haloed_height_le
  have hw := shape.haloed_width_le
  have hmax := i32Max_le_usizeMax P
  have hbottom : P.checkedAdd shape.height 1 = some (shape.height + 1) :=
    checkedAdd_eq rfl (by omega)
  have hright : P.checkedAdd shape.width 1 = some (shape.width + 1) := checkedAdd_eq rfl (by omega)
  have hinterior : shape.interior = (shape.height, shape.width) := rfl
  have hcenter := Tensor.slice_eq h 1 (shape.height + 1) 1 (shape.width + 1) (by omega) (by omega)
  have hnorth := Tensor.slice_eq h 0 shape.height 1 (shape.width + 1) (by omega) (by omega)
  have hsouth := Tensor.slice_eq h 2 (shape.height + 2) 1 (shape.width + 1) (by omega) (by omega)
  have heast := Tensor.slice_eq h 1 (shape.height + 1) 2 (shape.width + 2) (by omega) (by omega)
  have hwest := Tensor.slice_eq h 1 (shape.height + 1) 0 shape.width (by omega) (by omega)
  simp only [Nat.add_sub_cancel, Nat.sub_zero] at hcenter hnorth hsouth heast hwest
  have hall : (viewsOf shape t).all.any (fun view =>
      !matchesMetadata view.shape (shape.height, shape.width) ||
        !matchesMetadata view.strides (shape.width + 2, 1)) = false := by
    have hpair := matchesMetadata_pair shape.height shape.width
    have hstrides := matchesMetadata_strides (shape.width + 2)
    simp [viewsOf, ReadViews.all, hpair] at hstrides ⊢
    exact hstrides
  simp only [directionalViews, hinterior, shape.haloed_eq, hbottom, hright, hcenter, hnorth,
    hsouth, heast, hwest, mapBackend, Fallible.lift_some_bind, Fallible.lift_ok_bind]
  exact if_neg (by simpa [viewsOf] using hall)

end Views
end Gudra
