import Gudra.Tensor
import Gudra.Reference
import Gudra.Lib.Interleave

/-! The three device kernels (`kernels.rs`) as block programs, and their launches. -/
namespace Gudra

open Tiling Interleave

/-- An element of an allocation: its identity and the offset in it. -/
abbrev Addr := ℕ × ℕ

abbrev Block (α : Type) := Prog Addr α Unit

/-- A tile of values, by lane. -/
abbrev Tile (α : Type) := ℕ × ℕ → α

section Access

variable {α : Type} [Scalar α]

/-- The address of an element; an index outside the view has none. -/
def TensorView.element (v : TensorView) (row column : ℤ) : Option Addr :=
  match v.shape, v.strides with
  | [rows, columns], [rowStride, columnStride] =>
    if 0 ≤ row ∧ row < rows ∧ 0 ≤ column ∧ column < columns then
      some (v.base.storage.id, (v.offset + row * rowStride + column * columnStride).toNat)
    else none
  | _, _ => none

/-- The element under lane `l` of the tile with this index. -/
def TensorView.lane (v : TensorView) (edge : ℕ) (index : ℤ × ℤ) (l : ℕ × ℕ) : Option Addr :=
  v.element (index.1 * edge + l.1) (index.2 * edge + l.2)

/-- `load_tile`: lanes outside the view are padded with zero. -/
def TensorView.loadTile (v : TensorView) (edge : ℕ) (index : ℤ × ℤ) : Prog Addr α (Tile α) :=
  Prog.gather (v.lane edge index) Scalar.zero (positions edge edge)

/-- `store`: lanes outside the tensor are masked. -/
def TensorView.store (v : TensorView) (edge : ℕ) (index : ℤ × ℤ) (value : Tile α) : Block α :=
  Prog.scatter (v.lane edge index) value (positions edge edge)

def broadcast (value : α) : Tile α := fun _ => value

end Access

namespace Kernel

variable {α : Type} [Scalar α]

/-- `jacobi_kernel::timestep`, for the block `id` of a partition into single cells. -/
def timestep (output input rhs : TensorView) (height width : ℤ) (omega hSquared : α)
    (id : ℕ × ℕ) : Prog Addr α Unit := do
  let row : ℤ := id.1
  let col : ℤ := id.2
  let center ← input.loadTile 1 (row, col)
  if row > 0 ∧ row ≤ height ∧ col > 0 ∧ col ≤ width then
    let north ← input.loadTile 1 (row - 1, col)
    let south ← input.loadTile 1 (row + 1, col)
    let east ← input.loadTile 1 (row, col + 1)
    let west ← input.loadTile 1 (row, col - 1)
    let forcing ← rhs.loadTile 1 (row - 1, col - 1)
    let weight := broadcast omega
    let spacing := broadcast hSquared
    let one := broadcast Scalar.one
    let quarter := broadcast Scalar.quarter
    let candidate := quarter * (north + south + east + west - spacing * forcing)
    output.store 1 (row, col) ((one - weight) * center + weight * candidate)
  else
    output.store 1 (row, col) center

/-- `jacobi_kernel::jacobi`; `load_like` loads the tile of the output's own block. -/
def jacobi (output center north south east west rhs : TensorView) (omega hSquared : α)
    (id : ℕ × ℕ) : Prog Addr α Unit := do
  let block : ℤ × ℤ := (id.1, id.2)
  let centerValues ← center.loadTile tile block
  let northValues ← north.loadTile tile block
  let southValues ← south.loadTile tile block
  let eastValues ← east.loadTile tile block
  let westValues ← west.loadTile tile block
  let rhsValues ← rhs.loadTile tile block
  let weight := broadcast omega
  let spacingSquared := broadcast hSquared
  let one := broadcast Scalar.one
  let quarter := broadcast Scalar.quarter
  let candidate := quarter *
    (northValues + southValues + eastValues + westValues - spacingSquared * rhsValues)
  output.store tile block ((one - weight) * centerValues + weight * candidate)

/-- `jacobi_kernel::laplacian` -/
def laplacian (output center north south east west : TensorView) (inverseHSquared : α)
    (id : ℕ × ℕ) : Prog Addr α Unit := do
  let block : ℤ × ℤ := (id.1, id.2)
  let centerValues ← center.loadTile tile block
  let northValues ← north.loadTile tile block
  let southValues ← south.loadTile tile block
  let eastValues ← east.loadTile tile block
  let westValues ← west.loadTile tile block
  let four := broadcast Scalar.four
  let spacing := broadcast inverseHSquared
  output.store tile block
    ((northValues + southValues + eastValues + westValues - four * centerValues) * spacing)

end Kernel

/-- `partition_launch_grid` for a rank-two partition. -/
def partitionLaunchGrid (shape : List ℤ) (edges : ℕ × ℕ) : Except String (ℕ × ℕ) :=
  if shape.any (· ≤ 0) then .error "Shape dimensions must be positive"
  else match shape with
    | [rows, columns] =>
      if edges.1 = 0 ∨ edges.2 = 0 then .error "Partition dimensions must be positive"
      else if u32Max < edges.1 ∨ u32Max < edges.2 then .error "Partition dimension exceeds u32::MAX"
      else .ok (Shape2D.divCeil rows.toNat edges.1, Shape2D.divCeil columns.toNat edges.2)
    | _ => .error "Partition rank does not match tensor rank"

/-- A kernel with the arguments of its launch. -/
inductive Launch (α : Type) where
  | timestep (output input rhs : Tensor) (height width : ℤ) (omega hSquared : α)
  | jacobi (output : Tensor) (views : ReadViews) (rhs : Tensor) (omega hSquared : α)
  | laplacian (output : Tensor) (views : ReadViews) (inverseHSquared : α)
deriving DecidableEq, Repr

namespace Launch

variable {α : Type}

def output : Launch α → Tensor
  | timestep output .. | jacobi output .. | laplacian output .. => output

/-- The tensors that the launch reads. -/
def inputs : Launch α → List Tensor
  | timestep _ input rhs .. => [input, rhs]
  | jacobi _ views rhs .. => views.all.map (·.base) ++ [rhs]
  | laplacian _ views .. => views.all.map (·.base)

/-- The edge of the output partition. -/
def edge : Launch α → ℕ
  | timestep .. => 1
  | jacobi .. | laplacian .. => tile

def grid (l : Launch α) : Except String (ℕ × ℕ) :=
  partitionLaunchGrid l.output.shape (l.edge, l.edge)

variable [Scalar α]

/-- The program of block `id`. -/
def block : Launch α → ℕ × ℕ → Block α
  | timestep output input rhs height width omega hSquared =>
    Kernel.timestep output.view input.view rhs.view height width omega hSquared
  | jacobi output views rhs omega hSquared =>
    Kernel.jacobi output.view views.center views.north views.south views.east views.west rhs.view
      omega hSquared
  | laplacian output views inverseHSquared =>
    Kernel.laplacian output.view views.center views.north views.south views.east views.west
      inverseHSquared

/-- One program for each block of the launch grid. -/
def blocks (l : Launch α) : List (Block α) :=
  match l.grid with
  | .ok (rows, columns) => (positions rows columns).map l.block
  | .error _ => []

end Launch

/-! ### Windows of a row-major allocation -/

/-- A view whose rows lie `cols` apart in its base, from `origin` on. -/
structure TensorView.Window (v : TensorView) (origin : ℕ × ℕ) (cols : ℕ) (extent : ℕ × ℕ) :
    Prop where
  offset_eq : v.offset = Tiling.offset cols origin
  shape_eq : v.shape = [(extent.1 : ℤ), (extent.2 : ℤ)]
  strides_eq : v.strides = [(cols : ℤ), 1]

section Windows

variable {α : Type} {v : TensorView} {origin extent : ℕ × ℕ} {cols edge : ℕ} {m : Addr → α}

/-- The contents of a row-major allocation as a grid. -/
def gridOf (m : Addr → α) (t : Tensor) (cols : ℕ) (x : ℕ × ℕ) : α := m (t.storage.id, offset cols x)

theorem Tensor.RowMajor.window {t : Tensor} (h : t.RowMajor extent) :
    t.view.Window (0, 0) extent.2 extent := by
  refine ⟨?_, h.shape_eq, h.strides_eq⟩
  simp [Tensor.view, Tiling.offset]

theorem TensorView.Window.element_eq (h : v.Window origin cols extent) (x : ℕ × ℕ) :
    v.element x.1 x.2 = if inside extent.1 extent.2 x
      then some (v.base.storage.id, Tiling.offset cols (origin.1 + x.1, origin.2 + x.2)) else none := by
  have hoff : ((Tiling.offset cols origin : ℤ) + x.1 * cols + x.2 * 1).toNat =
      Tiling.offset cols (origin.1 + x.1, origin.2 + x.2) := by
    simp only [Tiling.offset, Nat.add_mul]
    push_cast
    omega
  simp only [element, h.shape_eq, h.strides_eq, h.offset_eq, hoff, inside, Bool.and_eq_true,
    decide_eq_true_eq]
  by_cases hin : x.1 < extent.1 ∧ x.2 < extent.2
  · rw [if_pos (by omega), if_pos hin]
  · rw [if_neg (by omega), if_neg hin]

theorem TensorView.Window.lane_eq (h : v.Window origin cols extent) (b l : ℕ × ℕ) :
    v.lane edge (b.1, b.2) l = if inside extent.1 extent.2 (cell edge b l)
      then some (v.base.storage.id,
        Tiling.offset cols (origin.1 + (cell edge b l).1, origin.2 + (cell edge b l).2)) else none := by
  rw [← h.element_eq]
  simp [lane, cell]

variable {b l : ℕ × ℕ} {a : Addr}

/-- The base of a window has room for it. -/
structure TensorView.Window.Fits (_ : v.Window origin cols extent) (rows : ℕ) : Prop where
  rows_le : origin.1 + extent.1 ≤ rows
  cols_le : origin.2 + extent.2 ≤ cols
  len_eq : v.base.storage.len = rows * cols

/-- Every element of a window is inside its allocation, whatever the index. -/
theorem TensorView.Window.Fits.element_mem {h : v.Window origin cols extent} {rows : ℕ}
    (hfits : h.Fits rows) {row column : ℤ} (ha : v.element row column = some a) :
    a.1 = v.base.storage.id ∧ a.2 < v.base.storage.len := by
  have hrows := hfits.rows_le
  have hcols := hfits.cols_le
  have hpos : 0 ≤ row ∧ 0 ≤ column := by
    simp only [element, h.shape_eq, h.strides_eq] at ha
    split at ha
    · omega
    · cases ha
  have heq := h.element_eq (row.toNat, column.toNat)
  simp only [Int.toNat_of_nonneg hpos.1, Int.toNat_of_nonneg hpos.2] at heq
  rw [heq] at ha
  split at ha
  · next hin =>
    rw [inside_iff] at hin
    obtain rfl := Option.some.inj ha
    refine ⟨rfl, ?_⟩
    rw [hfits.len_eq]
    exact offset_lt ⟨by simp only at hin ⊢; omega, by simp only at hin ⊢; omega⟩
  · cases ha

variable [Scalar α]

theorem TensorView.Window.result_loadTile (h : v.Window origin cols extent)
    (hl : l ∈ positions edge edge) (hin : inside extent.1 extent.2 (cell edge b l) = true) :
    (v.loadTile edge (b.1, b.2)).result m l = m (v.base.storage.id,
      Tiling.offset cols (origin.1 + (cell edge b l).1, origin.2 + (cell edge b l).2)) := by
  refine (congrFun Prog.result_gather l).trans ?_
  simp only [if_pos hl, h.lane_eq, if_pos hin, Option.elim_some]

theorem TensorView.Window.Fits.mem_loads {h : v.Window origin cols extent} {rows : ℕ}
    (hfits : h.Fits rows) {index : ℤ × ℤ}
    (ha : a ∈ (v.loadTile edge index : Prog Addr α _).loads m) :
    a.1 = v.base.storage.id ∧ a.2 < v.base.storage.len := by
  rw [loadTile, Prog.loads_gather, List.mem_filterMap] at ha
  obtain ⟨l, -, hl⟩ := ha
  exact hfits.element_mem hl

omit [Scalar α] in
/-- A block stores the cells that it covers, each once. -/
theorem TensorView.Window.stores_store {value : Tile α} {f : ℕ × ℕ → α}
    (h : v.Window (0, 0) cols extent)
    (hvalue : ∀ l ∈ positions edge edge, inside extent.1 extent.2 (cell edge b l) = true →
      value l = f (cell edge b l)) :
    (v.store edge (b.1, b.2) value).stores m = (covered edge extent.1 extent.2 b).map
      fun x => ((v.base.storage.id, Tiling.offset cols x), f x) := by
  rw [store, Prog.stores_scatter, ← filterMap_positions]
  refine List.filterMap_congr fun l hl => ?_
  rw [h.lane_eq]
  split
  · next hin => simp [hvalue l hl hin]
  · rfl

end Windows
end Gudra
