import Gudra.Shape
import Gudra.Lib.Tiling

/-! The scalar CPU oracle (`reference.rs`) and its coefficients (`params.rs`). -/
namespace Gudra

open Tiling

/-- Uninterpreted arithmetic with the constants that the sources name. -/
class Scalar (α : Type) extends Add α, Sub α, Mul α where
  zero : α
  one : α
  quarter : α
  four : α

/-- Exact arithmetic. -/
instance : Scalar ℚ where
  zero := 0
  one := 1
  quarter := 1 / 4
  four := 4

/-- Coefficients as stored; no result depends on their domain. -/
structure JacobiParams (α : Type) where
  omega : α
  hSquared : α
deriving DecidableEq, Repr

structure LaplacianParams (α : Type) where
  inverseHSquared : α
deriving DecidableEq, Repr

namespace Reference

variable {α : Type} [Scalar α] {P : Platform}

/-- Code that writes one output slice; `none` is an overflow or an index out of bounds. -/
abbrev Slice (α : Type) := Checked (List α)

/-- `output[index] = value` -/
def assign (index : ℕ) (value : α) : Slice α Unit := do
  let output ← get
  if index < output.length then set (output.set index value) else (none : Option Unit)

/-- `(row + 1) * stride + column + 1` -/
def sourceIndex (P : Platform) (stride row column : ℕ) : Option ℕ := do
  P.checkedAdd (← P.checkedAdd (← P.checkedMul (← P.checkedAdd row 1) stride) column) 1

/-- `row * width + column` -/
def cellIndex (P : Platform) (width row column : ℕ) : Option ℕ := do
  P.checkedAdd (← P.checkedMul row width) column

/-- `reference::jacobi_into` -/
def jacobiInto (shape : Shape2D P) (haloed rhs : List α) (params : JacobiParams α) :
    Slice α Unit := do
  checkLen "source" shape.haloedLen haloed.length
  checkLen "rhs" shape.interiorLen rhs.length
  checkLen "output" shape.interiorLen (← get).length
  let stride ← P.checkedAdd shape.width 2
  (List.range shape.height).forM fun row =>
    (List.range shape.width).forM fun column => do
      let index ← sourceIndex P stride row column
      let cell ← cellIndex P shape.width row column
      let north ← haloed[← checkedSub index stride]?
      let south ← haloed[← P.checkedAdd index stride]?
      let east ← haloed[← P.checkedAdd index 1]?
      let west ← haloed[← checkedSub index 1]?
      let forcing ← rhs[cell]?
      let candidate := Scalar.quarter *
        (north + south + east + west - params.hSquared * forcing)
      let center ← haloed[index]?
      assign cell ((Scalar.one - params.omega) * center + params.omega * candidate)

/-- `reference::laplacian_into` -/
def laplacianInto (shape : Shape2D P) (haloed : List α) (params : LaplacianParams α) :
    Slice α Unit := do
  checkLen "source" shape.haloedLen haloed.length
  checkLen "output" shape.interiorLen (← get).length
  let stride ← P.checkedAdd shape.width 2
  (List.range shape.height).forM fun row =>
    (List.range shape.width).forM fun column => do
      let index ← sourceIndex P stride row column
      let cell ← cellIndex P shape.width row column
      let north ← haloed[← checkedSub index stride]?
      let south ← haloed[← P.checkedAdd index stride]?
      let east ← haloed[← P.checkedAdd index 1]?
      let west ← haloed[← checkedSub index 1]?
      let center ← haloed[index]?
      assign cell ((north + south + east + west - Scalar.four * center) * params.inverseHSquared)

/-! ### The stencils as functions of a grid -/

/-- The value at a row-major position. -/
def at_ (cols : ℕ) (l : List α) (x : ℕ × ℕ) : α := l.getD (offset cols x) Scalar.zero

def north (u : ℕ × ℕ → α) (x : ℕ × ℕ) : α := u (x.1, x.2 + 1)

def south (u : ℕ × ℕ → α) (x : ℕ × ℕ) : α := u (x.1 + 2, x.2 + 1)

def east (u : ℕ × ℕ → α) (x : ℕ × ℕ) : α := u (x.1 + 1, x.2 + 2)

def west (u : ℕ × ℕ → α) (x : ℕ × ℕ) : α := u (x.1 + 1, x.2)

def center (u : ℕ × ℕ → α) (x : ℕ × ℕ) : α := u (x.1 + 1, x.2 + 1)

/-- The weighted update of interior cell `x` from the haloed grid `u`. -/
def jacobiCell (params : JacobiParams α) (u rhs : ℕ × ℕ → α) (x : ℕ × ℕ) : α :=
  (Scalar.one - params.omega) * center u x + params.omega * (Scalar.quarter *
    (north u x + south u x + east u x + west u x - params.hSquared * rhs x))

def laplacianCell (params : LaplacianParams α) (u : ℕ × ℕ → α) (x : ℕ × ℕ) : α :=
  (north u x + south u x + east u x + west u x - Scalar.four * center u x) *
    params.inverseHSquared

/-- One cell of the haloed grid after a timestep: the halo keeps its value. -/
def timestepCell (extent : ℕ × ℕ) (params : JacobiParams α) (u rhs : ℕ × ℕ → α)
    (x : ℕ × ℕ) : α :=
  if 0 < x.1 ∧ x.1 ≤ extent.1 ∧ 0 < x.2 ∧ x.2 ≤ extent.2 then
    jacobiCell params u rhs (x.1 - 1, x.2 - 1)
  else u x

/-- All cells of an interior `extent` after one update. -/
def jacobi (extent : ℕ × ℕ) (params : JacobiParams α) (haloed rhs : List α) : List α :=
  table extent.1 extent.2 (jacobiCell params (at_ (extent.2 + 2) haloed) (at_ extent.2 rhs))

def laplacian (extent : ℕ × ℕ) (params : LaplacianParams α) (haloed : List α) : List α :=
  table extent.1 extent.2 (laplacianCell params (at_ (extent.2 + 2) haloed))

/-- The haloed grid around an interior `extent` after a timestep. -/
def timestep (extent : ℕ × ℕ) (params : JacobiParams α) (haloed rhs : List α) : List α :=
  table (extent.1 + 2) (extent.2 + 2)
    (timestepCell extent params (at_ (extent.2 + 2) haloed) (at_ extent.2 rhs))

section Indices

variable {shape : Shape2D P} {x : ℕ × ℕ} {haloed rhs out : List α}

theorem getElem?_at {rows cols : ℕ} (hlen : haloed.length = rows * cols)
    (h : x.1 < rows ∧ x.2 < cols) : haloed[offset cols x]? = some (at_ cols haloed x) := by
  have hlt : offset cols x < haloed.length := hlen ▸ offset_lt h
  simp [at_, List.getD, List.getElem?_eq_getElem hlt]

theorem at_table {rows cols : ℕ} {f : ℕ × ℕ → α} (h : x.1 < rows ∧ x.2 < cols) :
    at_ cols (table rows cols f) x = f x := by
  simp [at_, List.getD, getElem?_table h]

theorem haloed_offset_lt (shape : Shape2D P) {y : ℕ × ℕ}
    (hy : y.1 < shape.height + 2 ∧ y.2 < shape.width + 2) :
    offset (shape.width + 2) y < P.usizeMax := by
  have hlt := offset_lt hy
  have hmax := i32Max_le_usizeMax P
  have hle := shape.haloedLen_le
  rw [shape.haloedLen_eq] at hle
  omega

section Rows

variable {stride row column : ℕ}

theorem north_index :
    checkedSub (offset stride (row + 1, column)) stride = some (offset stride (row, column)) :=
  checkedSub_eq (by simp only [offset, Nat.succ_mul]; omega)

theorem west_index :
    checkedSub (offset stride (row, column + 1)) 1 = some (offset stride (row, column)) :=
  checkedSub_eq rfl

theorem south_index (h : offset stride (row + 1, column) ≤ P.usizeMax) :
    P.checkedAdd (offset stride (row, column)) stride = some (offset stride (row + 1, column)) :=
  checkedAdd_eq (by simp only [offset, Nat.succ_mul]; omega) h

theorem east_index (h : offset stride (row, column + 1) ≤ P.usizeMax) :
    P.checkedAdd (offset stride (row, column)) 1 = some (offset stride (row, column + 1)) :=
  checkedAdd_eq rfl h

end Rows

variable (hx : x.1 < shape.height ∧ x.2 < shape.width)
include hx

theorem sourceIndex_eq : sourceIndex P (shape.width + 2) x.1 x.2 =
    some (offset (shape.width + 2) (x.1 + 1, x.2 + 1)) := by
  have hlt := haloed_offset_lt shape (y := (x.1 + 1, x.2 + 1)) (by simp; omega)
  simp only [offset] at hlt
  have hmul : x.1 + 1 ≤ (x.1 + 1) * (shape.width + 2) := Nat.le_mul_of_pos_right _ (by omega)
  have h1 : P.checkedAdd x.1 1 = some (x.1 + 1) := checkedAdd_eq rfl (by omega)
  have h2 : P.checkedMul (x.1 + 1) (shape.width + 2) = some ((x.1 + 1) * (shape.width + 2)) :=
    checkedMul_eq rfl (by omega)
  have h3 : P.checkedAdd ((x.1 + 1) * (shape.width + 2)) x.2 =
      some ((x.1 + 1) * (shape.width + 2) + x.2) := checkedAdd_eq rfl (by omega)
  simp only [sourceIndex, h1, h2, h3, Option.bind_eq_bind, Option.bind_some]
  refine checkedAdd_eq rfl ?_
  simp only [offset]
  omega

theorem cellIndex_eq : cellIndex P shape.width x.1 x.2 = some (offset shape.width x) := by
  have hlt := haloed_offset_lt shape (y := x) (by omega)
  simp only [offset] at hlt
  have hmul : x.1 * shape.width ≤ x.1 * (shape.width + 2) := Nat.mul_le_mul_left _ (by omega)
  have h1 : P.checkedMul x.1 shape.width = some (x.1 * shape.width) :=
    checkedMul_eq rfl (by omega)
  simp only [cellIndex, h1, Option.bind_eq_bind, Option.bind_some]
  refine checkedAdd_eq rfl ?_
  simp only [offset]
  omega

omit [Scalar α] in
theorem assign_eq {v : α} (hlen : out.length = shape.height * shape.width) :
    assign (offset shape.width x) v out = some (.ok (), out.set (offset shape.width x) v) := by
  have hlt : offset shape.width x < out.length := hlen ▸ offset_lt hx
  simp only [assign, Checked.get_bind, hlt, if_true]
  rfl

end Indices

section Loops

variable {β : Type} {index : ℕ × ℕ → ℕ} {f : ℕ × ℕ → α} {out : List α}

omit [Scalar α] in
theorem fill_append (xs ys : List (ℕ × ℕ)) :
    fill index f (xs ++ ys) out = fill index f ys (fill index f xs out) :=
  List.foldl_append ..

omit [Scalar α] in
/-- A loop whose every round assigns the cells that belong to it. -/
theorem forM_fill {n : ℕ} {body : β → Slice α Unit} {cells : β → List (ℕ × ℕ)} (xs : List β)
    (hbody : ∀ x ∈ xs, ∀ out : List α, out.length = n →
      body x out = some (.ok (), fill index f (cells x) out))
    (hlen : out.length = n) :
    (xs.forM body) out = some (.ok (), fill index f (xs.flatMap cells) out) := by
  induction xs generalizing out with
  | nil => rfl
  | cons x xs ih =>
    have hx := hbody x List.mem_cons_self out hlen
    rw [List.flatMap_cons, fill_append]
    refine (Checked.bind_of_ok hx).trans (ih ?_ ?_)
    · exact fun y hy => hbody y (List.mem_cons_of_mem x hy)
    · rw [length_fill, hlen]

end Loops

section Runs

variable {shape : Shape2D P} {haloed rhs out : List α}

theorem rows_flatMap (rows cols : ℕ) :
    ((List.range rows).flatMap fun row => (List.range cols).flatMap fun column => [(row, column)])
      = positions rows cols := by
  simp [positions, SProd.sprod, List.product, List.map_eq_flatMap]

omit [Scalar α] in
/-- The nested loop over all cells, given what one round assigns. -/
theorem cells_fill {body : ℕ → ℕ → Slice α Unit} {f : ℕ × ℕ → α}
    (hbody : ∀ x : ℕ × ℕ, x.1 < shape.height ∧ x.2 < shape.width → ∀ out : List α,
      out.length = shape.height * shape.width →
      body x.1 x.2 out = some (.ok (), out.set (offset shape.width x) (f x)))
    (hlen : out.length = shape.height * shape.width) :
    ((List.range shape.height).forM fun row => (List.range shape.width).forM (body row)) out =
      some (.ok (), table shape.height shape.width f) := by
  rw [← fill_positions hlen, ← rows_flatMap]
  refine forM_fill _ ?_ hlen
  intro row hrow out hlen
  refine forM_fill _ ?_ hlen
  intro column hcolumn out hlen
  exact hbody (row, column) ⟨List.mem_range.mp hrow, List.mem_range.mp hcolumn⟩ out hlen

theorem stride_eq (shape : Shape2D P) : P.checkedAdd shape.width 2 = some (shape.width + 2) := by
  have hmax := i32Max_le_usizeMax P
  have hle := shape.haloedLen_le
  have hw := shape.haloed_width_le
  exact checkedAdd_eq rfl (by omega)

variable (hsource : haloed.length = shape.haloedLen) (hout : out.length = shape.interiorLen)
include hsource hout

/-- With the right lengths every output cell gets the weighted update. -/
theorem jacobiInto_eq (hrhs : rhs.length = shape.interiorLen) (params : JacobiParams α) :
    jacobiInto shape haloed rhs params out = some (.ok (), jacobi shape.interior params haloed rhs) := by
  have hlen := hout.trans shape.interiorLen_eq
  simp only [jacobiInto, checkLen_eq_ok.mpr hsource, checkLen_eq_ok.mpr hrhs,
    checkLen_eq_ok.mpr hout, stride_eq,
    Checked.lift_ok_bind, Checked.lift_some_bind, Checked.get_bind]
  refine cells_fill ?_ hlen
  intro x hx out hlen
  have hget := fun y h => getElem?_at (hsource.trans shape.haloedLen_eq) (x := y) h
  simp only [sourceIndex_eq hx, cellIndex_eq hx, Checked.lift_some_bind, north_index, west_index,
    south_index (haloed_offset_lt shape (y := (x.1 + 1 + 1, x.2 + 1)) (by simp; omega)).le,
    east_index (haloed_offset_lt shape (y := (x.1 + 1, x.2 + 1 + 1)) (by simp; omega)).le,
    hget (x.1, x.2 + 1) (by simp; omega), hget (x.1 + 1 + 1, x.2 + 1) (by simp; omega),
    hget (x.1 + 1, x.2 + 1 + 1) (by simp; omega), hget (x.1 + 1, x.2) (by simp; omega),
    hget (x.1 + 1, x.2 + 1) (by simp; omega),
    getElem?_at (hrhs.trans shape.interiorLen_eq) hx]
  exact assign_eq hx hlen

theorem laplacianInto_eq (params : LaplacianParams α) :
    laplacianInto shape haloed params out = some (.ok (), laplacian shape.interior params haloed) := by
  have hlen := hout.trans shape.interiorLen_eq
  simp only [laplacianInto, checkLen_eq_ok.mpr hsource, checkLen_eq_ok.mpr hout, stride_eq,
    Checked.lift_ok_bind, Checked.lift_some_bind, Checked.get_bind]
  refine cells_fill ?_ hlen
  intro x hx out hlen
  have hget := fun y h => getElem?_at (hsource.trans shape.haloedLen_eq) (x := y) h
  simp only [sourceIndex_eq hx, cellIndex_eq hx, Checked.lift_some_bind, north_index, west_index,
    south_index (haloed_offset_lt shape (y := (x.1 + 1 + 1, x.2 + 1)) (by simp; omega)).le,
    east_index (haloed_offset_lt shape (y := (x.1 + 1, x.2 + 1 + 1)) (by simp; omega)).le,
    hget (x.1, x.2 + 1) (by simp; omega), hget (x.1 + 1 + 1, x.2 + 1) (by simp; omega),
    hget (x.1 + 1, x.2 + 1 + 1) (by simp; omega), hget (x.1 + 1, x.2) (by simp; omega),
    hget (x.1 + 1, x.2 + 1) (by simp; omega)]
  exact assign_eq hx hlen

end Runs

end Reference
end Gudra
