import Mathlib.Tactic

/-! Checked interior geometry (`shape.rs`) and the errors shared by every operation (`error.rs`). -/
namespace Gudra

/-- The target's pointer width; a `usize` is a natural number up to `usizeMax`. -/
structure Platform where
  width : ℕ
  width_ge : 32 ≤ width

namespace Platform

theorem le_64 : 32 ≤ 64 := by decide

variable (P : Platform)

def usizeMax : ℕ := 2 ^ P.width - 1

def isizeMax : ℕ := 2 ^ (P.width - 1) - 1

/-- A `usize` as the public API receives it. -/
def Usize : Type := { n : ℕ // n ≤ P.usizeMax }

def checkedAdd (a b : ℕ) : Option ℕ := if a + b ≤ P.usizeMax then some (a + b) else none

def checkedMul (a b : ℕ) : Option ℕ := if a * b ≤ P.usizeMax then some (a * b) else none

end Platform

/-- Subtraction fails below zero on every width. -/
def checkedSub (a b : ℕ) : Option ℕ := if b ≤ a then some (a - b) else none

section Arithmetic

variable {P : Platform} {a b c : ℕ}

theorem checkedAdd_eq (h : a + b = c) (hc : c ≤ P.usizeMax) : P.checkedAdd a b = some c := by
  subst h
  exact if_pos hc

theorem checkedMul_eq (h : a * b = c) (hc : c ≤ P.usizeMax) : P.checkedMul a b = some c := by
  subst h
  exact if_pos hc

theorem checkedSub_eq (h : c + b = a) : checkedSub a b = some c := by
  subst h
  simp [checkedSub]

end Arithmetic

def i32Max : ℕ := 2 ^ 31 - 1

def u32Max : ℕ := 2 ^ 32 - 1

def u16Max : ℕ := 2 ^ 16 - 1

/-- `TILE`: the edge of a kernel tile. -/
def tile : ℕ := 16

/-- `MAX_BLOCKS` -/
def maxBlocks : ℕ := 65535

/-- `size_of::<f32>()` -/
def sizeOfF32 : ℕ := 4

/-- The stored fields of a `Shape2D`; only `Shape2D.new` makes a valid one. -/
structure Extents where
  interior : ℕ × ℕ
  haloed : ℕ × ℕ
  interiorLen : ℕ
  haloedLen : ℕ
  interiorBytes : ℕ
  haloedBytes : ℕ
  grid : ℕ × ℕ × ℕ
deriving DecidableEq, Repr

inductive Error where
  | invalidResourceLimits
  | resourceLimit (resource : String) (maximum : ℕ)
  | emptyInterior (axis : String)
  | shapeOverflow (operation : String)
  | shapeLimit (quantity : String) (actual maximum : ℕ)
  | lengthMismatch (buffer : String) (expected actual : ℕ)
  | shapeMismatch (buffer : String) (expected actual : Extents)
  | contextMismatch (buffer : String)
  | invalidBuffer (buffer : String)
  | backend (operation message : String)
deriving DecidableEq, Repr

/-- `ok_or`. -/
def okOr {β : Type} (e : Error) : Option β → Except Error β
  | some b => .ok b
  | none => .error e

theorem okOr_eq_ok {β : Type} {e : Error} {o : Option β} {b : β} :
    okOr e o = .ok b ↔ o = some b := by
  cases o <;> simp [okOr]

theorem bind_eq_ok {β γ : Type} {x : Except Error β} {f : β → Except Error γ} {c : γ} :
    (x >>= f) = .ok c ↔ ∃ b, x = .ok b ∧ f b = .ok c := by
  cases x <;> simp [bind, Except.bind]

theorem bind_eq_error {β γ : Type} {x : Except Error β} {f : β → Except Error γ} {e : Error} :
    (x >>= f) = .error e ↔ x = .error e ∨ ∃ b, x = .ok b ∧ f b = .error e := by
  cases x <;> simp [bind, Except.bind]

/-- Code over a state `σ` that returns a `Result`; `none` is a panic. -/
abbrev Checked (σ : Type) := ExceptT Error (StateT σ Option)

namespace Checked

variable {σ β γ : Type}

@[simp] theorem lift_ok_bind (b : β) (f : β → Checked σ γ) :
    ((liftM (Except.ok b : Except Error β) : Checked σ β) >>= f) = f b := rfl

@[simp] theorem lift_error_bind (e : Error) (f : β → Checked σ γ) :
    ((liftM (Except.error e : Except Error β) : Checked σ β) >>= f) =
      fun u => some (.error e, u) := rfl

@[simp] theorem lift_some_bind (b : β) (f : β → Checked σ γ) :
    ((liftM (some b) : Checked σ β) >>= f) = f b := rfl

theorem get_bind (f : σ → Checked σ γ) (u : σ) : (get >>= f : Checked σ γ) u = f u u := rfl

theorem bind_of_ok {x : Checked σ β} {f : β → Checked σ γ} {u v : σ} {b : β}
    (h : x u = some (.ok b, v)) : (x >>= f : Checked σ γ) u = f b v := by
  change (x u).bind _ = _
  rw [h]
  rfl

end Checked

/-- Code without state that returns a `Result`; `none` is a panic. -/
abbrev Fallible := ExceptT Error Option

namespace Fallible

variable {β γ : Type}

@[simp] theorem lift_ok_bind (b : β) (f : β → Fallible γ) :
    ((liftM (Except.ok b : Except Error β) : Fallible β) >>= f) = f b := rfl

@[simp] theorem lift_some_bind (b : β) (f : β → Fallible γ) :
    ((liftM (some b) : Fallible β) >>= f) = f b := rfl

end Fallible

def checkLen (buffer : String) (expected actual : ℕ) : Except Error Unit :=
  if expected ≠ actual then .error (.lengthMismatch buffer expected actual) else .ok ()

theorem checkLen_eq_ok {buffer : String} {expected actual : ℕ} :
    checkLen buffer expected actual = .ok () ↔ actual = expected := by
  by_cases h : expected = actual
  · simp [checkLen, h]
  · simp [checkLen, h, Ne.symm h]

namespace Shape2D

variable (P : Platform)

def product (left right : ℕ) (operation : String) : Except Error ℕ :=
  okOr (.shapeOverflow operation) (P.checkedMul left right)

def limit (quantity : String) (actual maximum : ℕ) : Except Error Unit :=
  if maximum < actual then .error (.shapeLimit quantity actual maximum) else .ok ()

def elementCount (count : ℕ) : Except Error ℕ :=
  if count ≤ u32Max then .ok count else .error (.shapeLimit "metadata elements" count i32Max)

def blockCount (blocks : ℕ) : Except Error ℕ :=
  if blocks ≤ u16Max then .ok blocks else .error (.shapeLimit "launch blocks" blocks maxBlocks)

def divCeil (a b : ℕ) : ℕ := (a + b - 1) / b

/-- The body of `Shape2D::new`, check by check. -/
def build (height width : ℕ) : Except Error Extents := do
  [("height", height), ("width", width)].forM fun (axis, extent) =>
    if extent = 0 then .error (.emptyInterior axis) else .ok ()
  let haloHeight ← okOr (.shapeOverflow "height + 2") (P.checkedAdd height 2)
  let haloWidth ← okOr (.shapeOverflow "width + 2") (P.checkedAdd width 2)
  let interiorLen ← product P height width "height * width"
  let haloedLen ← product P haloHeight haloWidth "halo height * halo width"
  let interiorBytes ← product P interiorLen sizeOfF32 "interior bytes"
  let haloedBytes ← product P haloedLen sizeOfF32 "haloed bytes"
  limit "interior bytes" interiorBytes P.isizeMax
  limit "haloed bytes" haloedBytes P.isizeMax
  [("height", height), ("width", width), ("halo height", haloHeight), ("halo width", haloWidth),
    ("interior elements", interiorLen), ("haloed elements", haloedLen)].forM
    fun (quantity, actual) => limit quantity actual i32Max
  let blocksY := divCeil height tile
  let blocksX := divCeil width tile
  limit "height blocks" blocksY maxBlocks
  limit "width blocks" blocksX maxBlocks
  let gridY ← blockCount blocksY
  let gridX ← blockCount blocksX
  return {
    interior := (← elementCount height, ← elementCount width)
    haloed := (← elementCount haloHeight, ← elementCount haloWidth)
    interiorLen := ← elementCount interiorLen
    haloedLen := ← elementCount haloedLen
    interiorBytes
    haloedBytes
    grid := (gridY, gridX, 1) }

end Shape2D

/-- What a validated shape promises about its stored fields. -/
structure Extents.Valid (P : Platform) (e : Extents) : Prop where
  height_pos : 0 < e.interior.1
  width_pos : 0 < e.interior.2
  haloed_eq : e.haloed = (e.interior.1 + 2, e.interior.2 + 2)
  interiorLen_eq : e.interiorLen = e.interior.1 * e.interior.2
  haloedLen_eq : e.haloedLen = e.haloed.1 * e.haloed.2
  interiorBytes_eq : e.interiorBytes = e.interiorLen * sizeOfF32
  haloedBytes_eq : e.haloedBytes = e.haloedLen * sizeOfF32
  haloedLen_le : e.haloedLen ≤ i32Max
  haloedBytes_le : e.haloedBytes ≤ P.isizeMax
  grid_eq : e.grid = (Shape2D.divCeil e.interior.1 tile, Shape2D.divCeil e.interior.2 tile, 1)
  blocksY_le : e.grid.1 ≤ maxBlocks
  blocksX_le : e.grid.2.1 ≤ maxBlocks

namespace Shape2D

variable {P : Platform}

theorem product_eq_ok {left right n : ℕ} {operation : String} :
    product P left right operation = .ok n ↔ left * right ≤ P.usizeMax ∧ n = left * right := by
  simp only [product, okOr_eq_ok, Platform.checkedMul]
  split <;> simp_all [eq_comm]

theorem limit_eq_ok {quantity : String} {actual maximum : ℕ} {u : Unit} :
    limit quantity actual maximum = .ok u ↔ actual ≤ maximum := by
  simp only [limit]
  split <;> simp_all

theorem elementCount_eq_ok {count n : ℕ} :
    elementCount count = .ok n ↔ count ≤ u32Max ∧ n = count := by
  simp only [elementCount]
  split <;> simp_all [eq_comm]

theorem blockCount_eq_ok {blocks n : ℕ} :
    blockCount blocks = .ok n ↔ blocks ≤ u16Max ∧ n = blocks := by
  simp only [blockCount]
  split <;> simp_all [eq_comm]

theorem build_valid {height width : ℕ} {e : Extents} (h : build P height width = .ok e) :
    e.Valid P ∧ e.interior = (height, width) := by
  simp only [build, List.forM_eq_forM, List.forM_cons, List.forM_nil, pure, Except.pure,
    bind_eq_ok, okOr_eq_ok, Platform.checkedAdd, product_eq_ok, limit_eq_ok, elementCount_eq_ok,
    blockCount_eq_ok] at h
  simp_all
  obtain ⟨hne, -, -, -, -, -, -, -, hbytes, ⟨-, -, -, -, -, hlen⟩, hy, hx, -, -, -, -, -, -, -, -,
    rfl⟩ := h
  refine ⟨⟨?_, ?_, rfl, rfl, rfl, rfl, rfl, hlen, hbytes, rfl, hy, hx⟩, rfl⟩
  · exact Nat.pos_of_ne_zero hne.1
  · exact Nat.pos_of_ne_zero hne.2

end Shape2D

/-- Validated geometry: the stored fields with the promise that `new` checked. -/
structure Shape2D (P : Platform) extends Extents where
  valid : toExtents.Valid P

namespace Shape2D

variable {P : Platform}

/-- `Shape2D::new` -/
def new (P : Platform) (height width : P.Usize) : Except Error (Shape2D P) :=
  match h : build P height.val width.val with
  | .ok e => .ok ⟨e, (build_valid h).1⟩
  | .error e => .error e

instance : DecidableEq (Shape2D P) := fun a b =>
  decidable_of_iff (a.toExtents = b.toExtents) (by cases a; cases b; simp)

def height (s : Shape2D P) : ℕ := s.interior.1

def width (s : Shape2D P) : ℕ := s.interior.2

variable (s : Shape2D P)

theorem height_pos : 0 < s.height := s.valid.height_pos

theorem width_pos : 0 < s.width := s.valid.width_pos

theorem interior_eq : s.interior = (s.height, s.width) := rfl

theorem haloed_eq : s.haloed = (s.height + 2, s.width + 2) := s.valid.haloed_eq

theorem interiorLen_eq : s.interiorLen = s.height * s.width := s.valid.interiorLen_eq

theorem haloedLen_eq : s.haloedLen = (s.height + 2) * (s.width + 2) := by
  rw [s.valid.haloedLen_eq, haloed_eq]

theorem interiorBytes_eq : s.interiorBytes = s.interiorLen * sizeOfF32 := s.valid.interiorBytes_eq

theorem haloedBytes_eq : s.haloedBytes = s.haloedLen * sizeOfF32 := s.valid.haloedBytes_eq

theorem haloedLen_le : s.haloedLen ≤ i32Max := s.valid.haloedLen_le

theorem interiorLen_le : s.interiorLen ≤ s.haloedLen := by
  rw [interiorLen_eq, haloedLen_eq]
  exact Nat.mul_le_mul (Nat.le_add_right _ _) (Nat.le_add_right _ _)

theorem haloed_height_le : s.height + 2 ≤ s.haloedLen := by
  rw [haloedLen_eq]
  exact Nat.le_mul_of_pos_right _ (Nat.succ_pos _)

theorem haloed_width_le : s.width + 2 ≤ s.haloedLen := by
  rw [haloedLen_eq]
  exact Nat.le_mul_of_pos_left _ (Nat.succ_pos _)

end Shape2D

/-- The smallest shape: one interior cell. -/
def Shape2D.cell : Shape2D ⟨64, Platform.le_64⟩ where
  interior := (1, 1)
  haloed := (3, 3)
  interiorLen := 1
  haloedLen := 9
  interiorBytes := 4
  haloedBytes := 36
  grid := (1, 1, 1)
  valid := by constructor <;> decide

theorem isizeMax_le_usizeMax (P : Platform) : P.isizeMax ≤ P.usizeMax :=
  Nat.sub_le_sub_right (Nat.pow_le_pow_right (by decide) (Nat.sub_le _ _)) _

theorem i32Max_le_usizeMax (P : Platform) : i32Max ≤ P.usizeMax := by
  have h := Nat.pow_le_pow_right (show 0 < 2 by decide) P.width_ge
  simp only [i32Max, Platform.usizeMax]
  omega

end Gudra
