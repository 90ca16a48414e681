import Mathlib.Tactic
import Mathlib.Data.List.ProdSigma

/-! Row-major enumeration of a rectangle, whole or by square tiles with ragged edges. -/
namespace Tiling

/-- The positions of a `rows` by `cols` rectangle, row by row. -/
def positions (rows cols : ℕ) : List (ℕ × ℕ) := (List.range rows) ×ˢ (List.range cols)

/-- The cell that lane `l` of block `b` stands for. -/
def cell (edge : ℕ) (b l : ℕ × ℕ) : ℕ × ℕ := (b.1 * edge + l.1, b.2 * edge + l.2)

def inside (rows cols : ℕ) (x : ℕ × ℕ) : Bool := decide (x.1 < rows) && decide (x.2 < cols)

/-- The cells of block `b` that lie inside the rectangle. -/
def covered (edge rows cols : ℕ) (b : ℕ × ℕ) : List (ℕ × ℕ) :=
  ((positions edge edge).map (cell edge b)).filter (inside rows cols)

variable {edge rows cols : ℕ} {b b' x : ℕ × ℕ}

@[simp] theorem mem_positions : x ∈ positions rows cols ↔ x.1 < rows ∧ x.2 < cols := by
  obtain ⟨r, c⟩ := x
  simp [positions]

theorem nodup_positions : (positions rows cols).Nodup :=
  List.nodup_range.product List.nodup_range

@[simp] theorem inside_iff : inside rows cols x = true ↔ x.1 < rows ∧ x.2 < cols := by
  simp [inside]

theorem cell_injective (b : ℕ × ℕ) : Function.Injective (cell edge b) := by
  rintro ⟨i, j⟩ ⟨k, l⟩ h
  simpa [cell] using h

theorem cell_block (l : ℕ × ℕ) (h : l.1 < edge ∧ l.2 < edge) :
    ((cell edge b l).1 / edge, (cell edge b l).2 / edge) = b := by
  obtain ⟨i, j⟩ := l
  have hpos : 0 < edge := by omega
  simp [cell, Nat.mul_comm _ edge, Nat.mul_add_div hpos, Nat.div_eq_of_lt h.1,
    Nat.div_eq_of_lt h.2]

theorem cell_div_mod : cell edge (x.1 / edge, x.2 / edge) (x.1 % edge, x.2 % edge) = x := by
  simp [cell, Nat.div_add_mod']

theorem mem_covered (hpos : 0 < edge) :
    x ∈ covered edge rows cols b ↔ (x.1 / edge, x.2 / edge) = b ∧ x.1 < rows ∧ x.2 < cols := by
  simp only [covered, List.mem_filter, List.mem_map, inside_iff, mem_positions]
  constructor
  · rintro ⟨⟨l, hl, rfl⟩, hin⟩
    exact ⟨cell_block l hl, hin⟩
  · rintro ⟨rfl, hin⟩
    exact ⟨⟨_, ⟨Nat.mod_lt _ hpos, Nat.mod_lt _ hpos⟩, cell_div_mod⟩, hin⟩

theorem nodup_covered : (covered edge rows cols b).Nodup :=
  (nodup_positions.map (cell_injective b)).filter _

theorem disjoint_covered (hpos : 0 < edge) (h : b ≠ b') :
    List.Disjoint (covered edge rows cols b) (covered edge rows cols b') := by
  intro x hx hx'
  exact h (((mem_covered hpos).mp hx).1.symm.trans ((mem_covered hpos).mp hx').1)

/-- The blocks of a grid that covers the rectangle visit every cell of it exactly once. -/
theorem covered_perm {blockRows blockCols : ℕ} (hpos : 0 < edge)
    (hrows : rows ≤ blockRows * edge) (hcols : cols ≤ blockCols * edge) :
    ((positions blockRows blockCols).flatMap (covered edge rows cols)).Perm
      (positions rows cols) := by
  rw [List.perm_ext_iff_of_nodup ?_ nodup_positions]
  · intro x
    simp only [List.mem_flatMap, mem_covered hpos, mem_positions]
    constructor
    · rintro ⟨b, -, -, hin⟩
      exact hin
    · intro hin
      refine ⟨_, ⟨?_, ?_⟩, rfl, hin⟩
      · exact Nat.div_lt_of_lt_mul (by rw [Nat.mul_comm]; omega)
      · exact Nat.div_lt_of_lt_mul (by rw [Nat.mul_comm]; omega)
  · rw [List.nodup_flatMap]
    refine ⟨fun b _ => nodup_covered, ?_⟩
    exact nodup_positions.imp fun h => disjoint_covered hpos h

theorem filterMap_cells {β : Type} (f : ℕ × ℕ → ℕ × ℕ) (g : ℕ × ℕ → β) (xs : List (ℕ × ℕ)) :
    xs.filterMap (fun l => if inside rows cols (f l) then some (g (f l)) else none) =
      ((xs.map f).filter (inside rows cols)).map g := by
  induction xs with
  | nil => rfl
  | cons x xs ih =>
    rw [List.filterMap_cons, List.map_cons, List.filter_cons, ih]
    cases inside rows cols (f x) <;> rfl

/-- What the lanes of a block produce, as a map over the cells it covers. -/
theorem filterMap_positions {β : Type} (g : ℕ × ℕ → β) :
    (positions edge edge).filterMap (fun l =>
      if inside rows cols (cell edge b l) then some (g (cell edge b l)) else none) =
      (covered edge rows cols b).map g :=
  filterMap_cells (cell edge b) g _

/-- Row-major offsets of a rectangle of `cols` columns. -/
def offset (cols : ℕ) (x : ℕ × ℕ) : ℕ := x.1 * cols + x.2

theorem offset_injOn {y : ℕ × ℕ} (hx : x.2 < cols) (hy : y.2 < cols)
    (h : offset cols x = offset cols y) : x = y := by
  have hpos : 0 < cols := by omega
  have hdiv := congrArg (· / cols) h
  have hmod := congrArg (· % cols) h
  simp only [offset, Nat.mul_comm _ cols, Nat.mul_add_div hpos, Nat.mul_add_mod,
    Nat.div_eq_of_lt hx, Nat.div_eq_of_lt hy, Nat.mod_eq_of_lt hx, Nat.mod_eq_of_lt hy,
    Nat.add_zero] at hdiv hmod
  exact Prod.ext hdiv hmod

theorem offset_lt (h : x.1 < rows ∧ x.2 < cols) : offset cols x < rows * cols := by
  have hmul : (x.1 + 1) * cols ≤ rows * cols := Nat.mul_le_mul_right cols h.1
  simp only [offset]
  rw [Nat.succ_mul] at hmul
  omega

theorem offset_div_mod (n : ℕ) : offset cols (n / cols, n % cols) = n := by
  simp [offset, Nat.div_add_mod']

/-- Offsets and positions of a rectangle correspond. -/
theorem div_mod_mem {n : ℕ} (h : n < rows * cols) : n / cols < rows ∧ n % cols < cols := by
  have hpos : 0 < cols := by
    rcases Nat.eq_zero_or_pos cols with rfl | hpos
    · simp at h
    · exact hpos
  exact ⟨Nat.div_lt_of_lt_mul (by rwa [Nat.mul_comm]), Nat.mod_lt n hpos⟩

section Lists

variable {α : Type} {index : ℕ × ℕ → ℕ} {f : ℕ × ℕ → α} {xs : List (ℕ × ℕ)} {out : List α}

/-- The values of `f` in row-major order. -/
def table (rows cols : ℕ) (f : ℕ × ℕ → α) : List α := (positions rows cols).map f

theorem positions_eq (rows cols : ℕ) :
    positions rows cols = (List.range (rows * cols)).map fun n => (n / cols, n % cols) := by
  induction rows with
  | zero => simp [positions]
  | succ rows ih =>
    have hsplit : positions (rows + 1) cols =
        positions rows cols ++ (List.range cols).map fun c => (rows, c) := by
      simp [positions, SProd.sprod, List.product, List.range_succ]
    rw [hsplit, ih, Nat.succ_mul, List.range_add, List.map_append, List.map_map]
    congr 1
    refine List.map_congr_left fun c hc => ?_
    have hc := List.mem_range.mp hc
    have hpos : 0 < cols := by omega
    simp [Nat.mul_comm rows, Nat.mul_add_div hpos, Nat.div_eq_of_lt hc, Nat.mod_eq_of_lt hc]

@[simp] theorem length_table : (table rows cols f).length = rows * cols := by
  simp [table, positions_eq]

theorem getElem?_table (h : x.1 < rows ∧ x.2 < cols) :
    (table rows cols f)[offset cols x]? = some (f x) := by
  have hlt := offset_lt h
  have hx : (offset cols x / cols, offset cols x % cols) = x := by
    have hback : offset cols (offset cols x / cols, offset cols x % cols) = offset cols x :=
      offset_div_mod _
    exact offset_injOn (Nat.mod_lt _ (by omega)) h.2 hback
  simp only [table, positions_eq, List.map_map]
  rw [List.getElem?_map, List.getElem?_range hlt]
  simp only [Option.map_some, Function.comp_apply, hx]

/-- Lists that agree at every position of the rectangle are equal. -/
theorem ext_table {l : List α} (hlen : l.length = rows * cols)
    (h : ∀ x, x.1 < rows ∧ x.2 < cols → l[offset cols x]? = some (f x)) :
    l = table rows cols f := by
  refine List.ext_getElem? fun n => ?_
  by_cases hn : n < rows * cols
  · have hin := div_mod_mem hn
    have heq := h (n / cols, n % cols) hin
    rw [← getElem?_table (f := f) hin] at heq
    rwa [offset_div_mod] at heq
  · rw [List.getElem?_eq_none (by omega), List.getElem?_eq_none (by simpa using hn)]

/-- Assigns `f x` at `index x` for each position in turn. -/
def fill (index : ℕ × ℕ → ℕ) (f : ℕ × ℕ → α) (xs : List (ℕ × ℕ)) (out : List α) : List α :=
  xs.foldl (fun out x => out.set (index x) (f x)) out

@[simp] theorem length_fill : (fill index f xs out).length = out.length := by
  induction xs generalizing out with
  | nil => rfl
  | cons x xs ih => exact ih.trans (List.length_set ..)

theorem getElem?_fill_of_ne {n : ℕ} (h : ∀ x ∈ xs, index x ≠ n) :
    (fill index f xs out)[n]? = out[n]? := by
  induction xs generalizing out with
  | nil => rfl
  | cons x xs ih =>
    refine (ih fun y hy => h y (List.mem_cons_of_mem x hy)).trans ?_
    exact List.getElem?_set_ne (h x List.mem_cons_self)

theorem getElem?_fill (hinj : ∀ y ∈ xs, index y = index x → y = x) (hx : x ∈ xs)
    (hlt : index x < out.length) : (fill index f xs out)[index x]? = some (f x) := by
  induction xs generalizing out with
  | nil => exact absurd hx List.not_mem_nil
  | cons y xs ih =>
    by_cases hmem : x ∈ xs
    · refine ih (fun z hz => hinj z (List.mem_cons_of_mem y hz)) hmem ?_
      rwa [List.length_set]
    · obtain rfl : x = y := (List.mem_cons.mp hx).resolve_right hmem
      have hrest : ∀ z ∈ xs, index z ≠ index x := by
        intro z hz he
        exact hmem (hinj z (List.mem_cons_of_mem x hz) he ▸ hz)
      have hset : (fill index f xs (out.set (index x) (f x)))[index x]? =
          (out.set (index x) (f x))[index x]? := getElem?_fill_of_ne hrest
      exact hset.trans (List.getElem?_set_self hlt)

/-- Filling every position in row-major order overwrites the whole list. -/
theorem fill_positions (hlen : out.length = rows * cols) :
    fill (offset cols) f (positions rows cols) out = table rows cols f := by
  refine ext_table (by simp [hlen]) fun x hx => ?_
  refine getElem?_fill ?_ (mem_positions.mpr hx) (hlen ▸ offset_lt hx)
  intro y hy he
  exact offset_injOn (mem_positions.mp hy).2 hx.2 he

end Lists
end Tiling
