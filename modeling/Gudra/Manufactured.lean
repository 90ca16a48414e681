import Gudra.Exact

/-! Sampled cubic polynomials are exact solutions of the discrete Poisson problem. -/
namespace Gudra

open Tiling FivePoint Exact MvPolynomial

variable {P : Platform} {K : Type} [Field K]

/-- On a sampled polynomial of degree at most three the Laplacian is the sum of the second
derivatives, and with it as the RHS the grid stays as it is. -/
theorem manufactured_exact [CharZero K] (shape : Shape2D P) {p : MvPolynomial (Fin 2) K}
    (hp : p.totalDegree ≤ 3) {u out : List K} (hu : u.length = shape.haloedLen)
    (hsampled : ∀ x, Visible shape.interior x →
      valueAt (shape.width + 2) u x = eval ![(x.1 : K), (x.2 : K)] p)
    (hout : out.length = shape.interiorLen) {h : K} (hh : h ≠ 0) :
    ∃ lap, laplacianInto shape u (.exact h) out = some (.ok (), lap) ∧
      lap.length = shape.interiorLen ∧
      (∀ row < shape.height, ∀ column < shape.width, lap[row * shape.width + column]? =
        some ((eval ![(row + 1 : K), (column + 1 : K)] (pderiv 0 (pderiv 0 p)) +
          eval ![(row + 1 : K), (column + 1 : K)] (pderiv 1 (pderiv 1 p))) / h)) ∧
      ∀ params : List (JacobiParams K), (∀ q ∈ params, q.hSquared = h) →
        ∀ v, Exact.Produces shape u lap params v ↔ v = u := by
  refine ⟨_, laplacianInto_eq hu hout h, length_table.trans shape.interiorLen_eq.symm, ?_, ?_⟩
  · intro row hrow column hcolumn
    have hin : Inside shape.interior (row + 1, column + 1) :=
      ⟨Nat.succ_pos _, hrow, Nat.succ_pos _, hcolumn⟩
    refine (getElem?_table (x := (row, column)) ⟨hrow, hcolumn⟩).trans (congrArg some ?_)
    rw [difference_sampled hp hsampled hin, secondDerivatives, map_add, mul_one_div]
    simp only [Nat.cast_add, Nat.cast_one]
  · intro params hparams v
    have hrest := produces_self hu hh hparams
    exact ⟨fun hv => hv.unique hrest, fun hv => hv ▸ hrest⟩

/-- `row² + 2 column²` around a single cell, with other values in the corners. -/
theorem manufactured_exact_cell :
    ∃ lap, laplacianInto Shape2D.cell [9, 2, 9, 1, 3, 9, 9, 6, 9] (.exact (2 : ℚ)) [0] =
        some (.ok (), lap) ∧
      Exact.Produces Shape2D.cell [9, 2, 9, 1, 3, 9, 9, 6, 9] lap [⟨-2, 2⟩, ⟨1 / 2, 2⟩]
        [9, 2, 9, 1, 3, 9, 9, 6, 9] := by
  have hdegree : (X 0 ^ 2 + C 2 * X 1 ^ 2 : MvPolynomial (Fin 2) ℚ).totalDegree ≤ 3 := by
    refine (totalDegree_add _ _).trans (max_le ?_ ?_)
    · rw [totalDegree_X_pow]
      norm_num
    · refine (totalDegree_mul _ _).trans ?_
      rw [totalDegree_C, totalDegree_X_pow]
      norm_num
  have hsampled : ∀ x, Visible Shape2D.cell.interior x →
      valueAt 3 [9, 2, 9, 1, 3, 9, 9, 6, 9] x =
        eval ![(x.1 : ℚ), (x.2 : ℚ)] (X 0 ^ 2 + C 2 * X 1 ^ 2 : MvPolynomial (Fin 2) ℚ) := by
    rintro ⟨row, column⟩ ⟨hrow, hcolumn, hside⟩
    change row ≤ 2 at hrow
    change column ≤ 2 at hcolumn
    change 0 < row ∧ row ≤ 1 ∨ 0 < column ∧ column ≤ 1 at hside
    simp only [map_add, map_mul, map_pow, eval_X, eval_C, Matrix.cons_val_zero,
      Matrix.cons_val_one]
    interval_cases row <;> interval_cases column <;>
      first | omega | norm_num [valueAt, offset]
  obtain ⟨lap, hlap, -, -, hrest⟩ := manufactured_exact Shape2D.cell hdegree rfl hsampled
    (rfl : [(0 : ℚ)].length = _) two_ne_zero
  exact ⟨lap, hlap, (hrest _ (by simp) _).mpr rfl⟩

end Gudra
