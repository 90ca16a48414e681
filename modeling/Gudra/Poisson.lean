import Gudra.Exact

/-! Jacobi and Laplacian over exact arithmetic: one Poisson problem and its residual. -/
namespace Gudra

open Tiling Relaxation FivePoint Exact

variable {P : Platform} {K : Type} [Field K]

namespace Exact

variable {shape : Shape2D P} {u f v lap : List K} {x : ℕ × ℕ} {h : K}

/-- An interior with a zero halo around it. -/
def zeroHalo (shape : Shape2D P) (interior : List K) : List K :=
  table (shape.height + 2) (shape.width + 2) fun x =>
    if Inside shape.interior x then valueAt shape.width interior (x.1 - 1, x.2 - 1) else 0

/-- Cell by cell what is missing to the RHS. -/
def defect (lap f : List K) : List K := List.zipWith (· - ·) lap f

theorem valueAt_defect (hlap : lap.length = shape.height * shape.width)
    (hf : f.length = shape.height * shape.width) (hx : x.1 < shape.height ∧ x.2 < shape.width) :
    valueAt shape.width (defect lap f) x = valueAt shape.width lap x - valueAt shape.width f x := by
  rw [valueAt, defect, List.getD_eq_getElem?_getD, List.getElem?_zipWith, getElem?_valueAt hlap hx,
    getElem?_valueAt hf hx]
  rfl

theorem valueAt_zeros (x : ℕ × ℕ) :
    valueAt shape.width (List.replicate shape.interiorLen (0 : K)) x = 0 := by
  rw [valueAt, List.getD_eq_getElem?_getD, List.getElem?_replicate]
  split <;> rfl

/-- The defect in its zero halo is the residual of the equation. -/
theorem valueAt_zeroHalo (hf : f.length = shape.height * shape.width)
    (hx : InBounds shape.interior x) :
    valueAt (shape.width + 2) (zeroHalo shape (defect (table shape.height shape.width fun x =>
      difference (valueAt (shape.width + 2) u) (x.1 + 1, x.2 + 1) * (1 / h)) f)) x =
      residual shape.interior h (valueAt (shape.width + 2) u) (forcing shape.width f) x := by
  have hbounds : x.1 < shape.height + 2 ∧ x.2 < shape.width + 2 := hx
  rw [zeroHalo, valueAt_table hbounds, FivePoint.residual]
  by_cases hin : Inside shape.interior x
  · obtain ⟨h1, h2, hx⟩ := inside_pred hin
    rw [if_pos hin, if_pos hin, valueAt_defect length_table hf ⟨h1, h2⟩, valueAt_table ⟨h1, h2⟩, hx]
    rfl
  · rw [if_neg hin, if_neg hin]

end Exact

/-- Jacobi and Laplacian describe one Poisson problem: the update is the centre moved by a share of
the residual, a grid is at rest iff its residual vanishes, and the residual itself evolves by steps
without forcing and with a zero halo. -/
theorem one_poisson_problem [CharZero K] (shape : Shape2D P) {u f out : List K}
    (hu : u.length = shape.haloedLen) (hf : f.length = shape.interiorLen)
    (hout : out.length = shape.interiorLen) {h : K} (hh : h ≠ 0) :
    ∃ lap, laplacianInto shape u (.exact h) out = some (.ok (), lap) ∧
      lap.length = shape.interiorLen ∧
      (∀ omega, ∃ jac, jacobiInto shape u f ⟨omega, h⟩ out = some (.ok (), jac) ∧
        jac.length = shape.interiorLen ∧
        ∀ x : ℕ × ℕ, x.1 < shape.height ∧ x.2 < shape.width →
          valueAt shape.width jac x = valueAt (shape.width + 2) u (x.1 + 1, x.2 + 1) +
            omega * h / 4 * (valueAt shape.width lap x - valueAt shape.width f x)) ∧
      (∀ omega ≠ 0, Exact.Produces shape u f [⟨omega, h⟩] u ↔ lap = f) ∧
      ∀ omegas : List K, ∀ v, Exact.Produces shape u f (omegas.map (⟨·, h⟩)) v →
        ∃ lap', laplacianInto shape v (.exact h) out = some (.ok (), lap') ∧
          Exact.Produces shape (zeroHalo shape (defect lap f)) (List.replicate shape.interiorLen 0)
            (omegas.map (⟨·, h⟩)) (zeroHalo shape (defect lap' f)) := by
  have hf' := hf.trans shape.interiorLen_eq
  refine ⟨_, laplacianInto_eq hu hout h, length_table.trans shape.interiorLen_eq.symm, ?_, ?_, ?_⟩
  · intro omega
    refine ⟨_, jacobiInto_eq hu hf hout _, length_table.trans shape.interiorLen_eq.symm, ?_⟩
    intro x hx
    rw [valueAt_table hx, valueAt_table hx, update_eq hh]
    rfl
  · intro omega ho
    constructor
    · intro hrest
      refine eq_of_values length_table hf' fun x hx => ?_
      have hin : Inside shape.interior (x.1 + 1, x.2 + 1) :=
        ⟨Nat.succ_pos _, hx.1, Nat.succ_pos _, hx.2⟩
      have hfixed := (step_fixed hh ho).mp (hrest.valueAt_eq hin.visible.inBounds).symm
      rw [FivePoint.residual, if_pos hin, sub_eq_zero] at hfixed
      rw [valueAt_table hx]
      exact hfixed
    · rintro rfl
      exact produces_self hu hh (by simp)
  · intro omegas v hv
    obtain ⟨-, -, hlen⟩ := hv.lengths
    refine ⟨_, laplacianInto_eq (hlen.trans shape.haloedLen_eq.symm) hout h, ?_⟩
    have hzero : (zeroHalo shape (defect (table shape.height shape.width fun x =>
        difference (valueAt (shape.width + 2) u) (x.1 + 1, x.2 + 1) * (1 / h)) f)).length =
        shape.haloedLen := length_table.trans shape.haloedLen_eq.symm
    rw [produces_iff hzero List.length_replicate]
    refine ⟨length_table, fun x hx => ?_⟩
    rw [valueAt_zeroHalo hf' hx, residual_congr fun y hy => hv.valueAt_eq hy.inBounds,
      residual_run (by simp) hh]
    refine run_congr (fun y hy => (valueAt_zeroHalo hf' hy).symm) (fun y _ => ?_) hx
    exact (valueAt_zeros _).symm

/-- A single cell at rest. -/
theorem one_poisson_problem_cell :
    Exact.Produces Shape2D.cell [0, 1, 0, 2, 3, 4, 0, 5, 0] [(0 : ℚ)] [⟨1 / 2, 1⟩]
      [0, 1, 0, 2, 3, 4, 0, 5, 0] := by
  obtain ⟨lap, hlap, -, -, hrest, -⟩ := one_poisson_problem Shape2D.cell
    (u := [0, 1, 0, 2, 3, 4, 0, 5, 0]) (f := [(0 : ℚ)]) (h := 1) rfl rfl
    (rfl : [(0 : ℚ)].length = _) one_ne_zero
  have heval : laplacianInto Shape2D.cell [0, 1, 0, 2, 3, 4, 0, 5, 0] (.exact (1 : ℚ)) [0] =
      some (.ok (), [0]) := by decide +kernel
  rw [heval, Option.some.injEq, Prod.mk.injEq] at hlap
  exact (hrest (1 / 2) (by norm_num)).mpr hlap.2.symm

end Gudra
