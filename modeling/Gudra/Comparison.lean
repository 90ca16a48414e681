import Gudra.Exact

/-! The comparison principle of the timesteps over an ordered field. -/
namespace Gudra

open Relaxation FivePoint Exact

variable {P : Platform} {K : Type} [Field K] [LinearOrder K] [IsStrictOrderedRing K]

/-- Over- and undershooting is impossible: the runs of averaging timesteps keep their order and
their shifts, stay between the extreme values of their start, and never move apart. -/
theorem comparison_principle (shape : Shape2D P) {params : List (JacobiParams K)}
    {u v f g u' v' : List K}
    (hparams : ∀ p ∈ params, 0 ≤ p.omega ∧ p.omega ≤ 1 ∧ 0 ≤ p.hSquared)
    (hu : Exact.Produces shape u f params u') (hv : Exact.Produces shape v g params v') :
    ((∀ x, Visible shape.interior x → valueAt (shape.width + 2) u x ≤ valueAt (shape.width + 2) v x) →
      (∀ x : ℕ × ℕ, x.1 < shape.height ∧ x.2 < shape.width →
        valueAt shape.width g x ≤ valueAt shape.width f x) →
      ∀ x, Visible shape.interior x →
        valueAt (shape.width + 2) u' x ≤ valueAt (shape.width + 2) v' x) ∧
    (f = g → ∀ d,
      (∀ x, Visible shape.interior x →
        valueAt (shape.width + 2) v x = valueAt (shape.width + 2) u x + d) →
      ∀ x, Visible shape.interior x →
        valueAt (shape.width + 2) v' x = valueAt (shape.width + 2) u' x + d) ∧
    ((∀ x : ℕ × ℕ, x.1 < shape.height ∧ x.2 < shape.width → valueAt shape.width f x = 0) →
      ∃ low high, Visible shape.interior low ∧ Visible shape.interior high ∧
        (∀ x, Visible shape.interior x →
          valueAt (shape.width + 2) u low ≤ valueAt (shape.width + 2) u x ∧
            valueAt (shape.width + 2) u x ≤ valueAt (shape.width + 2) u high) ∧
        ∀ x, Visible shape.interior x →
          valueAt (shape.width + 2) u low ≤ valueAt (shape.width + 2) u' x ∧
            valueAt (shape.width + 2) u' x ≤ valueAt (shape.width + 2) u high) ∧
    (f = g → ∀ init rest w w', params = init ++ rest → Exact.Produces shape u f init w →
      Exact.Produces shape v g init w' → ∀ d,
      ((∀ x, Visible shape.interior x →
        |valueAt (shape.width + 2) w x - valueAt (shape.width + 2) w' x| ≤ d) →
      ∀ x, Visible shape.interior x →
        |valueAt (shape.width + 2) u' x - valueAt (shape.width + 2) v' x| ≤ d) ∧
      ((∀ x, InBounds shape.interior x →
        |valueAt (shape.width + 2) w x - valueAt (shape.width + 2) w' x| ≤ d) →
      ∀ x, InBounds shape.interior x →
        |valueAt (shape.width + 2) u' x - valueAt (shape.width + 2) v' x| ≤ d)) := by
  have hcells : ∀ y, Inside shape.interior y → y.1 - 1 < shape.height ∧ y.2 - 1 < shape.width := by
    rintro y ⟨h1, h2, h3, h4⟩
    rw [shape.interior_eq] at h2 h4
    simp only at h2 h4
    omega
  refine ⟨?_, ?_, ?_, ?_⟩
  · intro hle hforcing x hx
    rw [hu.valueAt_eq hx.inBounds, hv.valueAt_eq hx.inBounds]
    have hrun := run_le (d := 0) (f := forcing shape.width f) (g := forcing shape.width g) hparams
      (fun y hy => (hle y hy).trans_eq (add_zero _).symm)
      (fun y hy => hforcing _ (hcells y hy)) x hx
    rwa [add_zero] at hrun
  · rintro rfl d hshift x hx
    rw [hu.valueAt_eq hx.inBounds, hv.valueAt_eq hx.inBounds]
    exact run_add hshift x hx
  · intro hzero
    have hne : {x | Visible shape.interior x}.Nonempty :=
      ⟨(1, 1), Inside.visible ⟨Nat.one_pos, shape.height_pos, Nat.one_pos, shape.width_pos⟩⟩
    obtain ⟨low, hlow, hmin⟩ := Set.exists_min_image _ (valueAt (shape.width + 2) u)
      (visible_finite shape.interior) hne
    obtain ⟨high, hhigh, hmax⟩ := Set.exists_max_image _ (valueAt (shape.width + 2) u)
      (visible_finite shape.interior) hne
    refine ⟨low, high, hlow, hhigh, fun x hx => ⟨hmin x hx, hmax x hx⟩, fun x hx => ?_⟩
    rw [hu.valueAt_eq hx.inBounds]
    exact run_bounds hparams (fun y hy => ⟨hmin y hy, hmax y hy⟩)
      (fun y hy => hzero _ (hcells y hy)) x hx
  · rintro rfl init rest w w' rfl hw hw' d
    have hvisible : (∀ x, Visible shape.interior x →
        |valueAt (shape.width + 2) w x - valueAt (shape.width + 2) w' x| ≤ d) →
        ∀ x, Visible shape.interior x →
          |valueAt (shape.width + 2) u' x - valueAt (shape.width + 2) v' x| ≤ d := by
      intro hd x hx
      rw [hu.valueAt_eq hx.inBounds, hv.valueAt_eq hx.inBounds, Scheme.run_append, Scheme.run_append]
      refine run_apart (fun p hp => hparams p (List.mem_append_right _ hp)) (fun y hy => ?_) x hx
      rw [← hw.valueAt_eq hy.inBounds, ← hw'.valueAt_eq hy.inBounds]
      exact hd y hy
    refine ⟨hvisible, fun hd x hx => ?_⟩
    by_cases hcorner : Visible shape.interior x
    · exact hvisible (fun y hy => hd y hy.inBounds) x hcorner
    · -- A corner keeps its value.
      have hout : ¬ Inside shape.interior x := fun h => hcorner h.visible
      have hkept := hd x hx
      rw [hw.valueAt_eq hx, hw'.valueAt_eq hx, Scheme.run_outside (S := Exact.relaxation _) hout,
        Scheme.run_outside (S := Exact.relaxation _) hout] at hkept
      rw [hu.valueAt_eq hx, hv.valueAt_eq hx, Scheme.run_outside (S := Exact.relaxation _) hout,
        Scheme.run_outside (S := Exact.relaxation _) hout]
      exact hkept

/-- Two timesteps of a single cell from ordered grids. -/
theorem comparison_principle_cell :
    let params := List.replicate 2 (⟨1 / 2, 1⟩ : JacobiParams ℚ)
    let run := @Reference.timesteps ℚ (Scalar.exact ℚ) Shape2D.cell.interior [6] params
    valueAt 3 (run [0, 1, 0, 2, 3, 4, 0, 5, 0]) (1, 1) ≤
      valueAt 3 (run [9, 1, 0, 2, 4, 4, 0, 7, 0]) (1, 1) := by
  intro params run
  have hu : Exact.Produces Shape2D.cell [0, 1, 0, 2, 3, 4, 0, 5, 0] [6] params (run _) :=
    @exists_produces _ ℚ (Scalar.exact ℚ) _ _ _ rfl rfl params
  have hv : Exact.Produces Shape2D.cell [9, 1, 0, 2, 4, 4, 0, 7, 0] [6] params (run _) :=
    @exists_produces _ ℚ (Scalar.exact ℚ) _ _ _ rfl rfl params
  have hparams : ∀ p ∈ params, 0 ≤ p.omega ∧ p.omega ≤ 1 ∧ 0 ≤ p.hSquared := by
    intro p hp
    obtain rfl := List.eq_of_mem_replicate hp
    norm_num
  refine (comparison_principle Shape2D.cell hparams hu hv).1 ?_ (fun _ _ => le_rfl) (1, 1)
    ⟨by decide, by decide, .inl (by decide)⟩
  rintro ⟨row, column⟩ ⟨hrow, hcolumn, -⟩
  change row ≤ 2 at hrow
  change column ≤ 2 at hcolumn
  change valueAt 3 _ _ ≤ valueAt 3 _ _
  interval_cases row <;> interval_cases column <;> decide +kernel

end Gudra
