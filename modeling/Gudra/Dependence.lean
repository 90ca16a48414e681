import Gudra.Timesteps
import Gudra.Lib.FivePoint

/-! What a cell depends on after any number of timesteps. -/
namespace Gudra

open Tiling Relaxation FivePoint

variable {P : Platform} {α : Type} [Scalar α]

namespace Reference

variable {extent x : ℕ × ℕ} {p : JacobiParams α} {params : List (JacobiParams α)}
  {haloed rhs : List α}

/-- The weighted update as a five-point stencil. -/
def combine (p : JacobiParams α) (north south east west center forcing : α) : α :=
  (Scalar.one - p.omega) * center + p.omega *
    (Scalar.quarter * (north + south + east + west - p.hSquared * forcing))

/-- Timesteps as the fixed-boundary iteration of the stencil over the haloed cells. -/
def relaxation (extent : ℕ × ℕ) : Scheme (ℕ × ℕ) α α (JacobiParams α) := scheme extent combine

/-- The RHS at the haloed positions of its cells. -/
def forcing (cols : ℕ) (rhs : List α) (x : ℕ × ℕ) : α := at_ cols rhs (x.1 - 1, x.2 - 1)

theorem timestepCell_eq (u : ℕ × ℕ → α) :
    timestepCell extent p u (at_ extent.2 rhs) x =
      (relaxation extent).step (forcing extent.2 rhs) u p x := by
  by_cases hx : Inside extent x
  · rw [Scheme.step_inside (S := relaxation extent) hx]
    refine (if_pos hx).trans ?_
    obtain ⟨h1, h2, h3, h4⟩ := hx
    obtain ⟨row, column⟩ := x
    obtain ⟨row, rfl⟩ := Nat.exists_eq_add_of_lt h1
    obtain ⟨column, rfl⟩ := Nat.exists_eq_add_of_lt h3
    simp only [Nat.zero_add]
    rfl
  · rw [Scheme.step_outside (S := relaxation extent) hx]
    exact if_neg hx

/-- The list of timesteps and the iteration over cells hold the same values. -/
theorem at_timesteps (hx : InBounds extent x) :
    at_ (extent.2 + 2) (timesteps extent rhs params haloed) x =
      (relaxation extent).run (forcing extent.2 rhs) params (at_ (extent.2 + 2) haloed) x := by
  induction params generalizing haloed with
  | nil => rfl
  | cons p params ih =>
    rw [Scheme.run_cons]
    refine Eq.trans (b := (relaxation extent).run (forcing extent.2 rhs) params
      (at_ (extent.2 + 2) (timestep extent p haloed rhs)) x) ih ?_
    refine Scheme.run_rel (R := fun _ a b => a = b) (V := InBounds extent) ?_ ?_ x hx
    · intro q _ u v huv y hy
      exact update_congr hy (fun z hz _ => huv z (hz.inBounds)) rfl
    · intro y hy
      rw [timestep, at_table hy, timestepCell_eq]

end Reference

open Reference

section Runs

variable {shape : Shape2D P} {u u' f f' v v' : List α} {params : List (JacobiParams α)} {x : ℕ × ℕ}

/-- Every cell that a run leaves, by the iteration over cells. -/
theorem Produces.getElem? (h : Produces shape u f params v) (hx : InBounds shape.interior x) :
    v[offset (shape.width + 2) x]? = some ((relaxation shape.interior).run (forcing shape.width f)
      params (at_ (shape.width + 2) u) x) := by
  obtain ⟨hu, hf, rfl⟩ := h.eq_timesteps
  have hlen : (timesteps shape.interior f params u).length =
      (shape.height + 2) * (shape.width + 2) := length_timesteps (hu.trans shape.haloedLen_eq)
  rw [getElem?_at hlen hx]
  exact congrArg some (at_timesteps hx)

theorem Produces.haloed (h : Produces shape u f params v) (hx : InBounds shape.interior x) :
    u[offset (shape.width + 2) x]? = some (at_ (shape.width + 2) u x) :=
  getElem?_at (h.eq_timesteps.1.trans shape.haloedLen_eq) hx

theorem Produces.rhs (h : Produces shape u f params v)
    (hx : x.1 < shape.height ∧ x.2 < shape.width) :
    f[offset shape.width x]? = some (at_ shape.width f x) :=
  getElem?_at (h.eq_timesteps.2.1.trans shape.interiorLen_eq) hx

/-- Two runs agree at a cell whose neighbourhood agrees at the start. -/
theorem agree_within (h : Produces shape u f params v) (h' : Produces shape u' f' params v')
    (hx : Visible shape.interior x)
    (hu : ∀ y, Visible shape.interior y → manhattan x y ≤ params.length →
      u[offset (shape.width + 2) y]? = u'[offset (shape.width + 2) y]?)
    (hf : ∀ y, Inside shape.interior y → manhattan x y < params.length →
      f[offset shape.width (y.1 - 1, y.2 - 1)]? = f'[offset shape.width (y.1 - 1, y.2 - 1)]?) :
    v[offset (shape.width + 2) x]? = v'[offset (shape.width + 2) x]? := by
  rw [h.getElem? hx.inBounds, h'.getElem? hx.inBounds]
  refine congrArg some (Scheme.run_dependence (scheme_local _ _) manhattan_self
    manhattan_triangle hx (fun y hy hd => ?_) fun y hy hd => ?_)
  · have hy' := hu y hy hd
    rwa [h.haloed hy.inBounds, h'.haloed hy.inBounds, Option.some.injEq] at hy'
  · have hbounds : y.1 - 1 < shape.height ∧ y.2 - 1 < shape.width := by
      obtain ⟨h1, h2, h3, h4⟩ := hy
      rw [shape.interior_eq] at h2 h4
      simp only at h2 h4
      omega
    have hy' := hf y hy hd
    rwa [h.rhs hbounds, h'.rhs hbounds, Option.some.injEq] at hy'

/-- Halo cells act only through the interior cells next to them. -/
theorem agree_through (h : Produces shape u f params v) (h' : Produces shape u' f params v')
    (hshield : ∀ init, init <+: params → ∀ w w', Produces shape u f init w →
      Produces shape u' f init w' → ∀ x y, Inside shape.interior x → Near x y →
      Visible shape.interior y →
      u[offset (shape.width + 2) y]? ≠ u'[offset (shape.width + 2) y]? →
      w[offset (shape.width + 2) x]? = w'[offset (shape.width + 2) x]?)
    (hx : Visible shape.interior x)
    (hu : u[offset (shape.width + 2) x]? = u'[offset (shape.width + 2) x]?) :
    v[offset (shape.width + 2) x]? = v'[offset (shape.width + 2) x]? := by
  rw [h.haloed hx.inBounds, h'.haloed hx.inBounds, Option.some.injEq] at hu
  rw [h.getElem? hx.inBounds, h'.getElem? hx.inBounds]
  refine congrArg some (Scheme.run_shielded
    (N := fun x y => Near x y ∧ Visible shape.interior y) ?_ ?_ hu)
  · intro q w w' y hy hread
    exact update_congr hy (fun z hz hnear => hread z ⟨hnear, hz⟩) rfl
  · rintro init hinit x y hx ⟨hnear, hy⟩ hne
    have hw := exists_produces h.eq_timesteps.1 h.eq_timesteps.2.1 init
    have hw' := exists_produces h'.eq_timesteps.1 h'.eq_timesteps.2.1 init
    have hxy := hshield init hinit _ _ hw hw' x y hx hnear hy ?_
    · rwa [hw.getElem? hx.visible.inBounds, hw'.getElem? hx.visible.inBounds,
        Option.some.injEq] at hxy
    · rw [h.haloed hy.inBounds, h'.haloed hy.inBounds]
      exact fun heq => hne (Option.some.inj heq)

/-- The domain of dependence of a cell after `n` timesteps is its Manhattan ball of radius `n`, cut
by the boundary; no corner is in it, and halo cells act through the one interior cell next to
them. -/
theorem domain_of_dependence (h : Produces shape u f params v)
    (h' : Produces shape u' f' params v') :
    (∀ row < shape.height, ∀ column < shape.width,
      (∀ y, Visible shape.interior y → manhattan (row + 1, column + 1) y ≤ params.length →
        u[offset (shape.width + 2) y]? = u'[offset (shape.width + 2) y]?) →
      (∀ y : ℕ × ℕ, y.1 < shape.height → y.2 < shape.width →
        manhattan (row, column) y + 1 ≤ params.length →
        f[offset shape.width y]? = f'[offset shape.width y]?) →
      v[offset (shape.width + 2) (row + 1, column + 1)]? =
        v'[offset (shape.width + 2) (row + 1, column + 1)]?) ∧
    (f = f' → (∀ y, Visible shape.interior y →
        u[offset (shape.width + 2) y]? = u'[offset (shape.width + 2) y]?) →
      ∀ x, Visible shape.interior x →
        v[offset (shape.width + 2) x]? = v'[offset (shape.width + 2) x]?) ∧
    (∀ y, Visible shape.interior y → ¬ Inside shape.interior y →
      ∃ x, (Inside shape.interior x ∧ manhattan x y ≤ 1) ∧
        ∀ z, Inside shape.interior z ∧ manhattan z y ≤ 1 → z = x) ∧
    (f = f' → (∀ init, init <+: params → ∀ w w', Produces shape u f init w →
        Produces shape u' f' init w' → ∀ x y, Inside shape.interior x → manhattan x y ≤ 1 →
        Visible shape.interior y →
        u[offset (shape.width + 2) y]? ≠ u'[offset (shape.width + 2) y]? →
        w[offset (shape.width + 2) x]? = w'[offset (shape.width + 2) x]?) →
      ∀ x, Visible shape.interior x →
        u[offset (shape.width + 2) x]? = u'[offset (shape.width + 2) x]? →
        v[offset (shape.width + 2) x]? = v'[offset (shape.width + 2) x]?) := by
  refine ⟨?_, ?_, ?_, ?_⟩
  · intro row hrow column hcolumn hu hf
    have hinside : Inside shape.interior (row + 1, column + 1) :=
      ⟨Nat.succ_pos _, hrow, Nat.succ_pos _, hcolumn⟩
    refine agree_within h h' hinside.visible hu fun y hy hd => hf _ ?_ ?_ ?_
    all_goals
      obtain ⟨h1, h2, h3, h4⟩ := hy
      rw [shape.interior_eq] at h2 h4
      simp only [manhattan] at *
      omega
  · rintro rfl hu x hx
    exact agree_within h h' hx (fun y hy _ => hu y hy) fun _ _ _ => rfl
  · intro y hy hout
    obtain ⟨x, hx, hnear⟩ := exists_near ⟨shape.height_pos, shape.width_pos⟩ hy hout
    exact ⟨x, ⟨hx, hnear⟩, fun z hz => near_unique hz.1 hx hout hz.2 hnear⟩
  · rintro rfl hshield x hx hu
    exact agree_through h h' hshield hx hu

/-- Two timesteps of a single cell whose grids differ in a corner. -/
theorem domain_of_dependence_cell :
    let params := List.replicate 2 (⟨1 / 2, 1⟩ : JacobiParams ℚ)
    (timesteps Shape2D.cell.interior [6] params [9, 1, 9, 2, 3, 4, 9, 5, 9])[4]? =
      (timesteps Shape2D.cell.interior [6] params [0, 1, 9, 2, 3, 4, 9, 5, 9])[4]? := by
  intro params
  have h : Produces Shape2D.cell [9, 1, 9, 2, 3, 4, 9, 5, 9] [6] params _ :=
    exists_produces rfl rfl params
  have h' : Produces Shape2D.cell [0, 1, 9, 2, 3, 4, 9, 5, 9] [6] params _ :=
    exists_produces rfl rfl params
  refine (domain_of_dependence h h').2.1 rfl ?_ (1, 1) ⟨by decide, by decide, .inl (by decide)⟩
  rintro ⟨row, column⟩ ⟨hrow, hcolumn, hside⟩
  have hpos : 0 < row + column := by
    simp only at hside
    omega
  obtain ⟨n, hn⟩ : ∃ n, offset (Shape2D.cell.width + 2) (row, column) = n + 1 := by
    refine ⟨row * 3 + column - 1, ?_⟩
    change row * 3 + column = _
    omega
  rw [hn]
  rfl

end Runs
end Gudra
