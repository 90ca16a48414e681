import Gudra.Lib.FivePoint
import Mathlib.Algebra.MvPolynomial.PDeriv

/-! The weighted Jacobi iteration of the five-point Poisson problem over exact scalars. -/
namespace FivePoint

open Relaxation MvPolynomial

variable {K Q : Type} {extent x : ℕ × ℕ}

section Field

variable [Field K] {omega hSquared : Q → K} {q : Q} {qs : List Q} {u v f g : ℕ × ℕ → K} {h : K}

/-- Named once, so that every module takes the literal from it. -/
instance four_atLeastTwo : Nat.AtLeastTwo 4 := ⟨by decide⟩

/-- The update that moves the centre by the share `omega` towards the solution of its equation. -/
def weighted (omega hSquared : Q → K) : Combine K K Q := fun q n s e w c f =>
  (1 - omega q) * c + omega q * (1 / 4 * (n + s + e + w - hSquared q * f))

/-- The sum of the neighbours less four times the centre. -/
def difference (u : ℕ × ℕ → K) (x : ℕ × ℕ) : K :=
  u (x.1 - 1, x.2) + u (x.1 + 1, x.2) + u (x.1, x.2 + 1) + u (x.1, x.2 - 1) - 4 * u x

/-- How far the equation with spacing `h` is from holding; nothing outside. -/
def residual (extent : ℕ × ℕ) (h : K) (u f : ℕ × ℕ → K) (x : ℕ × ℕ) : K :=
  if Inside extent x then difference u x * (1 / h) - f x else 0

theorem update_eq [CharZero K] (hh : hSquared q ≠ 0) :
    (scheme extent (weighted omega hSquared)).update q u f x =
      u x + omega q * hSquared q / 4 * (difference u x * (1 / hSquared q) - f x) := by
  have h4 : (4 : K) ≠ 0 := by norm_num
  simp only [scheme, weighted, difference]
  field_simp
  ring

/-- A step moves every cell by a multiple of its residual. -/
theorem step_eq [CharZero K] (hh : hSquared q ≠ 0) :
    (scheme extent (weighted omega hSquared)).step f u q x =
      u x + omega q * hSquared q / 4 * residual extent (hSquared q) u f x := by
  by_cases hx : Inside extent x
  · rw [Scheme.step_inside (S := scheme extent _) hx, update_eq hh, residual, if_pos hx]
  · rw [Scheme.step_outside (S := scheme extent _) hx, residual, if_neg hx, mul_zero, add_zero]

/-- A grid is left unchanged iff its residual vanishes. -/
theorem step_fixed [CharZero K] (hh : hSquared q ≠ 0) (ho : omega q ≠ 0) :
    (scheme extent (weighted omega hSquared)).step f u q x = u x ↔
      residual extent (hSquared q) u f x = 0 := by
  have h4 : omega q * hSquared q / 4 ≠ 0 := div_ne_zero (mul_ne_zero ho hh) (by norm_num)
  rw [step_eq hh, add_eq_left, mul_eq_zero_iff_left h4]

theorem residual_congr (hu : ∀ y, Visible extent y → u y = v y) :
    residual extent h u f x = residual extent h v f x := by
  by_cases hx : Inside extent x
  · simp only [residual, if_pos hx, difference, hu _ (near_north hx).2, hu _ (near_south hx).2,
      hu _ (near_east hx).2, hu _ (near_west hx).2, hu _ (near_center hx).2]
  · rw [residual, residual, if_neg hx, if_neg hx]

theorem difference_add (u v : ℕ × ℕ → K) (a : K) :
    difference (fun y => u y + a * v y) x = difference u x + a * difference v x := by
  simp only [difference]
  ring

/-- Steps without forcing take the residual along. -/
theorem residual_step [CharZero K] (hh : hSquared q = h) (h0 : h ≠ 0) :
    residual extent h ((scheme extent (weighted omega hSquared)).step f u q) f =
      (scheme extent (weighted omega hSquared)).step (fun _ => 0) (residual extent h u f) q := by
  have hq : hSquared q ≠ 0 := hh ▸ h0
  have hstep : (scheme extent (weighted omega hSquared)).step f u q =
      fun y => u y + omega q * hSquared q / 4 * residual extent h u f y :=
    funext fun y => hh ▸ step_eq hq
  funext x
  by_cases hx : Inside extent x
  · have hinside : ∀ w, residual extent h w f x = difference w x * (1 / h) - f x :=
      fun _ => if_pos hx
    rw [Scheme.step_inside (S := scheme extent _) hx, update_eq hq, hstep, hinside, hinside,
      difference_add, hh]
    field_simp
    ring
  · rw [Scheme.step_outside (S := scheme extent _) hx]
    simp only [residual, if_neg hx]

/-- Any number of steps. -/
theorem residual_run [CharZero K] (hh : ∀ q ∈ qs, hSquared q = h) (h0 : h ≠ 0) :
    residual extent h ((scheme extent (weighted omega hSquared)).run f qs u) f =
      (scheme extent (weighted omega hSquared)).run (fun _ => 0) qs (residual extent h u f) := by
  induction qs generalizing u with
  | nil => rfl
  | cons q qs ih =>
    rw [Scheme.run_cons, Scheme.run_cons, ih fun q hq => hh q (List.mem_cons_of_mem _ hq),
      residual_step (hh q List.mem_cons_self) h0]

/-- Without a residual nothing changes. -/
theorem run_fixed [CharZero K] (hh : ∀ q ∈ qs, hSquared q = h) (h0 : h ≠ 0)
    (hu : ∀ y, Inside extent y → difference u y * (1 / h) = f y) :
    (scheme extent (weighted omega hSquared)).run f qs u = u := by
  induction qs with
  | nil => rfl
  | cons q qs ih =>
    have hq : hSquared q = h := hh q List.mem_cons_self
    have hstep : (scheme extent (weighted omega hSquared)).step f u q = u := by
      funext x
      rw [step_eq (hq ▸ h0), hq, residual]
      split
      case isTrue hx => rw [hu x hx, sub_self, mul_zero, add_zero]
      case isFalse => rw [mul_zero, add_zero]
    rw [Scheme.run_cons, hstep]
    exact ih fun q hq => hh q (List.mem_cons_of_mem _ hq)

end Field

section Ordered

variable [Field K] [LinearOrder K] [IsStrictOrderedRing K] {omega hSquared : Q → K} {q : Q}
  {qs : List Q} {u v f g : ℕ × ℕ → K} {d : K}

/-- Weights for which every update is an average of its five cells, less a share of the forcing. -/
def Averaging (omega hSquared : Q → K) (q : Q) : Prop :=
  0 ≤ omega q ∧ omega q ≤ 1 ∧ 0 ≤ hSquared q

theorem weighted_le (hq : Averaging omega hSquared q) {n n' s s' e e' w w' c c' a b : K}
    (hn : n ≤ n' + d) (hs : s ≤ s' + d) (he : e ≤ e' + d) (hw : w ≤ w' + d) (hc : c ≤ c' + d)
    (hab : b ≤ a) :
    weighted omega hSquared q n s e w c a ≤ weighted omega hSquared q n' s' e' w' c' b + d := by
  obtain ⟨h0, h1, hh⟩ := hq
  have hforcing : hSquared q * b ≤ hSquared q * a := mul_le_mul_of_nonneg_left hab hh
  have hcenter : (1 - omega q) * c ≤ (1 - omega q) * (c' + d) :=
    mul_le_mul_of_nonneg_left hc (sub_nonneg.mpr h1)
  have hsum : 1 / 4 * (n + s + e + w - hSquared q * a) ≤
      1 / 4 * (n' + s' + e' + w' - hSquared q * b) + d := by linarith
  have hshare := mul_le_mul_of_nonneg_left hsum h0
  simp only [weighted]
  linarith

/-- Runs keep their order, up to a constant. -/
theorem run_le (hq : ∀ q ∈ qs, Averaging omega hSquared q)
    (hu : ∀ y, Visible extent y → u y ≤ v y + d) (hf : ∀ y, Inside extent y → g y ≤ f y) :
    ∀ x, Visible extent x → (scheme extent (weighted omega hSquared)).run f qs u x ≤
      (scheme extent (weighted omega hSquared)).run g qs v x + d := by
  refine Scheme.run_rel (R := fun _ a b => a ≤ b + d) ?_ hu
  intro q hmem u v huv x hx
  exact update_rel hx (R := fun a b => a ≤ b + d) huv fun n n' s s' e e' w w' c c' hn hs he hw hc =>
    weighted_le (hq q hmem) hn hs he hw hc (hf x hx)

theorem run_add (hu : ∀ y, Visible extent y → v y = u y + d) :
    ∀ x, Visible extent x → (scheme extent (weighted omega hSquared)).run f qs v x =
      (scheme extent (weighted omega hSquared)).run f qs u x + d := by
  refine Scheme.run_rel (R := fun _ a b => a = b + d) ?_ hu
  intro q hmem u v huv x hx
  refine update_rel hx (R := fun a b => a = b + d) huv ?_
  rintro n n' s s' e e' w w' c c' rfl rfl rfl rfl rfl
  simp only [weighted]
  ring

/-- Without forcing a run stays between the bounds of its start. -/
theorem run_bounds (hq : ∀ q ∈ qs, Averaging omega hSquared q) {a b : K}
    (hu : ∀ y, Visible extent y → a ≤ u y ∧ u y ≤ b) (hf : ∀ y, Inside extent y → f y = 0) :
    ∀ x, Visible extent x → a ≤ (scheme extent (weighted omega hSquared)).run f qs u x ∧
      (scheme extent (weighted omega hSquared)).run f qs u x ≤ b := by
  have hconst : ∀ (c : K), (scheme extent (weighted omega hSquared)).run (fun _ => 0) qs
      (fun _ => c) = fun _ => c := by
    intro c
    induction qs with
    | nil => rfl
    | cons q qs ih =>
      have hstep : (scheme extent (weighted omega hSquared)).step (fun _ => 0) (fun _ => c) q =
          fun _ => c := by
        funext x
        by_cases hx : Inside extent x
        · rw [Scheme.step_inside (S := scheme extent _) hx]
          simp only [scheme, weighted]
          ring
        · exact Scheme.step_outside (S := scheme extent _) hx
      rw [Scheme.run_cons, hstep]
      exact ih fun q hq' => hq q (List.mem_cons_of_mem _ hq')
  intro x hx
  have hlow := run_le (u := fun _ => a) (v := u) (d := 0) (f := fun _ => 0) (g := f) hq
    (fun y hy => by simpa using (hu y hy).1) (fun y hy => (hf y hy).le) x hx
  have hhigh := run_le (u := u) (v := fun _ => b) (d := 0) (f := f) (g := fun _ => 0) hq
    (fun y hy => by simpa using (hu y hy).2) (fun y hy => (hf y hy).ge) x hx
  rw [hconst, add_zero] at hlow hhigh
  exact ⟨hlow, hhigh⟩

/-- Runs with one forcing never move apart. -/
theorem run_apart (hq : ∀ q ∈ qs, Averaging omega hSquared q)
    (hu : ∀ y, Visible extent y → |u y - v y| ≤ d) :
    ∀ x, Visible extent x → |(scheme extent (weighted omega hSquared)).run f qs u x -
      (scheme extent (weighted omega hSquared)).run f qs v x| ≤ d := by
  intro x hx
  have hle := run_le (u := u) (v := v) (d := d) (f := f) (g := f) hq
    (fun y hy => by linarith [(abs_le.mp (hu y hy)).2]) (fun _ _ => le_rfl) x hx
  have hge := run_le (u := v) (v := u) (d := d) (f := f) (g := f) hq
    (fun y hy => by linarith [(abs_le.mp (hu y hy)).1]) (fun _ _ => le_rfl) x hx
  exact abs_le.mpr ⟨by linarith, by linarith⟩

end Ordered

section Polynomials

variable {R : Type} [CommRing R] [Field K]

/-- The sum of the second derivatives in both directions. -/
noncomputable def secondDerivatives (p : MvPolynomial (Fin 2) R) : MvPolynomial (Fin 2) R :=
  pderiv 0 (pderiv 0 p) + pderiv 1 (pderiv 1 p)

theorem eval_monomial_pair (a r c : R) (s : Fin 2 →₀ ℕ) :
    eval ![r, c] (monomial s a) = a * (r ^ s 0 * c ^ s 1) := by
  rw [eval_monomial, Finsupp.prod_fintype _ _ fun _ => pow_zero _, Fin.prod_univ_two]
  rfl

theorem degree_pair (s : Fin 2 →₀ ℕ) : (s.sum fun _ e => e) = s 0 + s 1 := by
  rw [Finsupp.sum_fintype _ _ fun _ => rfl, Fin.sum_univ_two]

theorem difference_monomial (a r c : R) {s : Fin 2 →₀ ℕ} (hs : s 0 + s 1 ≤ 3) :
    eval ![r - 1, c] (monomial s a) + eval ![r + 1, c] (monomial s a) +
        eval ![r, c + 1] (monomial s a) + eval ![r, c - 1] (monomial s a) -
        4 * eval ![r, c] (monomial s a) =
      eval ![r, c] (secondDerivatives (monomial s a)) := by
  simp only [secondDerivatives, pderiv_monomial, map_add, eval_monomial_pair, Finsupp.tsub_apply]
  obtain ⟨i, hi⟩ : ∃ i, s 0 = i := ⟨_, rfl⟩
  obtain ⟨j, hj⟩ : ∃ j, s 1 = j := ⟨_, rfl⟩
  simp only [Finsupp.single_apply, hi, hj] at *
  have hi3 : i ≤ 3 := by omega
  interval_cases i
  all_goals
    have hj3 : j ≤ 3 := by omega
    interval_cases j <;> first | omega | (norm_num; try ring)

/-- A five-point difference is exact up to degree three. -/
theorem difference_polynomial {p : MvPolynomial (Fin 2) R} (hp : p.totalDegree ≤ 3) (r c : R) :
    eval ![r - 1, c] p + eval ![r + 1, c] p + eval ![r, c + 1] p + eval ![r, c - 1] p -
      4 * eval ![r, c] p = eval ![r, c] (secondDerivatives p) := by
  have hsum : ∀ terms ⊆ p.support,
      eval ![r - 1, c] (∑ s ∈ terms, monomial s (coeff s p)) +
        eval ![r + 1, c] (∑ s ∈ terms, monomial s (coeff s p)) +
        eval ![r, c + 1] (∑ s ∈ terms, monomial s (coeff s p)) +
        eval ![r, c - 1] (∑ s ∈ terms, monomial s (coeff s p)) -
        4 * eval ![r, c] (∑ s ∈ terms, monomial s (coeff s p)) =
      eval ![r, c] (secondDerivatives (∑ s ∈ terms, monomial s (coeff s p))) := by
    intro terms hterms
    simp only [secondDerivatives, map_sum, map_add, ← Finset.sum_add_distrib, Finset.mul_sum,
      ← Finset.sum_sub_distrib]
    refine Finset.sum_congr rfl fun s hs => ?_
    have hdegree : s 0 + s 1 ≤ 3 := degree_pair s ▸ (le_totalDegree (hterms hs)).trans hp
    have hmono := difference_monomial (coeff s p) r c hdegree
    simpa only [secondDerivatives, map_add] using hmono
  have h := hsum p.support (Finset.Subset.refl _)
  rwa [← p.as_sum] at h

/-- On sampled cells, whatever the corners hold. -/
theorem difference_sampled {p : MvPolynomial (Fin 2) K} {u : ℕ × ℕ → K} (hp : p.totalDegree ≤ 3)
    (hu : ∀ y, Visible extent y → u y = eval ![(y.1 : K), (y.2 : K)] p) (hx : Inside extent x) :
    difference u x = eval ![(x.1 : K), (x.2 : K)] (secondDerivatives p) := by
  have hrow : ((x.1 - 1 : ℕ) : K) = x.1 - 1 := Nat.cast_pred hx.1
  have hcolumn : ((x.2 - 1 : ℕ) : K) = x.2 - 1 := Nat.cast_pred hx.2.2.1
  rw [← difference_polynomial hp]
  simp only [difference, hu _ (near_north hx).2, hu _ (near_south hx).2, hu _ (near_east hx).2,
    hu _ (near_west hx).2, hu _ (near_center hx).2, hrow, hcolumn, Nat.cast_add, Nat.cast_one]

end Polynomials
end FivePoint
