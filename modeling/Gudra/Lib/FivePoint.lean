import Gudra.Lib.Relaxation

/-! Five-point stencils on a rectangle with a one-cell halo, over uninterpreted and over exact
scalars. -/
namespace FivePoint

open Relaxation

variable {A B Q : Type} {extent : ℕ × ℕ} {x y z : ℕ × ℕ}

/-- The interior of a grid of `extent.1 + 2` rows and `extent.2 + 2` columns. -/
def Inside (extent x : ℕ × ℕ) : Prop := 0 < x.1 ∧ x.1 ≤ extent.1 ∧ 0 < x.2 ∧ x.2 ≤ extent.2

instance (extent x : ℕ × ℕ) : Decidable (Inside extent x) := by
  unfold Inside
  infer_instance

/-- The cells of the grid but for its four corners. -/
def Visible (extent x : ℕ × ℕ) : Prop :=
  x.1 ≤ extent.1 + 1 ∧ x.2 ≤ extent.2 + 1 ∧
    (0 < x.1 ∧ x.1 ≤ extent.1 ∨ 0 < x.2 ∧ x.2 ≤ extent.2)

/-- The cells of the grid, corners included. -/
def InBounds (extent x : ℕ × ℕ) : Prop := x.1 < extent.1 + 2 ∧ x.2 < extent.2 + 2

theorem Visible.inBounds (h : Visible extent x) : InBounds extent x := by
  obtain ⟨h1, h2, -⟩ := h
  exact ⟨by omega, by omega⟩

theorem Inside.visible (h : Inside extent x) : Visible extent x := by
  obtain ⟨h1, h2, h3, h4⟩ := h
  exact ⟨by omega, by omega, .inl ⟨h1, h2⟩⟩

theorem visible_finite (extent : ℕ × ℕ) : {x | Visible extent x}.Finite := by
  refine ((Set.finite_Iic (extent.1 + 1)).prod (Set.finite_Iic (extent.2 + 1))).subset ?_
  rintro x ⟨h1, h2, -⟩
  exact ⟨h1, h2⟩

/-- The Manhattan distance. -/
def manhattan (x y : ℕ × ℕ) : ℕ := (x.1 - y.1) + (y.1 - x.1) + ((x.2 - y.2) + (y.2 - x.2))

theorem manhattan_self (x : ℕ × ℕ) : manhattan x x = 0 := by
  simp [manhattan]

theorem manhattan_triangle (x y z : ℕ × ℕ) : manhattan x z ≤ manhattan x y + manhattan y z := by
  simp only [manhattan]
  omega

/-- The cells that an update reads. -/
def Near (x y : ℕ × ℕ) : Prop := manhattan x y ≤ 1

/-- What a stencil makes of the north, south, east and west neighbours, the centre and the
forcing. -/
abbrev Combine (A B Q : Type) := Q → A → A → A → A → A → B → A

/-- The fixed-boundary iteration of a stencil. -/
def scheme (extent : ℕ × ℕ) (c : Combine A B Q) : Scheme (ℕ × ℕ) A B Q where
  inside := Inside extent
  dec := inferInstance
  update q u f x :=
    c q (u (x.1 - 1, x.2)) (u (x.1 + 1, x.2)) (u (x.1, x.2 + 1)) (u (x.1, x.2 - 1)) (u x) (f x)

section Reads

variable (h : Inside extent x)
include h

theorem near_north : Near x (x.1 - 1, x.2) ∧ Visible extent (x.1 - 1, x.2) := by
  obtain ⟨h1, h2, h3, h4⟩ := h
  refine ⟨?_, ?_⟩
  · simp only [Near, manhattan]
    omega
  · simp only [Visible]
    omega

theorem near_south : Near x (x.1 + 1, x.2) ∧ Visible extent (x.1 + 1, x.2) := by
  obtain ⟨h1, h2, h3, h4⟩ := h
  refine ⟨?_, ?_⟩
  · simp only [Near, manhattan]
    omega
  · simp only [Visible]
    omega

theorem near_east : Near x (x.1, x.2 + 1) ∧ Visible extent (x.1, x.2 + 1) := by
  obtain ⟨h1, h2, h3, h4⟩ := h
  refine ⟨?_, ?_⟩
  · simp only [Near, manhattan]
    omega
  · simp only [Visible]
    omega

theorem near_west : Near x (x.1, x.2 - 1) ∧ Visible extent (x.1, x.2 - 1) := by
  obtain ⟨h1, h2, h3, h4⟩ := h
  refine ⟨?_, ?_⟩
  · simp only [Near, manhattan]
    omega
  · simp only [Visible]
    omega

theorem near_center : Near x x ∧ Visible extent x :=
  ⟨(manhattan_self x).le.trans (Nat.zero_le _), h.visible⟩

/-- Updates agree when the cells that they read do. -/
theorem update_congr {c : Combine A B Q} {q : Q} {u v : ℕ × ℕ → A} {f g : ℕ × ℕ → B}
    (hu : ∀ y, Visible extent y → Near x y → u y = v y) (hf : f x = g x) :
    (scheme extent c).update q u f x = (scheme extent c).update q v g x := by
  obtain ⟨hn, hn'⟩ := near_north h
  obtain ⟨hs, hs'⟩ := near_south h
  obtain ⟨he, he'⟩ := near_east h
  obtain ⟨hw, hw'⟩ := near_west h
  obtain ⟨hc, hc'⟩ := near_center h
  simp only [scheme, hu _ hn' hn, hu _ hs' hs, hu _ he' he, hu _ hw' hw, hu _ hc' hc, hf]

/-- Related cells have related updates when the combination keeps the relation. -/
theorem update_rel {c : Combine A B Q} {q : Q} {R : A → A → Prop} {u v : ℕ × ℕ → A}
    {f g : ℕ × ℕ → B} (hu : ∀ y, Visible extent y → R (u y) (v y))
    (hc : ∀ n n' s s' e e' w w' m m', R n n' → R s s' → R e e' → R w w' → R m m' →
      R (c q n s e w m (f x)) (c q n' s' e' w' m' (g x))) :
    R ((scheme extent c).update q u f x) ((scheme extent c).update q v g x) :=
  hc _ _ _ _ _ _ _ _ _ _ (hu _ (near_north h).2) (hu _ (near_south h).2) (hu _ (near_east h).2)
    (hu _ (near_west h).2) (hu _ (near_center h).2)

/-- A cell outside that an update reads is a neighbour, in one direction only. -/
theorem near_halo (hnear : Near x y) (hy : ¬ Inside extent y) :
    y = (0, x.2) ∧ x.1 = 1 ∨ y = (extent.1 + 1, x.2) ∧ x.1 = extent.1 ∨
      y = (x.1, 0) ∧ x.2 = 1 ∨ y = (x.1, extent.2 + 1) ∧ x.2 = extent.2 := by
  obtain ⟨h1, h2, h3, h4⟩ := h
  obtain ⟨a, b⟩ := y
  simp only [Near, manhattan, Inside, Prod.mk.injEq] at *
  omega

end Reads

/-- Only the cells of the grid matter, and the forcing inside. -/
theorem run_congr {c : Combine A B Q} {qs : List Q} {u v : ℕ × ℕ → A} {f g : ℕ × ℕ → B}
    (hu : ∀ y, InBounds extent y → u y = v y) (hf : ∀ y, Inside extent y → f y = g y)
    (hx : InBounds extent x) :
    (scheme extent c).run f qs u x = (scheme extent c).run g qs v x := by
  refine Scheme.run_rel (R := fun _ a b => a = b) ?_ hu x hx
  intro q _ u v huv y hy
  exact update_congr hy (fun z hz _ => huv z hz.inBounds) (hf y hy)

theorem scheme_local (extent : ℕ × ℕ) (c : Combine A B Q) :
    (scheme extent c).Local (Visible extent) manhattan :=
  fun _ _ _ _ _ _ hi hu hf => update_congr hi hu hf

/-- A halo cell is read by one update at most. -/
theorem near_unique (hx : Inside extent x) (hz : Inside extent z) (hy : ¬ Inside extent y)
    (hxy : Near x y) (hzy : Near z y) : x = z := by
  have hx' := near_halo hx hxy hy
  have hz' := near_halo hz hzy hy
  obtain ⟨h1, h2, h3, h4⟩ := hx
  obtain ⟨h5, h6, h7, h8⟩ := hz
  refine Prod.ext ?_ ?_
  all_goals
    rcases hx' with ⟨rfl, hx'⟩ | ⟨rfl, hx'⟩ | ⟨rfl, hx'⟩ | ⟨rfl, hx'⟩ <;>
      rcases hz' with ⟨he, hz'⟩ | ⟨he, hz'⟩ | ⟨he, hz'⟩ | ⟨he, hz'⟩ <;>
        simp only [Prod.mk.injEq] at he <;> omega

/-- Every halo cell but the corners has an interior neighbour. -/
theorem exists_near (hpos : 0 < extent.1 ∧ 0 < extent.2) (hy : Visible extent y)
    (hout : ¬ Inside extent y) : ∃ x, Inside extent x ∧ Near x y := by
  obtain ⟨h1, h2, h3 | h3⟩ := hy
  · by_cases h : y.2 = 0
    · refine ⟨(y.1, 1), ?_, ?_⟩
      · simp only [Inside]
        omega
      · simp only [Near, manhattan]
        omega
    · refine ⟨(y.1, extent.2), ?_, ?_⟩
      · simp only [Inside]
        omega
      · simp only [Near, manhattan, Inside] at *
        omega
  · by_cases h : y.1 = 0
    · refine ⟨(1, y.2), ?_, ?_⟩
      · simp only [Inside]
        omega
      · simp only [Near, manhattan]
        omega
    · refine ⟨(extent.1, y.2), ?_, ?_⟩
      · simp only [Inside]
        omega
      · simp only [Near, manhattan, Inside] at *
        omega

end FivePoint
