import Gudra.Dependence
import Gudra.Lib.Poisson

/-! The oracle and the timesteps over exact arithmetic. -/
namespace Gudra

open Tiling Relaxation FivePoint

variable {P : Platform} {K : Type} [Field K]

/-- The arithmetic of a field. Not an instance: a field has its own operators. -/
@[reducible] def Scalar.exact (K : Type) [Field K] : Scalar K where
  toAdd := inferInstance
  toSub := inferInstance
  toMul := inferInstance
  zero := 0
  one := 1
  quarter := 1 / 4
  four := 4

/-- The coefficients with the exact reciprocal. -/
def LaplacianParams.exact (hSquared : K) : LaplacianParams K := ⟨1 / hSquared⟩

namespace Exact

abbrev jacobiInto (shape : Shape2D P) (haloed rhs : List K) (params : JacobiParams K) :
    Reference.Slice K Unit := @Reference.jacobiInto K (Scalar.exact K) P shape haloed rhs params

abbrev laplacianInto (shape : Shape2D P) (haloed : List K) (params : LaplacianParams K) :
    Reference.Slice K Unit := @Reference.laplacianInto K (Scalar.exact K) P shape haloed params

abbrev Produces (shape : Shape2D P) (u f : List K) (params : List (JacobiParams K)) (v : List K) :
    Prop := @Gudra.Produces P K (Scalar.exact K) shape u f params v

/-- The value at a row-major position. -/
def valueAt (cols : ℕ) (l : List K) (x : ℕ × ℕ) : K := l.getD (offset cols x) 0

/-- The forcing at the haloed positions of its cells. -/
def forcing (cols : ℕ) (rhs : List K) (x : ℕ × ℕ) : K := valueAt cols rhs (x.1 - 1, x.2 - 1)

/-- Timesteps as the weighted iteration of the Poisson problem. -/
abbrev relaxation (extent : ℕ × ℕ) : Scheme (ℕ × ℕ) K K (JacobiParams K) :=
  scheme extent (weighted JacobiParams.omega JacobiParams.hSquared)

variable {shape : Shape2D P} {u f v out : List K} {params : List (JacobiParams K)} {x : ℕ × ℕ}

theorem inside_pred (hx : Inside shape.interior x) :
    x.1 - 1 < shape.height ∧ x.2 - 1 < shape.width ∧ (x.1 - 1 + 1, x.2 - 1 + 1) = x := by
  obtain ⟨h1, h2, h3, h4⟩ := hx
  rw [shape.interior_eq] at h2 h4
  simp only at h2 h4
  exact ⟨by omega, by omega, Prod.ext (by simp only; omega) (by simp only; omega)⟩

theorem valueAt_table {rows cols : ℕ} {g : ℕ × ℕ → K} (h : x.1 < rows ∧ x.2 < cols) :
    valueAt cols (table rows cols g) x = g x := by
  rw [valueAt, List.getD_eq_getElem?_getD, getElem?_table h, Option.getD_some]

theorem getElem?_valueAt {rows cols : ℕ} {l : List K} (hlen : l.length = rows * cols)
    (h : x.1 < rows ∧ x.2 < cols) : l[offset cols x]? = some (valueAt cols l x) := by
  have hlt : offset cols x < l.length := hlen ▸ offset_lt h
  rw [valueAt, List.getD_eq_getElem?_getD, List.getElem?_eq_getElem hlt, Option.getD_some]

theorem eq_of_values {rows cols : ℕ} {l l' : List K} (hl : l.length = rows * cols)
    (hl' : l'.length = rows * cols)
    (h : ∀ x : ℕ × ℕ, x.1 < rows ∧ x.2 < cols → valueAt cols l x = valueAt cols l' x) : l = l' := by
  have htable : l' = table rows cols (valueAt cols l') :=
    ext_table hl' fun x hx => getElem?_valueAt hl' hx
  rw [htable]
  exact ext_table hl fun x hx => (getElem?_valueAt hl hx).trans (congrArg some (h x hx))

theorem Produces.lengths (h : Produces shape u f params v) :
    u.length = (shape.height + 2) * (shape.width + 2) ∧ f.length = shape.height * shape.width ∧
      v.length = (shape.height + 2) * (shape.width + 2) := by
  obtain ⟨hu, hf, rfl⟩ := @Gudra.Produces.eq_timesteps P K (Scalar.exact K) _ _ _ _ _ h
  have hu' := hu.trans shape.haloedLen_eq
  exact ⟨hu', hf.trans shape.interiorLen_eq, @Reference.length_timesteps K (Scalar.exact K) _ _ _ _ hu'⟩

/-- Every cell that a run leaves, by the iteration over cells. -/
theorem Produces.valueAt_eq (h : Produces shape u f params v) (hx : InBounds shape.interior x) :
    valueAt (shape.width + 2) v x = (relaxation shape.interior).run (forcing shape.width f) params
      (valueAt (shape.width + 2) u) x := by
  have hget := @Gudra.Produces.getElem? P K (Scalar.exact K) _ _ _ _ _ _ h hx
  rw [valueAt, List.getD_eq_getElem?_getD, hget, Option.getD_some]
  rfl

/-- Runs are determined by their cells. -/
theorem produces_iff (hu : u.length = shape.haloedLen) (hf : f.length = shape.interiorLen) :
    Produces shape u f params v ↔ v.length = (shape.height + 2) * (shape.width + 2) ∧
      ∀ x, InBounds shape.interior x → valueAt (shape.width + 2) v x =
        (relaxation shape.interior).run (forcing shape.width f) params
          (valueAt (shape.width + 2) u) x := by
  constructor
  · intro h
    exact ⟨h.lengths.2.2, fun x hx => h.valueAt_eq hx⟩
  · rintro ⟨hlen, hcells⟩
    have h : Produces shape u f params _ := @exists_produces P K (Scalar.exact K) _ _ _ hu hf params
    have heq : v = _ := eq_of_values hlen h.lengths.2.2 fun x hx =>
      (hcells x hx).trans (h.valueAt_eq hx).symm
    exact heq ▸ h

theorem Produces.unique {v' : List K} (h : Produces shape u f params v)
    (h' : Produces shape u f params v') : v = v' :=
  eq_of_values h.lengths.2.2 h'.lengths.2.2 fun _ hx => (h.valueAt_eq hx).trans (h'.valueAt_eq hx).symm

theorem jacobiInto_eq (hu : u.length = shape.haloedLen) (hf : f.length = shape.interiorLen)
    (hout : out.length = shape.interiorLen) (p : JacobiParams K) :
    jacobiInto shape u f p out = some (.ok (), table shape.height shape.width fun x =>
      (relaxation shape.interior).update p (valueAt (shape.width + 2) u) (forcing shape.width f)
        (x.1 + 1, x.2 + 1)) :=
  @Reference.jacobiInto_eq K (Scalar.exact K) P shape u f out hu hout hf p

theorem laplacianInto_eq (hu : u.length = shape.haloedLen) (hout : out.length = shape.interiorLen)
    (h : K) : laplacianInto shape u (.exact h) out = some (.ok (), table shape.height shape.width
      fun x => difference (valueAt (shape.width + 2) u) (x.1 + 1, x.2 + 1) * (1 / h)) :=
  @Reference.laplacianInto_eq K (Scalar.exact K) P shape u out hu hout _

/-- With the Laplacian of a grid as the RHS the grid is at rest. -/
theorem produces_self [CharZero K] {h : K} (hu : u.length = shape.haloedLen) (hh : h ≠ 0)
    (hparams : ∀ p ∈ params, p.hSquared = h) :
    Produces shape u (table shape.height shape.width fun x =>
      difference (valueAt (shape.width + 2) u) (x.1 + 1, x.2 + 1) * (1 / h)) params u := by
  refine (produces_iff hu (length_table.trans shape.interiorLen_eq.symm)).mpr
    ⟨hu.trans shape.haloedLen_eq, fun x hx => ?_⟩
  refine (congrFun (run_fixed hparams hh fun y hy => ?_) x).symm
  obtain ⟨h1, h2, hy'⟩ := inside_pred hy
  rw [forcing, valueAt_table ⟨h1, h2⟩, hy']

end Exact
end Gudra
