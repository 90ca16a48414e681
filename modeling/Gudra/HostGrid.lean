import Gudra.Reference

/-! The grid that the host obtains by repeating the oracle and copying its output back. -/
namespace Gudra

open Tiling

variable {P : Platform} {α : Type}

namespace Reference

/-- `&source[start..stop]` -/
def slice (source : List α) (start stop : ℕ) : Option (List α) :=
  if start ≤ stop ∧ stop ≤ source.length then some ((source.take stop).drop start) else none

/-- `target[start..stop].copy_from_slice(source)` -/
def copyFromSlice (target : List α) (start stop : ℕ) (source : List α) : Option (List α) :=
  if start ≤ stop ∧ stop ≤ target.length ∧ source.length = stop - start then
    some (target.take start ++ source ++ target.drop stop)
  else none

/-- Row `row` of the output goes to its place in the haloed grid. -/
def copyRow (shape : Shape2D P) (output haloed : List α) (row : ℕ) : Option (List α) := do
  let start := (row + 1) * (shape.width + 2) + 1
  copyFromSlice haloed start (start + shape.width)
    (← slice output (row * shape.width) ((row + 1) * shape.width))

def copyBack (shape : Shape2D P) (output haloed : List α) : Option (List α) :=
  (List.range shape.height).foldlM (copyRow shape output) haloed

variable [Scalar α]

/-- One step on the host: the haloed grid and the output slice. -/
def hostStep (shape : Shape2D P) (rhs : List α) (state : List α × List α)
    (params : JacobiParams α) : Option (List α × List α) := do
  let (result, output) ← jacobiInto shape state.1 rhs params state.2
  match result with
  | .error _ => none
  | .ok () => return (← copyBack shape output state.1, output)

/-- The steps of a list of coefficients, in their order. -/
def hostSteps (shape : Shape2D P) (rhs : List α) (params : List (JacobiParams α))
    (state : List α × List α) : Option (List α × List α) :=
  params.foldlM (hostStep shape rhs) state

/-- The haloed grid after a list of timesteps. -/
def timesteps (extent : ℕ × ℕ) (rhs : List α) (params : List (JacobiParams α)) (haloed : List α) :
    List α := params.foldl (fun u p => timestep extent p u rhs) haloed

section Copies

variable {shape : Shape2D P} {haloed output : List α} {rows cols : ℕ}

omit [Scalar α] in
theorem getElem?_copyFromSlice {target source result : List α} {start stop n : ℕ}
    (h : copyFromSlice target start stop source = some result) :
    result[n]? = if start ≤ n ∧ n < stop then source[n - start]? else target[n]? := by
  simp only [copyFromSlice, Option.ite_none_right_eq_some, Option.some.injEq] at h
  obtain ⟨⟨hle, hstop, hlen⟩, rfl⟩ := h
  rw [List.append_assoc, List.getElem?_append]
  simp only [List.length_take, Nat.min_eq_left (hle.trans hstop)]
  by_cases hstart : n < start
  · rw [if_pos hstart, if_neg (by omega), List.getElem?_take_of_lt hstart]
  · rw [if_neg hstart, List.getElem?_append, hlen]
    by_cases hn : n < stop
    · rw [if_pos (by omega), if_pos (by omega)]
    · rw [if_neg (by omega), if_neg (by omega), List.getElem?_drop]
      congr 1
      omega

/-- The grid whose interior rows up to `k` are copied. -/
def copied (shape : Shape2D P) (output haloed : List α) (k : ℕ) : List α :=
  table (shape.height + 2) (shape.width + 2) fun x =>
    if 0 < x.1 ∧ x.1 ≤ k ∧ 0 < x.2 ∧ x.2 ≤ shape.width then
      at_ shape.width output (x.1 - 1, x.2 - 1)
    else at_ (shape.width + 2) haloed x

/-- Copying one more row. -/
theorem copyRow_copied (hout : output.length = shape.height * shape.width) {row : ℕ}
    (hrow : row < shape.height) :
    copyRow shape output (copied shape output haloed row) row =
      some (copied shape output haloed (row + 1)) := by
  have hlast : (row + 1) * shape.width ≤ output.length := hout ▸ Nat.mul_le_mul_right _ hrow
  have hfirst : row * shape.width ≤ (row + 1) * shape.width := Nat.mul_le_mul_right _ (by omega)
  have hcell : ∀ column < shape.width, ((output.take ((row + 1) * shape.width)).drop
      (row * shape.width))[column]? = some (at_ shape.width output (row, column)) := by
    intro column hcolumn
    rw [List.getElem?_drop, List.getElem?_take_of_lt (by rw [Nat.succ_mul]; omega)]
    exact getElem?_at hout (x := (row, column)) ⟨hrow, hcolumn⟩
  have hend : (row + 1) * (shape.width + 2) + 1 + shape.width ≤
      (shape.height + 2) * (shape.width + 2) := by
    have hmul : (row + 1 + 1) * (shape.width + 2) ≤ (shape.height + 2) * (shape.width + 2) :=
      Nat.mul_le_mul_right _ (by omega)
    rw [Nat.succ_mul] at hmul
    omega
  have hslice : slice output (row * shape.width) ((row + 1) * shape.width) = some
      ((output.take ((row + 1) * shape.width)).drop (row * shape.width)) :=
    if_pos ⟨hfirst, hlast⟩
  rw [copyRow, hslice, Option.bind_eq_bind, Option.bind_some]
  obtain ⟨result, hresult⟩ : ∃ result, copyFromSlice (copied shape output haloed row)
      ((row + 1) * (shape.width + 2) + 1) ((row + 1) * (shape.width + 2) + 1 + shape.width)
      ((output.take ((row + 1) * shape.width)).drop (row * shape.width)) = some result := by
    refine ⟨_, if_pos ⟨by omega, by simpa [copied] using hend, ?_⟩⟩
    rw [List.length_drop, List.length_take, Nat.min_eq_left hlast, Nat.succ_mul]
    omega
  have hget := fun n => getElem?_copyFromSlice (n := n) hresult
  rw [hresult]
  have hlen : result.length = (shape.height + 2) * (shape.width + 2) := by
    simp only [copyFromSlice, Option.ite_none_right_eq_some, Option.some.injEq] at hresult
    obtain ⟨⟨-, -, hlen⟩, rfl⟩ := hresult
    simp only [List.length_append, hlen, List.length_take, List.length_drop, copied, length_table]
    omega
  refine congrArg some (ext_table hlen fun x hx => ?_)
  rw [hget]
  by_cases hin : x.1 = row + 1 ∧ 0 < x.2 ∧ x.2 ≤ shape.width
  · obtain ⟨hrowx, hpos, hle⟩ := hin
    have hoffset : offset (shape.width + 2) x = (row + 1) * (shape.width + 2) + 1 + (x.2 - 1) := by
      simp only [offset, hrowx]
      omega
    rw [if_pos (by omega), if_pos (by omega), hoffset, Nat.add_sub_cancel_left,
      hcell _ (by omega), hrowx, Nat.add_sub_cancel]
  · have hne : ¬ ((row + 1) * (shape.width + 2) + 1 ≤ offset (shape.width + 2) x ∧
        offset (shape.width + 2) x < (row + 1) * (shape.width + 2) + 1 + shape.width) := by
      rintro ⟨hlow, hhigh⟩
      have hdiv : offset (shape.width + 2) x = offset (shape.width + 2)
          (row + 1, offset (shape.width + 2) x - (row + 1) * (shape.width + 2)) := by
        simp only [offset] at hlow ⊢
        omega
      have heq := offset_injOn hx.2 (by simp only; omega) hdiv
      have h1 := congrArg Prod.fst heq
      have h2 := congrArg Prod.snd heq
      simp only at h1 h2
      omega
    rw [if_neg hne, copied, getElem?_table hx]
    congr 1
    by_cases hcopied : 0 < x.1 ∧ x.1 ≤ row ∧ 0 < x.2 ∧ x.2 ≤ shape.width
    · rw [if_pos hcopied, if_pos (by omega)]
    · rw [if_neg hcopied, if_neg (by omega)]

theorem copied_zero (hhaloed : haloed.length = (shape.height + 2) * (shape.width + 2)) :
    copied shape output haloed 0 = haloed := by
  refine (ext_table hhaloed fun x hx => ?_).symm
  rw [if_neg (by omega), getElem?_at hhaloed hx]

/-- Copying all rows, one after the other. -/
theorem copyBack_copied (hhaloed : haloed.length = (shape.height + 2) * (shape.width + 2))
    (hout : output.length = shape.height * shape.width) :
    copyBack shape output haloed = some (copied shape output haloed shape.height) := by
  have hrows : ∀ k ≤ shape.height, (List.range k).foldlM (copyRow shape output) haloed =
      some (copied shape output haloed k) := by
    intro k hk
    induction k with
    | zero => exact congrArg some (copied_zero hhaloed).symm
    | succ k ih =>
      rw [List.range_succ, List.foldlM_append, ih (by omega)]
      simp only [List.foldlM_cons, List.foldlM_nil, bind_pure, Option.bind_eq_bind, Option.bind_some]
      exact copyRow_copied hout hk
  exact hrows shape.height le_rfl

end Copies

section Steps

variable {shape : Shape2D P} {haloed output rhs : List α}

/-- One step of the oracle and the copy make one timestep. -/
theorem hostStep_eq (hhaloed : haloed.length = shape.haloedLen) (hrhs : rhs.length = shape.interiorLen)
    (hout : output.length = shape.interiorLen) (p : JacobiParams α) :
    hostStep shape rhs (haloed, output) p =
      some (timestep shape.interior p haloed rhs, jacobi shape.interior p haloed rhs) := by
  have hlen : (jacobi shape.interior p haloed rhs).length = shape.height * shape.width :=
    length_table
  rw [hostStep, jacobiInto_eq hhaloed hout hrhs]
  simp only [Option.bind_eq_bind, Option.bind_some, copyBack_copied
    (hhaloed.trans shape.haloedLen_eq) hlen]
  refine congrArg (fun u => some (u, _)) (List.map_congr_left fun x hx => ?_)
  have hx := mem_positions.mp hx
  by_cases hin : 0 < x.1 ∧ x.1 ≤ shape.height ∧ 0 < x.2 ∧ x.2 ≤ shape.width
  · have hcell : 0 < x.1 ∧ x.1 ≤ shape.interior.1 ∧ 0 < x.2 ∧ x.2 ≤ shape.interior.2 := hin
    rw [if_pos hin, timestepCell, if_pos hcell]
    exact at_table (x := (x.1 - 1, x.2 - 1)) (by simp only [shape.interior_eq]; omega)
  · have hcell : ¬ (0 < x.1 ∧ x.1 ≤ shape.interior.1 ∧ 0 < x.2 ∧ x.2 ≤ shape.interior.2) := hin
    rw [if_neg hin, timestepCell, if_neg hcell]
    rfl

theorem length_timestep {extent : ℕ × ℕ} {p : JacobiParams α} :
    (timestep extent p haloed rhs).length = (extent.1 + 2) * (extent.2 + 2) := length_table

theorem length_timesteps {extent : ℕ × ℕ} {params : List (JacobiParams α)}
    (h : haloed.length = (extent.1 + 2) * (extent.2 + 2)) :
    (timesteps extent rhs params haloed).length = (extent.1 + 2) * (extent.2 + 2) := by
  induction params generalizing haloed with
  | nil => exact h
  | cons p params ih => exact ih length_timestep

/-- Any number of steps on the host. -/
theorem hostSteps_eq (hhaloed : haloed.length = shape.haloedLen)
    (hrhs : rhs.length = shape.interiorLen) (hout : output.length = shape.interiorLen)
    (params : List (JacobiParams α)) : ∃ output', hostSteps shape rhs params (haloed, output) =
      some (timesteps shape.interior rhs params haloed, output') := by
  induction params generalizing haloed output with
  | nil => exact ⟨output, rfl⟩
  | cons p params ih =>
    have hlen : (jacobi shape.interior p haloed rhs).length = shape.interiorLen :=
      length_table.trans shape.interiorLen_eq.symm
    have hstep : (timestep shape.interior p haloed rhs).length = shape.haloedLen :=
      length_timestep.trans shape.haloedLen_eq.symm
    obtain ⟨output', h⟩ := ih hstep hlen
    refine ⟨output', ?_⟩
    rw [hostSteps, List.foldlM_cons, hostStep_eq hhaloed hrhs hout, Option.bind_eq_bind,
      Option.bind_some]
    exact h

end Steps

end Reference
end Gudra
