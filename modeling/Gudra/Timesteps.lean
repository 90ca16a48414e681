import Gudra.Batches
import Gudra.HostGrid

/-! Timesteps on the device, under any schedule of their blocks, against those on the host. -/
namespace Gudra

open Tiling Interleave

variable {P : Platform} {α : Type} [Scalar α]

/-- The timesteps of a grid on the device memory: the blocks of each launch access it in any order
until all are done, then the halves are swapped. -/
inductive Advances : DoubleGrid P → (Addr → α) → List (JacobiParams α) → DoubleGrid P →
    (Addr → α) → Prop where
  | done (grid : DoubleGrid P) (m : Addr → α) : Advances grid m [] grid m
  | step {grid grid' : DoubleGrid P} {m m' : Addr → α} {p : JacobiParams α}
      {params : List (JacobiParams α)} (schedule : List ℕ)
      (finished : (((grid.operation p).start m).run schedule).finished = true)
      (rest : Advances grid.swapped (((grid.operation p).start m).run schedule).memory params
        grid' m') : Advances grid m (p :: params) grid' m'

section Device

variable {grid grid' : DoubleGrid P} {m m' : Addr → α} {p : JacobiParams α}
  {params : List (JacobiParams α)}

/-- One launch in any order leaves the next grid in the other half and the RHS as it was. -/
theorem timestep_run (h : grid.Kept) {schedule : List ℕ}
    (hf : (((grid.operation p).start m).run schedule).finished = true) :
    contents (((grid.operation p).start m).run schedule).memory grid.next.storage.tensor.storage =
        Reference.timestep grid.shape.interior p (contents m grid.current.storage.tensor.storage)
          (contents m grid.rhs.storage.tensor.storage) ∧
      contents (((grid.operation p).start m).run schedule).memory grid.rhs.storage.tensor.storage =
        contents m grid.rhs.storage.tensor.storage := by
  have hwf : (grid.operation p).WellFormed grid.shape := operation_wellFormed h
  have hapart := h.apart
  simp only [List.nodup_cons, List.mem_cons, List.not_mem_nil, or_false, not_or,
    not_false_eq_true, List.nodup_nil, and_true] at hapart
  have hrhs : grid.rhs.storage.tensor.RowMajor grid.shape.interior :=
    h.rhs_shape ▸ h.rhs_kept.rowMajor
  have hvalue := (hwf.run_complete m hf).2
  have hother := (hwf.run_allowed m schedule).2
  constructor
  · -- The committed contents of the launch are the timestep of the contents of its inputs.
    let read := fun id => if id = grid.current.storage.tensor.storage.id then
      contents m grid.current.storage.tensor.storage else contents m grid.rhs.storage.tensor.storage
    have hread : ∀ t ∈ (grid.operation p).inputs, read t.storage.id = contents m t.storage := by
      intro t ht
      rcases List.mem_cons.mp ht with rfl | ht
      · exact if_pos rfl
      · obtain rfl := List.mem_singleton.mp ht
        exact if_neg fun he => hapart.1.2 he.symm
    have hcommit := hwf.commit_eq hread
    have hstep : (grid.operation p).commit read = Reference.timestep grid.shape.interior p
        (contents m grid.current.storage.tensor.storage)
        (contents m grid.rhs.storage.tensor.storage) := by
      have hcurrent : read grid.current.storage.tensor.storage.id =
          contents m grid.current.storage.tensor.storage := if_pos rfl
      have hforcing : read grid.rhs.storage.tensor.storage.id =
          contents m grid.rhs.storage.tensor.storage := if_neg fun he => hapart.1.2 he.symm
      simp only [DoubleGrid.operation, Launch.commit, hrhs.extent_eq, hcurrent, hforcing]
    rw [← hstep, hcommit]
    have hlen := hwf.output_ok.len_eq
    refine ext_table ?_ fun x hx => ?_
    · exact length_contents.trans hlen
    · have hlt : offset ((grid.operation p).extent grid.shape).2 x <
          (grid.operation p).output.storage.len := hlen ▸ offset_lt hx
      exact (getElem?_contents hlt).trans (congrArg some (hvalue x hx))
  · refine List.map_congr_left fun n _ => hother _ ?_
    exact Launch.WellFormed.not_mem_outputCells fun he => hapart.2 he.symm

/-- Any number of timesteps: the grid holds the reference's, and the RHS is as it was. -/
theorem advances_contents (h : Advances grid m params grid' m') (hkept : grid.Kept)
    (hfits : grid.completed + params.length ≤ P.usizeMax) :
    grid' = grid.after params.length ∧
      contents m' grid'.current.storage.tensor.storage =
        Reference.timesteps grid.shape.interior (contents m grid.rhs.storage.tensor.storage) params
          (contents m grid.current.storage.tensor.storage) := by
  induction h with
  | done grid m => exact ⟨rfl, rfl⟩
  | @step grid grid' m m' p params schedule hf rest ih =>
    rw [List.length_cons] at hfits
    have hswapped : grid.swapped.Kept := hkept.swapped (by omega)
    have hcount : grid.swapped.completed = grid.completed + 1 := rfl
    obtain ⟨hgrid, hcontents⟩ := ih hswapped (by omega)
    obtain ⟨hstep, hrhs⟩ := timestep_run hkept hf
    have hshape : grid.swapped.shape = grid.shape := hkept.next_shape
    refine ⟨hgrid, hcontents.trans ?_⟩
    rw [hshape]
    change Reference.timesteps _ (contents _ grid.rhs.storage.tensor.storage) params
      (contents _ grid.next.storage.tensor.storage) = _
    rw [hstep, hrhs]
    rfl

/-- The device can always finish its timesteps. -/
theorem exists_advances (grid : DoubleGrid P) (m : Addr → α) (params : List (JacobiParams α)) :
    ∃ grid' m', Advances grid m params grid' m' := by
  induction params generalizing grid m with
  | nil => exact ⟨grid, m, .done grid m⟩
  | cons p params ih =>
    obtain ⟨schedule, hf⟩ : ∃ schedule, (((grid.operation p).start m).run schedule).finished = true :=
      System.exists_complete
    obtain ⟨grid', m', rest⟩ := ih grid.swapped (((grid.operation p).start m).run schedule).memory
    exact ⟨grid', m', .step schedule hf rest⟩

end Device

/-- From the haloed grid `u` and the RHS `f` the timesteps lead to the grid `v`, on the host or on
the device. -/
inductive Produces (shape : Shape2D P) (u f : List α) (params : List (JacobiParams α)) :
    List α → Prop where
  | host {output output' v : List α} (haloed_len : u.length = shape.haloedLen)
      (rhs_len : f.length = shape.interiorLen) (output_len : output.length = shape.interiorLen)
      (run : Reference.hostSteps shape f params (u, output) = some (v, output')) :
      Produces shape u f params v
  | device {grid grid' : DoubleGrid P} {m m' : Addr → α} (kept : grid.Kept)
      (shape_eq : grid.shape = shape) (fits : grid.completed + params.length ≤ P.usizeMax)
      (haloed : contents m grid.current.storage.tensor.storage = u)
      (rhs : contents m grid.rhs.storage.tensor.storage = f)
      (run : Advances grid m params grid' m') :
      Produces shape u f params (contents m' grid'.current.storage.tensor.storage)

section Produces

variable {shape : Shape2D P} {u f v : List α} {params : List (JacobiParams α)}

/-- Host and device agree. -/
theorem Produces.eq_timesteps (h : Produces shape u f params v) :
    u.length = shape.haloedLen ∧ f.length = shape.interiorLen ∧
      v = Reference.timesteps shape.interior f params u := by
  cases h with
  | host hu hf hout hrun =>
    obtain ⟨output', heq⟩ := Reference.hostSteps_eq hu hf hout params
    rw [hrun, Option.some.injEq, Prod.mk.injEq] at heq
    exact ⟨hu, hf, heq.1⟩
  | @device grid grid' m m' kept hshape hfits hu hf hrun =>
    subst hshape hu hf
    refine ⟨?_, ?_, (advances_contents hrun kept hfits).2⟩
    · rw [length_contents, kept.current_kept.rowMajor.len_eq, Shape2D.haloedLen_eq]
      rw [Shape2D.haloed_eq]
      rfl
    · have hrhs : grid.rhs.storage.tensor.RowMajor grid.shape.interior :=
        kept.rhs_shape ▸ kept.rhs_kept.rowMajor
      rw [length_contents, hrhs.len_eq, Shape2D.interiorLen_eq]
      rfl

/-- The host can always run. -/
theorem exists_produces (hu : u.length = shape.haloedLen) (hf : f.length = shape.interiorLen)
    (params : List (JacobiParams α)) :
    Produces shape u f params (Reference.timesteps shape.interior f params u) := by
  have hout : (List.replicate shape.interiorLen (Scalar.zero : α)).length = shape.interiorLen :=
    List.length_replicate
  obtain ⟨output', heq⟩ := Reference.hostSteps_eq hu hf hout params
  exact .host hu hf hout heq

end Produces
end Gudra
