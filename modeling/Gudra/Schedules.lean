import Gudra.Launches

/-! Every schedule of a launch leaves the same memory. -/
namespace Gudra

open Tiling Interleave

variable {P : Platform} {α : Type} [Scalar α] {shape : Shape2D P} {l : Launch α}

/-- The cells of the output. -/
def Launch.outputCells (shape : Shape2D P) (l : Launch α) : List Addr :=
  (positions (l.extent shape).1 (l.extent shape).2).map fun x =>
    (l.output.storage.id, offset (l.extent shape).2 x)

/-- The launch with no access made yet. -/
def Launch.start (l : Launch α) (m : Addr → α) : System Addr α := System.start m l.blocks

/-- What one access of a run may be: a load of an input cell, which still holds its initial value,
or a store to an output cell. -/
def Launch.Allowed (shape : Shape2D P) (l : Launch α) (m : Addr → α) : Access Addr α → Prop
  | .load a v => (∃ t ∈ l.inputs, a.1 = t.storage.id ∧ a.2 < t.storage.len) ∧ v = m a
  | .store a v => ∃ x, (x.1 < (l.extent shape).1 ∧ x.2 < (l.extent shape).2) ∧
      a = (l.output.storage.id, offset (l.extent shape).2 x) ∧ v = l.cellValue shape m x

namespace Launch.WellFormed

variable {m : Addr → α} {a : Addr}

theorem map_fst_stores (h : l.WellFormed shape) (m : Addr → α) :
    ((l.blocks.flatMap (Prog.stores m)).map Prod.fst).Perm (l.outputCells shape) := by
  have hperm := (h.blocks_stores m).map Prod.fst
  rwa [List.map_map] at hperm

omit [Scalar α] in
theorem not_mem_outputCells (ha : a.1 ≠ l.output.storage.id) : a ∉ l.outputCells shape := by
  intro hmem
  obtain ⟨x, -, rfl⟩ := List.mem_map.mp hmem
  exact ha rfl

theorem allowed_of_foreseen (h : l.WellFormed shape) {acc : Access Addr α}
    (hacc : Foreseen m l.blocks acc) : l.Allowed shape m acc := by
  cases acc with
  | load a v => exact ⟨h.blocks_loads hacc.1, hacc.2⟩
  | store a v =>
    obtain ⟨x, hx, heq⟩ := h.mem_stores.mp hacc
    rw [Prod.mk.injEq] at heq
    exact ⟨x, hx, heq⟩

/-- What holds after any accesses of any blocks. -/
theorem run_allowed (h : l.WellFormed shape) (m : Addr → α) (schedule : List ℕ) :
    (∀ acc ∈ ((l.start m).run schedule).trace, l.Allowed shape m acc) ∧
      ∀ a, a ∉ l.outputCells shape → ((l.start m).run schedule).memory a = m a := by
  have hinv := System.inv_run (h.separate m) System.inv_start schedule
  refine ⟨fun acc hacc => h.allowed_of_foreseen (hinv.trace acc hacc), ?_⟩
  intro a ha
  refine hinv.untouched a ?_
  rwa [(h.map_fst_stores m).mem_iff]

/-- What a complete run leaves in the output. -/
theorem run_complete (h : l.WellFormed shape) (m : Addr → α) {schedule : List ℕ}
    (hf : ((l.start m).run schedule).finished = true) :
    (((l.start m).run schedule).stored.map Prod.fst).Perm (l.outputCells shape) ∧
      ∀ x, x.1 < (l.extent shape).1 ∧ x.2 < (l.extent shape).2 →
        ((l.start m).run schedule).memory (l.output.storage.id, offset (l.extent shape).2 x) =
          l.cellValue shape m x := by
  obtain ⟨hperm, hmem, -⟩ := System.complete_run (h.separate m) hf
  refine ⟨(hperm.map Prod.fst).trans (h.map_fst_stores m), ?_⟩
  intro x hx
  exact hmem _ (h.mem_stores.mpr ⟨x, hx, rfl⟩)

end Launch.WellFormed

/-- Schedule independence: some schedule completes, every complete one leaves the same memory and
stores each output cell exactly once, and no access of any run reads what another one writes. -/
theorem launch_schedule_independent (h : l.WellFormed shape) (m : Addr → α) :
    (∃ xs, ((l.start m).run xs).finished = true) ∧
    (∀ xs ys, ((l.start m).run xs).finished = true → ((l.start m).run ys).finished = true →
      ((l.start m).run xs).memory = ((l.start m).run ys).memory) ∧
    (∀ xs, ((l.start m).run xs).finished = true →
      (((l.start m).run xs).stored.map Prod.fst).Perm (l.outputCells shape)) ∧
    (l.outputCells shape).Nodup ∧
    (∀ xs, ∀ acc ∈ ((l.start m).run xs).trace, l.Allowed shape m acc) ∧
    (∀ p ∈ l.blocks, ∀ q ∈ l.blocks, ∀ a ∈ p.loads m, a ∉ (q.stores m).map Prod.fst) ∧
    (∀ xs, ∀ t ∈ l.inputs, ∀ n,
      ((l.start m).run xs).memory (t.storage.id, n) = m (t.storage.id, n)) ∧
    ∀ xs a, a ∉ l.outputCells shape → ((l.start m).run xs).memory a = m a := by
  have hsep := h.separate m
  refine ⟨System.exists_complete, ?_, ?_, ?_, ?_, ?_, ?_, ?_⟩
  · intro xs ys hx hy
    exact System.memory_unique hsep hx hy
  · intro xs hx
    exact (h.run_complete m hx).1
  · exact (h.map_fst_stores m).nodup_iff.mp hsep.nodup
  · intro xs
    exact (h.run_allowed m xs).1
  · intro p hp q hq a ha hmem
    refine hsep.apart a (List.mem_flatMap.mpr ⟨p, hp, ha⟩) ?_
    obtain ⟨w, hw, rfl⟩ := List.mem_map.mp hmem
    exact List.mem_map_of_mem (List.mem_flatMap.mpr ⟨q, hq, hw⟩)
  · intro xs t ht n
    refine (h.run_allowed m xs).2 _ ?_
    exact Launch.WellFormed.not_mem_outputCells (h.inputs_ne t ht)
  · intro xs a ha
    exact (h.run_allowed m xs).2 a ha

/-- A timestep over one interior cell, with its grids in allocations 0 and 1 and the RHS in 2. -/
def cellTimestep : Launch ℚ :=
  .timestep ⟨⟨1, 0, 0, 9⟩, [3, 3], [3, 1]⟩ ⟨⟨0, 0, 0, 9⟩, [3, 3], [3, 1]⟩
    ⟨⟨2, 0, 0, 1⟩, [1, 1], [1, 1]⟩ 1 1 (1 / 2) 1

theorem cellTimestep_wellFormed : cellTimestep.WellFormed Shape2D.cell :=
  .timestep ⟨rfl, rfl, rfl⟩ ⟨rfl, rfl, rfl⟩ ⟨rfl, rfl, rfl⟩ (by decide)

theorem launch_schedule_independent_cell :
    ∃ xs, ((cellTimestep.start fun _ => 0).run xs).finished = true :=
  (launch_schedule_independent cellTimestep_wellFormed _).1

end Gudra
