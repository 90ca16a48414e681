import Gudra.Readability
import Gudra.Timesteps

/-! A double grid on the device refines the reference on the host. -/
namespace Gudra

open Scope Tiling

variable {P : Platform} {α : Type}

/-- The coefficients of every step, in the order of the steps. -/
def GridRecord.params (r : GridRecord P α) : List (JacobiParams α) :=
  r.batches.flatMap fun batch => List.replicate batch.1 batch.2

/-- The grid, the count and the coefficients of a batch. -/
def Request.batch? : Request P α → Option (DoubleGrid P × ℕ × JacobiParams α)
  | .advance grid count params | .advanceAsync grid count params => some (grid, count, params)
  | _ => none

/-- The cell is not in the interior of the haloed grid. -/
def Shape2D.OnHalo (shape : Shape2D P) (x : ℕ × ℕ) : Prop :=
  x.1 = 0 ∨ x.1 = shape.height + 1 ∨ x.2 = 0 ∨ x.2 = shape.width + 1

section Steps

variable [Scalar α] {shape : Shape2D P} {params : List (JacobiParams α)} {f u : List α}

/-- One half of a grid takes the timesteps of the reference. -/
theorem iterate_advanced (p : JacobiParams α) (n : ℕ) (c : List α × List α) :
    ((shape.advanced p f)^[n] c).1 =
      Reference.timesteps shape.interior f (List.replicate n p) c.1 := by
  induction n generalizing c with
  | zero => rfl
  | succ n ih => exact ih (shape.advanced p f c)

theorem timesteps_append (qs : List (JacobiParams α)) :
    Reference.timesteps shape.interior f (params ++ qs) u =
      Reference.timesteps shape.interior f qs (Reference.timesteps shape.interior f params u) :=
  List.foldl_append

/-- What a grid holds after its batches. -/
theorem GridRecord.contents_fst (r : GridRecord P α) :
    r.contents.1 = Reference.timesteps r.shape.interior r.rhs r.params r.initial := by
  have hfold : ∀ (batches : List (ℕ × JacobiParams α)) (c : List α × List α),
      (batches.foldl (fun c batch => (r.shape.advanced batch.2 r.rhs)^[batch.1] c) c).1 =
        Reference.timesteps r.shape.interior r.rhs
          (batches.flatMap fun batch => List.replicate batch.1 batch.2) c.1 := by
    intro batches
    induction batches with
    | nil => exact fun c => rfl
    | cons batch batches ih =>
      intro c
      rw [List.foldl_cons, ih, iterate_advanced, List.flatMap_cons, timesteps_append]
  exact hfold r.batches (r.initial, r.initial)

/-- A timestep leaves the halo alone. -/
theorem timestep_halo {p : JacobiParams α} (hu : u.length = shape.haloedLen) {x : ℕ × ℕ}
    (hx : x.1 < shape.height + 2 ∧ x.2 < shape.width + 2) (hhalo : shape.OnHalo x) :
    (Reference.timestep shape.interior p u f)[offset (shape.width + 2) x]? =
      u[offset (shape.width + 2) x]? := by
  have hout : ¬ (0 < x.1 ∧ x.1 ≤ shape.interior.1 ∧ 0 < x.2 ∧ x.2 ≤ shape.interior.2) := by
    intro hin
    have hin : 0 < x.1 ∧ x.1 ≤ shape.height ∧ 0 < x.2 ∧ x.2 ≤ shape.width := hin
    rcases hhalo with h | h | h | h <;> omega
  have hlen := hu.trans shape.haloedLen_eq
  have hcell : (Reference.timestep shape.interior p u f)[offset (shape.width + 2) x]? = some _ :=
    getElem?_table hx
  rw [hcell, Reference.getElem?_at hlen hx, Reference.timestepCell, if_neg hout]
  rfl

theorem timesteps_halo (hu : u.length = shape.haloedLen) {x : ℕ × ℕ}
    (hx : x.1 < shape.height + 2 ∧ x.2 < shape.width + 2) (hhalo : shape.OnHalo x) :
    (Reference.timesteps shape.interior f params u)[offset (shape.width + 2) x]? =
      u[offset (shape.width + 2) x]? := by
  induction params generalizing u with
  | nil => rfl
  | cons p params ih =>
    have hstep : (Reference.timestep shape.interior p u f).length = shape.haloedLen :=
      Reference.length_timestep.trans shape.haloedLen_eq.symm
    exact (ih hstep).trans (timestep_halo hu hx hhalo)

end Steps

section Logs

variable [Scalar α] {log before : List (Event P α)} {i id : ℕ} {r : Request P α} {u : ℕ → Bool}
  {m : Addr → α}

/-- A record starts with data of the right lengths. -/
theorem gridRecord_lengths (h : GoodLog log) {r : GridRecord P α}
    (hr : gridRecord log id = some r) :
    r.initial.length = r.shape.haloedLen ∧ r.rhs.length = r.shape.interiorLen := by
  induction log generalizing r with
  | nil => cases hr
  | cons e log ih =>
    have hsame : gridRecord log id = some r →
        r.initial.length = r.shape.haloedLen ∧ r.rhs.length = r.shape.interiorLen :=
      fun hr => ih h.2 hr
    have hbatch : ∀ {g : DoubleGrid P} {count : ℕ} {params : JacobiParams α},
        Function.update (gridRecord log) g.rhs.storage.id
          ((gridRecord log g.rhs.storage.id).map fun r => r.append count params) id = some r →
        r.initial.length = r.shape.haloedLen ∧ r.rhs.length = r.shape.interiorLen := by
      intro g count params hr
      by_cases hid : id = g.rhs.storage.id
      · rw [hid, Function.update_self, Option.map_eq_some_iff] at hr
        obtain ⟨r', hr', rfl⟩ := hr
        have hlengths : r'.initial.length = r'.shape.haloedLen ∧
            r'.rhs.length = r'.shape.interiorLen := ih h.2 (hid ▸ hr')
        exact hlengths
      · exact hsame ((Function.update_of_ne hid _ _).symm.trans hr)
    cases e with
    | returned i call result args stored =>
      cases result with
      | error e => cases call <;> exact hsame hr
      | ok o =>
        cases call with
        | doubleGrid session shape initial rhs =>
          cases o with
          | grid g =>
            by_cases hid : id = g.rhs.storage.id
            · have hself : gridRecord (.returned i (.doubleGrid session shape initial rhs)
                  (.ok (.grid g)) args stored :: log) id = some ⟨shape, initial, rhs, []⟩ := by
                rw [hid]
                exact Function.update_self ..
              obtain rfl := Option.some.inj (hself.symm.trans hr)
              obtain ⟨before, u, m, -, -, hends⟩ := h.1
              exact checkGrid_ok hends.1
            · exact hsame ((Function.update_of_ne hid _ _).symm.trans hr)
          | _ => exact hsame hr
        | advance grid count params | advanceAsync grid count params =>
          cases o with
          | grid g => exact hbatch hr
          | _ => exact hsame hr
        | _ => exact hsame hr
    | _ => exact hsame hr

/-- A snapshot is the reference's grid after the recorded steps. -/
theorem snapshot_eq {grid g : DoubleGrid P} {data : List α} {args : List (Bool × List α)}
    {stored : List (List α)}
    (h : Event.Good log (.returned i (.observe grid) (.ok (.observed g data)) args stored)) :
    ∃ r, gridRecord log grid.rhs.storage.id = some r ∧ grid.shape = r.shape ∧
      grid.completed = r.completed ∧ data = r.contents.1 := by
  obtain ⟨before, u, m, htold, -, -, -, ⟨-, -, hhead⟩, -, -, hrecord, -⟩ := h
  obtain ⟨r, hr, hshape, hcount, hat⟩ := htold.recorded grid List.mem_cons_self
  refine ⟨r, (hrecord grid List.mem_cons_self).trans hr, hshape, hcount, ?_⟩
  have hcontents := (htold.holds _ _ hat.current_eq).contents_eq hat.current_len
  have hhead : some (contents m grid.current.storage.tensor.storage) = some data := hhead
  exact (Option.some.inj hhead).symm.trans hcontents

/-- A batch succeeds where its steps fit into the counter. -/
theorem batch_completed {grid g : DoubleGrid P} {count : ℕ} {params : JacobiParams α}
    {args : List (Bool × List α)} {stored : List (List α)}
    (hr : r.batch? = some (grid, count, params))
    (h : Event.Good log (.returned i r (.ok (.grid g)) args stored)) :
    g.completed = grid.completed + count ∧ g.completed ≤ P.usizeMax := by
  obtain ⟨before, u, m, htold, -, hcheck, -, hresult, -⟩ := h
  cases r with
  | advance | advanceAsync =>
    cases hr
    have hfits := checkCount_eq_ok.mp hcheck
    obtain ⟨rfl, -⟩ := hresult
    rw [DoubleGrid.after_completed]
    exact ⟨rfl, hfits⟩
  | _ => cases hr

omit [Scalar α] in
/-- The check of a batch that does not fit fails. -/
theorem check_batch {grid : DoubleGrid P} {count : ℕ} {params : JacobiParams α}
    (hr : r.batch? = some (grid, count, params)) (hcheck : r.check u = .ok ()) :
    grid.completed + count ≤ P.usizeMax := by
  cases r with
  | advance | advanceAsync =>
    cases hr
    exact checkCount_eq_ok.mp hcheck
  | _ => cases hr

end Logs

section Snapshots

variable [Scalar α]

/-- In every run, every snapshot of a double grid is what the host obtains from the grid's initial
data by repeating the oracle and the copy, once for each step of its batches in their order; the
halo keeps its initial values; `observe` changes nothing; the counter is the sum of the counts; and
a batch that would wrap it is rejected without device work. -/
theorem double_grid_refines_reference (memory : Addr → α) (inputs : List (Input P α)) :
    let w := (World.init P memory).run inputs
    (∀ after i grid g data args stored log,
      w.log = after ++ .returned i (.observe grid) (.ok (.observed g data)) args stored :: log →
      (∃ r, gridRecord log grid.rhs.storage.id = some r ∧ grid.shape = r.shape ∧
        grid.completed = (r.batches.map Prod.fst).sum ∧
        r.initial.length = r.shape.haloedLen ∧ r.rhs.length = r.shape.interiorLen ∧
        (∀ output, output.length = r.shape.interiorLen →
          ∃ output', Reference.hostSteps r.shape r.rhs r.params (r.initial, output) =
            some (data, output')) ∧
        ∀ x, x.1 < r.shape.height + 2 ∧ x.2 < r.shape.width + 2 → r.shape.OnHalo x →
          data[offset (r.shape.width + 2) x]? = r.initial[offset (r.shape.width + 2) x]?) ∧
      g = grid ∧ ∃ args', .called i (.observe grid) args' ∈ log ∧ stored = args'.map Prod.snd) ∧
    (∀ n g, (n, Owner.grid g) ∈ w.owners → ∃ r, gridRecord w.log g.rhs.storage.id = some r ∧
      g.completed = (r.batches.map Prod.fst).sum ∧ g.completed ≤ P.usizeMax) ∧
    (∀ after i r grid count params g args stored log,
      w.log = after ++ .returned i r (.ok (.grid g)) args stored :: log →
      r.batch? = some (grid, count, params) →
      g.completed = grid.completed + count ∧ g.completed ≤ P.usizeMax) ∧
    ∀ after i r grid count params args before, w.log = after ++ .called i r args :: before →
      r.batch? = some (grid, count, params) → P.usizeMax < grid.completed + count →
      (∀ e ∈ w.log, e.task = i → ¬ e.Works) ∧ ∀ r' result args' stored,
        .returned i r' result args' stored ∈ w.log → ∃ e, result = .error e := by
  intro w
  have hinv : w.Inv := World.inv_run (World.inv_init memory) inputs
  refine ⟨?_, ?_, ?_, ?_⟩
  · intro after i grid g data args stored log he
    have hlog := he ▸ hinv.good
    have hrest : GoodLog log := hlog.of_append.2
    obtain ⟨r, hr, hshape, hcount, rfl⟩ := snapshot_eq hlog.good
    obtain ⟨hinitial, hrhs⟩ := gridRecord_lengths hrest hr
    obtain ⟨before, u, m, htold, -, -, -, ⟨hgrid, hstored, -⟩, -⟩ := hlog.good
    refine ⟨⟨r, hr, hshape, hcount, hinitial, hrhs, fun output hout => ?_, fun x hx hhalo => ?_⟩,
      hgrid, _, htold.mem, hstored⟩
    · rw [r.contents_fst]
      exact Reference.hostSteps_eq hinitial hrhs hout r.params
    · rw [r.contents_fst]
      exact timesteps_halo hinitial hx hhalo
  · intro n g hmem
    have hgood := hinv.owners _ hmem
    obtain ⟨r, hr, -, hcount, -⟩ := hgood.recorded g rfl
    exact ⟨r, hr, hcount, hgood.kept.completed_le⟩
  · intro after i r grid count params g args stored log he hr
    exact batch_completed hr (he ▸ hinv.good).good
  · intro after i r grid count params args before he hr hlt
    have hcheck : ∀ u, r.check u ≠ .ok () := by
      intro u hok
      have hfits := check_batch hr hok
      omega
    refine ⟨idle_of_rejected hinv.good he fun u m _ => hcheck u,
      fun r' result args' stored hreturned => ?_⟩
    exact error_of_rejected hinv.good he (fun u m _ => hcheck u) hreturned

/-- One step of a grid with one interior cell, whose nine blocks take turns, and a snapshot. -/
def steppedCell : List (Input ⟨64, Platform.le_64⟩ ℚ) :=
  .newGpu 0 .gridCell ::
  .call (.doubleGrid 0 Shape2D.cell [1, 2, 3, 4, 5, 6, 7, 8, 9] [1]) ::
  List.replicate 31 (.tick 0 .ok) ++ .call (.advance 0 1 ⟨1 / 2, 1⟩) ::
  List.replicate 4 (.tick 1 .ok) ++
  (List.replicate 10 ((List.range 9).map fun b => Input.access 0 b)).flatten ++ .finish 0 ::
  List.replicate 12 (.tick 1 .ok) ++ .call (.observe 1) :: List.replicate 12 (.tick 2 .ok)

example : (match ((World.init _ fun _ => 0).run steppedCell).log with
    | .returned _ (.observe _) (.ok (.observed _ data)) _ _ :: _ => some data
    | _ => none) = some [1, 2, 3, 4, 39 / 8, 6, 7, 8, 9] := by decide +kernel

end Snapshots
end Gudra
