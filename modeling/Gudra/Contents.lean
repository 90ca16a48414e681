import Gudra.World

/-! The abstract store: what each allocation holds, from what happened to it. -/
namespace Gudra

open Tiling Interleave

variable {P : Platform} {α : Type}

/-- What is known of an allocation. Only `settled` contents may be read. -/
inductive Status (α : Type) where
  | absent
  | settled (data : List α)
  | busy
  | broken

/-- The committed contents. -/
def Status.data : Status α → List α
  | settled data => data
  | _ => []

/-- The interior or haloed extent of a rank-two tensor. -/
def Tensor.extent (t : Tensor) : ℕ × ℕ :=
  match t.shape with
  | [rows, columns] => (rows.toNat, columns.toNat)
  | _ => (0, 0)

theorem Tensor.RowMajor.extent_eq {t : Tensor} {extent : ℕ × ℕ} (h : t.RowMajor extent) :
    t.extent = extent := by
  simp [Tensor.extent, h.shape_eq]

section Commit

variable [Scalar α]

/-- What a successful launch commits to its output, from the committed contents of its inputs. -/
def Launch.commit (read : ℕ → List α) : Launch α → List α
  | timestep _ input rhs _ _ omega hSquared =>
    Reference.timestep rhs.extent ⟨omega, hSquared⟩ (read input.storage.id) (read rhs.storage.id)
  | jacobi output views rhs omega hSquared =>
    Reference.jacobi output.extent ⟨omega, hSquared⟩ (read views.center.base.storage.id)
      (read rhs.storage.id)
  | laplacian output views inverseHSquared =>
    Reference.laplacian output.extent ⟨inverseHSquared⟩ (read views.center.base.storage.id)

/-- How one event changes what is known. -/
def Event.apply (e : Event P α) (s : ℕ → Status α) : ℕ → Status α :=
  match e with
  | uploaded _ storage data => Function.update s storage.id (.settled data)
  | submitted _ l => Function.update s l.output.storage.id .busy
  | completed _ l =>
    Function.update s l.output.storage.id (.settled (l.commit fun id => (s id).data))
  | failed _ l => Function.update s l.output.storage.id .broken
  | _ => s

/-- What is known after a log. -/
def status : List (Event P α) → ℕ → Status α
  | [] => fun _ => .absent
  | e :: log => e.apply (status log)

end Commit

/-- The allocation `id` starts with `data`. -/
def Holds (m : Addr → α) (id : ℕ) (data : List α) : Prop :=
  ∀ n a, data[n]? = some a → m (id, n) = a

section Holds

variable {m m' : Addr → α} {id : ℕ} {data : List α} {s : Storage}

theorem Holds.congr (h : Holds m id data) (hm : ∀ n, m' (id, n) = m (id, n)) :
    Holds m' id data := by
  intro n a ha
  rw [hm n]
  exact h n a ha

theorem Holds.contents_eq (h : Holds m s.id data) (hlen : data.length = s.len) :
    contents m s = data := by
  refine List.ext_getElem? fun n => ?_
  by_cases hn : n < s.len
  · rw [getElem?_contents hn, List.getElem?_eq_getElem (hlen ▸ hn)]
    exact congrArg some (h n _ (List.getElem?_eq_getElem _))
  · rw [List.getElem?_eq_none (by simpa using hn), List.getElem?_eq_none (by omega)]

theorem holds_table {rows cols : ℕ} {f : ℕ × ℕ → α}
    (h : ∀ x, x.1 < rows ∧ x.2 < cols → m (id, offset cols x) = f x) :
    Holds m id (table rows cols f) := by
  intro n a ha
  have hn : n < rows * cols := by
    by_contra hn
    rw [List.getElem?_eq_none (by simpa using hn)] at ha
    cases ha
  have hin := div_mod_mem hn
  have hget := getElem?_table (f := f) (x := (n / cols, n % cols)) hin
  rw [offset_div_mod, ha, Option.some.injEq] at hget
  have hx := h (n / cols, n % cols) hin
  rw [offset_div_mod] at hx
  rw [hx, hget]

end Holds

section Agreement

variable [Scalar α] {shape : Shape2D P} {l : Launch α} {m : Addr → α} {read : ℕ → List α}

theorem timestepCell_congr {u v f g : ℕ × ℕ → α} {params : JacobiParams α} {x : ℕ × ℕ}
    (hu : ∀ y, y.1 < shape.height + 2 ∧ y.2 < shape.width + 2 → u y = v y)
    (hf : ∀ y, y.1 < shape.height ∧ y.2 < shape.width → f y = g y)
    (hx : x.1 < shape.height + 2 ∧ x.2 < shape.width + 2) :
    Reference.timestepCell shape.interior params u f x =
      Reference.timestepCell shape.interior params v g x := by
  by_cases hb : 0 < x.1 ∧ x.1 ≤ shape.interior.1 ∧ 0 < x.2 ∧ x.2 ≤ shape.interior.2
  · have hin : 0 < x.1 ∧ x.1 ≤ shape.height ∧ 0 < x.2 ∧ x.2 ≤ shape.width := hb
    rw [Reference.timestepCell, Reference.timestepCell, if_pos hb, if_pos hb]
    exact jacobiCell_congr hu hf (by simp only; omega)
  · rw [Reference.timestepCell, Reference.timestepCell, if_neg hb, if_neg hb]
    exact hu x hx

/-- The cells that the kernel stores are the committed contents. -/
theorem Launch.WellFormed.commit_eq (h : l.WellFormed shape)
    (hread : ∀ t ∈ l.inputs, read t.storage.id = contents m t.storage) :
    l.commit read = table (l.extent shape).1 (l.extent shape).2 (l.cellValue shape m) := by
  cases h with
  | @timestep output input rhs _ _ _ hinput hrhs =>
    have hin := hread input List.mem_cons_self
    have hforce := hread rhs (List.mem_cons_of_mem _ List.mem_cons_self)
    simp only [commit, Reference.timestep, hin, hforce, hrhs.extent_eq]
    rw [shape.haloed_eq] at hinput
    refine List.map_congr_left fun x hx => ?_
    exact timestepCell_congr (fun y hy => at_contents hinput hy)
      (fun y hy => at_contents hrhs hy) (mem_positions.mp hx)
  | @jacobi output source rhs views _ _ houtput hsource hviews hrhs =>
    obtain rfl := viewsOf_of_directionalViews hsource hviews
    have hin := hread source List.mem_cons_self
    have hforce := hread rhs (List.mem_append_right _ List.mem_cons_self)
    have hbase : (viewsOf shape source).center.base = source := rfl
    simp only [commit, Reference.jacobi, hbase, hin, hforce, houtput.extent_eq]
    rw [shape.haloed_eq] at hsource
    refine List.map_congr_left fun x hx => ?_
    exact jacobiCell_congr (fun y hy => at_contents hsource hy)
      (fun y hy => at_contents hrhs hy) (mem_positions.mp hx)
  | @laplacian output source views _ houtput hsource hviews =>
    obtain rfl := viewsOf_of_directionalViews hsource hviews
    have hin := hread source List.mem_cons_self
    have hbase : (viewsOf shape source).center.base = source := rfl
    simp only [commit, Reference.laplacian, hbase, hin, houtput.extent_eq]
    rw [shape.haloed_eq] at hsource
    refine List.map_congr_left fun x hx => ?_
    exact laplacianCell_congr (fun y hy => at_contents hsource hy) (mem_positions.mp hx)

/-- Only the inputs are read. -/
theorem Launch.commit_congr {read' : ℕ → List α}
    (h : ∀ t ∈ l.inputs, read t.storage.id = read' t.storage.id) : l.commit read = l.commit read' := by
  cases l with
  | timestep output input rhs =>
    have hin := h input List.mem_cons_self
    have hforce := h rhs (List.mem_cons_of_mem _ List.mem_cons_self)
    simp only [commit, hin, hforce]
  | jacobi output views rhs =>
    have hin := h views.center.base List.mem_cons_self
    have hforce := h rhs (List.mem_append_right _ List.mem_cons_self)
    simp only [commit, hin, hforce]
  | laplacian output views =>
    have hin := h views.center.base List.mem_cons_self
    simp only [commit, hin]

theorem Launch.WellFormed.length_commit (h : l.WellFormed shape) :
    (l.commit read).length = l.output.storage.len := by
  have hlen := h.output_ok.len_eq
  cases h with
  | timestep houtput hinput hrhs =>
    simp only [Launch.extent, Launch.output] at hlen
    simp only [commit, Reference.timestep, length_table, hrhs.extent_eq, Launch.output, hlen]
    rfl
  | jacobi houtput =>
    simp only [commit, Reference.jacobi, length_table, houtput.extent_eq, Launch.output,
      houtput.len_eq]
  | laplacian houtput =>
    simp only [commit, Reference.laplacian, length_table, houtput.extent_eq, Launch.output,
      houtput.len_eq]

end Agreement
end Gudra
