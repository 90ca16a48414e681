import Gudra.Schedules

/-! The tiled single-step kernels against the scalar oracle. -/
namespace Gudra

open Tiling Interleave

variable {P : Platform} {α : Type} {shape : Shape2D P}

/-- What an allocation holds, in order. -/
def contents (m : Addr → α) (s : Storage) : List α :=
  (List.range s.len).map fun n => m (s.id, n)

@[simp] theorem length_contents {m : Addr → α} {s : Storage} : (contents m s).length = s.len := by
  simp [contents]

theorem getElem?_contents {m : Addr → α} {s : Storage} {n : ℕ} (h : n < s.len) :
    (contents m s)[n]? = some (m (s.id, n)) := by
  simp [contents, h]

/-- The haloed element that each directional view has at interior position `x`. -/
structure ViewsAt (shape : Shape2D P) (source : Tensor) (views : ReadViews) (x : ℕ × ℕ) :
    Prop where
  center : views.center.element x.1 x.2 =
    some (source.storage.id, offset (shape.width + 2) (x.1 + 1, x.2 + 1))
  north : views.north.element x.1 x.2 =
    some (source.storage.id, offset (shape.width + 2) (x.1, x.2 + 1))
  south : views.south.element x.1 x.2 =
    some (source.storage.id, offset (shape.width + 2) (x.1 + 2, x.2 + 1))
  east : views.east.element x.1 x.2 =
    some (source.storage.id, offset (shape.width + 2) (x.1 + 1, x.2 + 2))
  west : views.west.element x.1 x.2 =
    some (source.storage.id, offset (shape.width + 2) (x.1 + 1, x.2))
  in_bounds : ∀ view ∈ views.all, ∀ a, view.element x.1 x.2 = some a → a.2 < source.storage.len

theorem viewsAt {source : Tensor} (h : source.RowMajor shape.haloed) {x : ℕ × ℕ}
    (hx : x.1 < shape.height ∧ x.2 < shape.width) :
    ViewsAt shape source (viewsOf shape source) x := by
  obtain ⟨hc, hn, hs, he, hw⟩ := window_viewsOf shape source
  have hin : inside shape.height shape.width x = true := inside_iff.mpr hx
  have helement := fun {v : TensorView} {origin}
      (hv : v.Window origin (shape.width + 2) (shape.height, shape.width)) =>
    (hv.element_eq x).trans (if_pos hin)
  refine ⟨?_, ?_, ?_, ?_, ?_, ?_⟩
  · rw [helement hc]
    simp [viewsOf, Nat.add_comm]
  · rw [helement hn]
    simp [viewsOf, Nat.add_comm]
  · rw [helement hs]
    simp [viewsOf, Nat.add_comm]
  · rw [helement he]
    simp [viewsOf, Nat.add_comm]
  · rw [helement hw]
    simp [viewsOf, Nat.add_comm]
  · intro view hview a ha
    simp only [ReadViews.all, List.mem_cons, List.not_mem_nil, or_false] at hview
    rcases hview with rfl | rfl | rfl | rfl | rfl
    · exact ((fits_of_haloed h hc rfl (by decide)).element_mem ha).2
    · exact ((fits_of_haloed h hn rfl (by decide)).element_mem ha).2
    · exact ((fits_of_haloed h hs rfl (by decide)).element_mem ha).2
    · exact ((fits_of_haloed h he rfl (by decide)).element_mem ha).2
    · exact ((fits_of_haloed h hw rfl (by decide)).element_mem ha).2

section Agreement

variable [Scalar α] {m : Addr → α} {t source rhs : Tensor}

theorem at_contents {rows cols : ℕ} (h : t.RowMajor (rows, cols)) {x : ℕ × ℕ}
    (hx : x.1 < rows ∧ x.2 < cols) :
    Reference.at_ cols (contents m t.storage) x = gridOf m t cols x := by
  have hlt : offset cols x < t.storage.len := by
    rw [h.len_eq]
    exact offset_lt hx
  simp [Reference.at_, List.getD, getElem?_contents hlt, gridOf]

theorem jacobiCell_congr {u v f g : ℕ × ℕ → α} {params : JacobiParams α} {x : ℕ × ℕ}
    (hu : ∀ y, y.1 < shape.height + 2 ∧ y.2 < shape.width + 2 → u y = v y)
    (hf : ∀ y, y.1 < shape.height ∧ y.2 < shape.width → f y = g y)
    (hx : x.1 < shape.height ∧ x.2 < shape.width) :
    Reference.jacobiCell params u f x = Reference.jacobiCell params v g x := by
  simp only [Reference.jacobiCell, Reference.center, Reference.north, Reference.south,
    Reference.east, Reference.west]
  rw [hu (x.1 + 1, x.2 + 1) (by simp; omega), hu (x.1, x.2 + 1) (by simp; omega),
    hu (x.1 + 2, x.2 + 1) (by simp; omega), hu (x.1 + 1, x.2 + 2) (by simp; omega),
    hu (x.1 + 1, x.2) (by simp; omega), hf x hx]

theorem laplacianCell_congr {u v : ℕ × ℕ → α} {params : LaplacianParams α} {x : ℕ × ℕ}
    (hu : ∀ y, y.1 < shape.height + 2 ∧ y.2 < shape.width + 2 → u y = v y)
    (hx : x.1 < shape.height ∧ x.2 < shape.width) :
    Reference.laplacianCell params u x = Reference.laplacianCell params v x := by
  simp only [Reference.laplacianCell, Reference.center, Reference.north, Reference.south,
    Reference.east, Reference.west]
  rw [hu (x.1 + 1, x.2 + 1) (by simp; omega), hu (x.1, x.2 + 1) (by simp; omega),
    hu (x.1 + 2, x.2 + 1) (by simp; omega), hu (x.1 + 1, x.2 + 2) (by simp; omega),
    hu (x.1 + 1, x.2) (by simp; omega)]

end Agreement

/-- The arguments of a single step: row-major tensors of one shape, the output apart from the
others. -/
structure StepTensors (shape : Shape2D P) where
  source : Tensor
  rhs : Tensor
  output : Tensor
  source_ok : source.RowMajor shape.haloed
  rhs_ok : rhs.RowMajor shape.interior
  output_ok : output.RowMajor shape.interior
  source_ne : source.storage.id ≠ output.storage.id
  rhs_ne : rhs.storage.id ≠ output.storage.id

namespace StepTensors

variable (ts : StepTensors shape)

def jacobi (params : JacobiParams α) : Launch α :=
  .jacobi ts.output (viewsOf shape ts.source) ts.rhs params.omega params.hSquared

def laplacian (params : LaplacianParams α) : Launch α :=
  .laplacian ts.output (viewsOf shape ts.source) params.inverseHSquared

theorem jacobi_wellFormed (params : JacobiParams α) : (ts.jacobi params).WellFormed shape := by
  refine .jacobi ts.output_ok ts.source_ok (directionalViews_eq ts.source_ok) ts.rhs_ok ?_
  intro t ht
  simp only [List.mem_cons, List.not_mem_nil, or_false] at ht
  rcases ht with rfl | rfl
  · exact ts.source_ne
  · exact ts.rhs_ne

theorem laplacian_wellFormed (params : LaplacianParams α) :
    (ts.laplacian params).WellFormed shape :=
  .laplacian ts.output_ok ts.source_ok (directionalViews_eq ts.source_ok) ts.source_ne

variable [Scalar α]

/-- The oracle's output for the contents of the source and the RHS. -/
theorem jacobiInto_contents (params : JacobiParams α) (m : Addr → α) {out : List α}
    (hout : out.length = shape.interiorLen) :
    Reference.jacobiInto shape (contents m ts.source.storage) (contents m ts.rhs.storage) params
      out = some (.ok (), table shape.height shape.width ((ts.jacobi params).cellValue shape m)) := by
  have hsource := ts.source_ok
  rw [shape.haloed_eq] at hsource
  rw [Reference.jacobiInto_eq (by rw [length_contents, hsource.len_eq, shape.haloedLen_eq]) hout
    (by rw [length_contents, ts.rhs_ok.len_eq, shape.interiorLen_eq]; rfl)]
  congr 2
  refine List.map_congr_left fun x hx => ?_
  exact jacobiCell_congr (fun y hy => at_contents hsource hy)
    (fun y hy => at_contents ts.rhs_ok hy) (mem_positions.mp hx)

theorem laplacianInto_contents (params : LaplacianParams α) (m : Addr → α) {out : List α}
    (hout : out.length = shape.interiorLen) :
    Reference.laplacianInto shape (contents m ts.source.storage) params out =
      some (.ok (), table shape.height shape.width ((ts.laplacian params).cellValue shape m)) := by
  have hsource := ts.source_ok
  rw [shape.haloed_eq] at hsource
  rw [Reference.laplacianInto_eq (by rw [length_contents, hsource.len_eq, shape.haloedLen_eq])
    hout]
  congr 2
  refine List.map_congr_left fun x hx => ?_
  exact laplacianCell_congr (fun y hy => at_contents hsource hy) (mem_positions.mp hx)

end StepTensors

/-- A complete run leaves in the output what the oracle writes, whatever the oracle's output slice
held before. -/
def Launch.LeavesOracle [Scalar α] (shape : Shape2D P) (l : Launch α) (m : Addr → α)
    (oracle : Reference.Slice α Unit) : Prop :=
  (∃ xs, ((l.start m).run xs).finished = true) ∧
  ∀ xs, ((l.start m).run xs).finished = true →
    (((l.start m).run xs).stored.map Prod.fst).Perm (l.outputCells shape) ∧
    (∀ a, a ∉ l.outputCells shape → ((l.start m).run xs).memory a = m a) ∧
    ∀ out : List α, out.length = shape.interiorLen →
      oracle out = some (.ok (), contents ((l.start m).run xs).memory l.output.storage)

theorem leavesOracle_of_wellFormed [Scalar α] {l : Launch α} (h : l.WellFormed shape)
    (m : Addr → α) {oracle : Reference.Slice α Unit}
    (hextent : l.extent shape = (shape.height, shape.width))
    (horacle : ∀ out : List α, out.length = shape.interiorLen →
      oracle out = some (.ok (), table shape.height shape.width (l.cellValue shape m))) :
    l.LeavesOracle shape m oracle := by
  refine ⟨System.exists_complete, ?_⟩
  intro xs hf
  obtain ⟨hstored, hvalue⟩ := h.run_complete m hf
  refine ⟨hstored, (h.run_allowed m xs).2, ?_⟩
  intro out hout
  rw [horacle out hout]
  have hlen := h.output_ok.len_eq
  rw [hextent] at hlen hvalue
  refine congrArg (fun l => some (Except.ok (), l)) (ext_table (by simp [hlen]) ?_).symm
  intro x hx
  rw [getElem?_contents (hlen ▸ offset_lt hx)]
  exact congrArg some (hvalue x hx)

/-- Both tiled kernels, in every complete interleaving of the blocks of the launch grid, store each
cell of the output exactly once and nothing else, and leave the oracle's result in it. -/
theorem tiled_matches_reference [Scalar α] (ts : StepTensors shape) (m : Addr → α)
    (jparams : JacobiParams α) (lparams : LaplacianParams α) :
    (∃ views, directionalViews shape ts.source = some (.ok views) ∧
      ts.jacobi jparams = .jacobi ts.output views ts.rhs jparams.omega jparams.hSquared ∧
      ts.laplacian lparams = .laplacian ts.output views lparams.inverseHSquared ∧
      ∀ x, x.1 < shape.height ∧ x.2 < shape.width → ViewsAt shape ts.source views x) ∧
    (ts.jacobi jparams).grid =
      .ok (Shape2D.divCeil shape.height 16, Shape2D.divCeil shape.width 16) ∧
    (ts.laplacian lparams).grid =
      .ok (Shape2D.divCeil shape.height 16, Shape2D.divCeil shape.width 16) ∧
    (ts.jacobi jparams).LeavesOracle shape m (Reference.jacobiInto shape
      (contents m ts.source.storage) (contents m ts.rhs.storage) jparams) ∧
    (ts.laplacian lparams).LeavesOracle shape m (Reference.laplacianInto shape
      (contents m ts.source.storage) lparams) := by
  have hj := ts.jacobi_wellFormed jparams
  have hl := ts.laplacian_wellFormed lparams
  refine ⟨⟨_, directionalViews_eq ts.source_ok, rfl, rfl, ?_⟩, hj.grid_eq, hl.grid_eq, ?_, ?_⟩
  · intro x hx
    exact viewsAt ts.source_ok hx
  · exact leavesOracle_of_wellFormed hj m rfl fun out hout =>
      ts.jacobiInto_contents jparams m hout
  · exact leavesOracle_of_wellFormed hl m rfl fun out hout =>
      ts.laplacianInto_contents lparams m hout

end Gudra
