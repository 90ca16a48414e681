import Gudra.Kernels

/-! What a well-formed launch loads and stores, for each of the three kernels. -/
namespace Gudra

open Tiling Interleave

variable {P : Platform} {α : Type}

/-- The arguments as the facade builds them for `shape`, with an output that is no input. -/
inductive Launch.WellFormed (shape : Shape2D P) : Launch α → Prop where
  | timestep {output input rhs : Tensor} {omega hSquared : α}
      (output_ok : output.RowMajor shape.haloed) (input_ok : input.RowMajor shape.haloed)
      (rhs_ok : rhs.RowMajor shape.interior)
      (apart : ∀ t ∈ [input, rhs], t.storage.id ≠ output.storage.id) :
      WellFormed shape (.timestep output input rhs shape.height shape.width omega hSquared)
  | jacobi {output source rhs : Tensor} {views : ReadViews} {omega hSquared : α}
      (output_ok : output.RowMajor shape.interior) (source_ok : source.RowMajor shape.haloed)
      (views_ok : directionalViews shape source = some (.ok views))
      (rhs_ok : rhs.RowMajor shape.interior)
      (apart : ∀ t ∈ [source, rhs], t.storage.id ≠ output.storage.id) :
      WellFormed shape (.jacobi output views rhs omega hSquared)
  | laplacian {output source : Tensor} {views : ReadViews} {inverseHSquared : α}
      (output_ok : output.RowMajor shape.interior) (source_ok : source.RowMajor shape.haloed)
      (views_ok : directionalViews shape source = some (.ok views))
      (apart : source.storage.id ≠ output.storage.id) :
      WellFormed shape (.laplacian output views inverseHSquared)

namespace Launch

/-- The extent of the output: haloed for a timestep, interior for a single step. -/
def extent (shape : Shape2D P) : Launch α → ℕ × ℕ
  | timestep .. => (shape.height + 2, shape.width + 2)
  | jacobi .. | laplacian .. => (shape.height, shape.width)

variable [Scalar α]

/-- The value that the launch stores in cell `x`, from the memory before it. -/
def cellValue (shape : Shape2D P) (m : Addr → α) : Launch α → ℕ × ℕ → α
  | timestep _ input rhs _ _ omega hSquared =>
    Reference.timestepCell shape.interior ⟨omega, hSquared⟩ (gridOf m input (shape.width + 2))
      (gridOf m rhs shape.width)
  | jacobi _ views rhs omega hSquared =>
    Reference.jacobiCell ⟨omega, hSquared⟩ (gridOf m views.center.base (shape.width + 2))
      (gridOf m rhs shape.width)
  | laplacian _ views inverseHSquared =>
    Reference.laplacianCell ⟨inverseHSquared⟩ (gridOf m views.center.base (shape.width + 2))

end Launch

section Views

variable {shape : Shape2D P} {t : Tensor} {views : ReadViews}

theorem viewsOf_of_directionalViews (h : t.RowMajor shape.haloed)
    (hviews : directionalViews shape t = some (.ok views)) : views = viewsOf shape t := by
  rw [directionalViews_eq h, Option.some.injEq, Except.ok.injEq] at hviews
  exact hviews.symm

/-- Each directional view is the window of the interior shifted by one cell. -/
theorem window_viewsOf (shape : Shape2D P) (t : Tensor) :
    (viewsOf shape t).center.Window (1, 1) (shape.width + 2) (shape.height, shape.width) ∧
    (viewsOf shape t).north.Window (0, 1) (shape.width + 2) (shape.height, shape.width) ∧
    (viewsOf shape t).south.Window (2, 1) (shape.width + 2) (shape.height, shape.width) ∧
    (viewsOf shape t).east.Window (1, 2) (shape.width + 2) (shape.height, shape.width) ∧
    (viewsOf shape t).west.Window (1, 0) (shape.width + 2) (shape.height, shape.width) := by
  refine ⟨?_, ?_, ?_, ?_, ?_⟩ <;> exact ⟨rfl, rfl, rfl⟩

theorem fits_of_haloed (h : t.RowMajor shape.haloed) {v : TensorView} {origin : ℕ × ℕ}
    (hw : v.Window origin (shape.width + 2) (shape.height, shape.width)) (hbase : v.base = t)
    (horigin : origin.1 ≤ 2 ∧ origin.2 ≤ 2) : hw.Fits (shape.height + 2) := by
  refine ⟨?_, ?_, ?_⟩
  · have := horigin.1
    simp only
    omega
  · have := horigin.2
    simp only
    omega
  · rw [hbase, h.len_eq, shape.haloed_eq]

theorem Tensor.RowMajor.fits {extent : ℕ × ℕ} (h : t.RowMajor extent) : h.window.Fits extent.1 :=
  ⟨by simp, by simp, h.len_eq⟩

end Views

section Stores

variable [Scalar α] {shape : Shape2D P} {m : Addr → α} {output source rhs : Tensor} {b : ℕ × ℕ}

@[simp] theorem stores_loadTile {v : TensorView} {edge : ℕ} {index : ℤ × ℤ} :
    (v.loadTile edge index : Prog Addr α (Tile α)).stores m = [] := by
  simp [TensorView.loadTile]

omit [Scalar α] in
@[simp] theorem loads_store {v : TensorView} {edge : ℕ} {index : ℤ × ℤ} {value : Tile α} :
    (v.store edge index value).loads m = [] := by
  simp [TensorView.store]

theorem jacobi_stores (houtput : output.RowMajor shape.interior)
    (hrhs : rhs.RowMajor shape.interior) (omega hSquared : α) (b : ℕ × ℕ) :
    ((Launch.jacobi output (viewsOf shape source) rhs omega hSquared).block b).stores m =
      (covered tile shape.height shape.width b).map fun x =>
        ((output.storage.id, offset shape.width x), Reference.jacobiCell ⟨omega, hSquared⟩
          (gridOf m source (shape.width + 2)) (gridOf m rhs shape.width) x) := by
  obtain ⟨hc, hn, hs, he, hw⟩ := window_viewsOf shape source
  simp only [Launch.block, Kernel.jacobi, Prog.bind_eq, Prog.stores_bind, stores_loadTile,
    List.nil_append]
  refine houtput.window.stores_store ?_
  intro l hl hin
  have hin' : inside shape.height shape.width (cell tile b l) = true := hin
  simp only [Pi.add_apply, Pi.sub_apply, Pi.mul_apply, broadcast, hc.result_loadTile hl hin',
    hn.result_loadTile hl hin', hs.result_loadTile hl hin', he.result_loadTile hl hin',
    hw.result_loadTile hl hin', hrhs.window.result_loadTile hl hin]
  simp only [Reference.jacobiCell, Reference.center, Reference.north, Reference.south,
    Reference.east, Reference.west, gridOf, Nat.add_comm, Nat.zero_add]
  rfl

theorem laplacian_stores (houtput : output.RowMajor shape.interior) (inverseHSquared : α)
    (b : ℕ × ℕ) :
    ((Launch.laplacian output (viewsOf shape source) inverseHSquared).block b).stores m =
      (covered tile shape.height shape.width b).map fun x =>
        ((output.storage.id, offset shape.width x), Reference.laplacianCell ⟨inverseHSquared⟩
          (gridOf m source (shape.width + 2)) x) := by
  obtain ⟨hc, hn, hs, he, hw⟩ := window_viewsOf shape source
  simp only [Launch.block, Kernel.laplacian, Prog.bind_eq, Prog.stores_bind, stores_loadTile,
    List.nil_append]
  refine houtput.window.stores_store ?_
  intro l hl hin
  have hin' : inside shape.height shape.width (cell tile b l) = true := hin
  simp only [Pi.add_apply, Pi.sub_apply, Pi.mul_apply, broadcast, hc.result_loadTile hl hin',
    hn.result_loadTile hl hin', hs.result_loadTile hl hin', he.result_loadTile hl hin',
    hw.result_loadTile hl hin']
  simp only [Reference.laplacianCell, Reference.center, Reference.north, Reference.south,
    Reference.east, Reference.west, gridOf, Nat.add_comm, Nat.zero_add]
  rfl

/-- The value of a single-cell tile is the cell itself. -/
theorem result_loadCell {v : TensorView} {extent l : ℕ × ℕ} (h : v.Window (0, 0) extent.2 extent)
    (hl : l ∈ positions 1 1) {row column : ℕ} (hin : row < extent.1 ∧ column < extent.2) :
    (v.loadTile 1 ((row : ℤ), (column : ℤ))).result m l =
      m (v.base.storage.id, offset extent.2 (row, column)) := by
  have hl' := mem_positions.mp hl
  have hcell : cell 1 (row, column) l = (row, column) := by
    simp only [cell]
    ext <;> simp <;> omega
  have hin' : inside extent.1 extent.2 (cell 1 (row, column) l) = true := by
    rw [hcell]
    exact inside_iff.mpr hin
  have hres := h.result_loadTile (m := m) hl hin'
  rw [hcell] at hres
  simpa using hres

theorem timestep_stores (houtput : output.RowMajor shape.haloed)
    (hinput : source.RowMajor shape.haloed) (hrhs : rhs.RowMajor shape.interior)
    (omega hSquared : α) (b : ℕ × ℕ) :
    ((Launch.timestep output source rhs shape.height shape.width omega hSquared).block b).stores m =
      (covered 1 (shape.height + 2) (shape.width + 2) b).map fun x =>
        ((output.storage.id, offset (shape.width + 2) x),
          Reference.timestepCell shape.interior ⟨omega, hSquared⟩ (gridOf m source (shape.width + 2))
            (gridOf m rhs shape.width) x) := by
  rw [shape.haloed_eq] at houtput hinput
  have hcell : ∀ l ∈ positions 1 1, cell 1 b l = b := by
    intro l hl
    have hl := mem_positions.mp hl
    simp only [cell]
    ext <;> simp <;> omega
  simp only [Launch.block, Kernel.timestep, Prog.bind_eq, Prog.stores_bind, stores_loadTile,
    List.nil_append]
  by_cases hb : 0 < b.1 ∧ b.1 ≤ shape.interior.1 ∧ 0 < b.2 ∧ b.2 ≤ shape.interior.2
  · have hin : 0 < b.1 ∧ b.1 ≤ shape.height ∧ 0 < b.2 ∧ b.2 ≤ shape.width := hb
    have hguard : (b.1 : ℤ) > 0 ∧ (b.1 : ℤ) ≤ shape.height ∧ (b.2 : ℤ) > 0 ∧
        (b.2 : ℤ) ≤ shape.width := by omega
    rw [if_pos hguard]
    simp only [Prog.stores_bind, stores_loadTile, List.nil_append]
    refine houtput.window.stores_store ?_
    intro l hl _
    have hup : ((b.1 : ℤ) - 1) = ((b.1 - 1 : ℕ) : ℤ) := by omega
    have hdown : ((b.1 : ℤ) + 1) = ((b.1 + 1 : ℕ) : ℤ) := by omega
    have hleft : ((b.2 : ℤ) - 1) = ((b.2 - 1 : ℕ) : ℤ) := by omega
    have hright : ((b.2 : ℤ) + 1) = ((b.2 + 1 : ℕ) : ℤ) := by omega
    have hload : ∀ row column : ℕ, row < shape.height + 2 ∧ column < shape.width + 2 →
        (source.view.loadTile 1 ((row : ℤ), (column : ℤ))).result m l =
          m (source.storage.id, offset (shape.width + 2) (row, column)) :=
      fun row column h => result_loadCell hinput.window hl h
    have hforce : (rhs.view.loadTile 1 (((b.1 - 1 : ℕ) : ℤ), ((b.2 - 1 : ℕ) : ℤ))).result m l =
        m (rhs.storage.id, offset shape.width (b.1 - 1, b.2 - 1)) :=
      result_loadCell hrhs.window hl (by simp only [shape.interior_eq]; omega)
    simp only [Pi.add_apply, Pi.sub_apply, Pi.mul_apply, broadcast, hup, hdown, hleft, hright]
    rw [hload b.1 b.2 (by omega), hload (b.1 - 1) b.2 (by omega),
      hload (b.1 + 1) b.2 (by omega), hload b.1 (b.2 + 1) (by omega),
      hload b.1 (b.2 - 1) (by omega), hforce, hcell l hl]
    rw [Reference.timestepCell, if_pos hb]
    have hrow : b.1 - 1 + 1 = b.1 := by omega
    have hcol : b.2 - 1 + 1 = b.2 := by omega
    simp only [Reference.jacobiCell, Reference.center, Reference.north, Reference.south,
      Reference.east, Reference.west, gridOf, hrow, hcol, show b.1 - 1 + 2 = b.1 + 1 by omega,
      show b.2 - 1 + 2 = b.2 + 1 by omega]
  · have hout : ¬ (0 < b.1 ∧ b.1 ≤ shape.height ∧ 0 < b.2 ∧ b.2 ≤ shape.width) := hb
    have hguard : ¬ ((b.1 : ℤ) > 0 ∧ (b.1 : ℤ) ≤ shape.height ∧ (b.2 : ℤ) > 0 ∧
        (b.2 : ℤ) ≤ shape.width) := by omega
    rw [if_neg hguard]
    refine houtput.window.stores_store ?_
    intro l hl hin
    rw [hcell l hl, inside_iff] at hin
    rw [result_loadCell hinput.window hl hin, hcell l hl, Reference.timestepCell, if_neg hb]
    rfl

end Stores

namespace Launch.WellFormed

variable [Scalar α] {shape : Shape2D P} {l : Launch α} {m : Addr → α}

omit [Scalar α] in
theorem output_ok (h : l.WellFormed shape) : l.output.RowMajor (l.extent shape) := by
  cases h with
  | timestep houtput => rwa [shape.haloed_eq] at houtput
  | jacobi houtput => exact houtput
  | laplacian houtput => exact houtput

omit [Scalar α] in
/-- The output is an allocation that the launch does not read. -/
theorem inputs_ne (h : l.WellFormed shape) : ∀ t ∈ l.inputs, t.storage.id ≠ l.output.storage.id := by
  cases h with
  | timestep _ _ _ hne => exact hne
  | jacobi _ hsource hviews _ hne =>
    obtain rfl := viewsOf_of_directionalViews hsource hviews
    simpa [inputs, ReadViews.all, viewsOf, output] using hne
  | laplacian _ hsource hviews hne =>
    obtain rfl := viewsOf_of_directionalViews hsource hviews
    simpa [inputs, ReadViews.all, viewsOf, output] using hne

theorem block_stores (h : l.WellFormed shape) (b : ℕ × ℕ) : (l.block b).stores m =
    (covered l.edge (l.extent shape).1 (l.extent shape).2 b).map fun x =>
      ((l.output.storage.id, offset (l.extent shape).2 x), l.cellValue shape m x) := by
  cases h with
  | timestep houtput hinput hrhs => exact timestep_stores houtput hinput hrhs _ _ b
  | jacobi houtput hsource hviews hrhs =>
    obtain rfl := viewsOf_of_directionalViews hsource hviews
    exact jacobi_stores houtput hrhs _ _ b
  | laplacian houtput hsource hviews =>
    obtain rfl := viewsOf_of_directionalViews hsource hviews
    exact laplacian_stores houtput _ b

/-- Every load is inside an input. -/
theorem block_loads (h : l.WellFormed shape) {b : ℕ × ℕ} {a : Addr} (ha : a ∈ (l.block b).loads m) :
    ∃ t ∈ l.inputs, a.1 = t.storage.id ∧ a.2 < t.storage.len := by
  cases h with
  | @timestep output input rhs _ _ _ hinput hrhs =>
    have hread : ∀ {index : ℤ × ℤ}, a ∈ (input.view.loadTile 1 index : Prog Addr α _).loads m →
        a.1 = input.storage.id ∧ a.2 < input.storage.len := fun h => hinput.fits.mem_loads h
    have hforce : ∀ {index : ℤ × ℤ}, a ∈ (rhs.view.loadTile 1 index : Prog Addr α _).loads m →
        a.1 = rhs.storage.id ∧ a.2 < rhs.storage.len := fun h => hrhs.fits.mem_loads h
    have hin : input ∈ [input, rhs] := List.mem_cons_self
    simp only [block, Kernel.timestep, Prog.bind_eq, Prog.loads_bind, List.mem_append] at ha
    rcases ha with ha | ha
    · exact ⟨input, hin, hread ha⟩
    · split at ha
      · simp only [Prog.loads_bind, List.mem_append, loads_store, List.not_mem_nil, or_false] at ha
        rcases ha with ha | ha | ha | ha | ha
        iterate 4 exact ⟨input, hin, hread ha⟩
        exact ⟨rhs, List.mem_cons_of_mem _ List.mem_cons_self, hforce ha⟩
      · simp at ha
  | @jacobi output source rhs views _ _ _ hsource hviews hrhs =>
    obtain rfl := viewsOf_of_directionalViews hsource hviews
    obtain ⟨hc, hn, hs, he, hw⟩ := window_viewsOf shape source
    have hread : ∀ {v : TensorView} {origin} (_ : v.Window origin _ _) (_ : v.base = source)
        (_ : origin.1 ≤ 2 ∧ origin.2 ≤ 2)
        (_ : a ∈ (v.loadTile tile ((b.1 : ℤ), (b.2 : ℤ)) : Prog Addr α _).loads m),
        a.1 = v.base.storage.id ∧ a.2 < v.base.storage.len :=
      fun hv hbase horigin ha => (fits_of_haloed hsource hv hbase horigin).mem_loads ha
    simp only [block, Kernel.jacobi, Prog.bind_eq, Prog.loads_bind, List.mem_append, loads_store,
      List.not_mem_nil, or_false] at ha
    have hin : source ∈ (viewsOf shape source).all.map (·.base) ++ [rhs] := List.mem_cons_self
    rcases ha with ha | ha | ha | ha | ha | ha
    · exact ⟨source, hin, hread hc rfl (by decide) ha⟩
    · exact ⟨source, hin, hread hn rfl (by decide) ha⟩
    · exact ⟨source, hin, hread hs rfl (by decide) ha⟩
    · exact ⟨source, hin, hread he rfl (by decide) ha⟩
    · exact ⟨source, hin, hread hw rfl (by decide) ha⟩
    · exact ⟨rhs, List.mem_append_right _ List.mem_cons_self, hrhs.fits.mem_loads ha⟩
  | @laplacian output source views _ _ hsource hviews =>
    obtain rfl := viewsOf_of_directionalViews hsource hviews
    obtain ⟨hc, hn, hs, he, hw⟩ := window_viewsOf shape source
    have hread : ∀ {v : TensorView} {origin} (_ : v.Window origin _ _) (_ : v.base = source)
        (_ : origin.1 ≤ 2 ∧ origin.2 ≤ 2)
        (_ : a ∈ (v.loadTile tile ((b.1 : ℤ), (b.2 : ℤ)) : Prog Addr α _).loads m),
        a.1 = v.base.storage.id ∧ a.2 < v.base.storage.len :=
      fun hv hbase horigin ha => (fits_of_haloed hsource hv hbase horigin).mem_loads ha
    simp only [block, Kernel.laplacian, Prog.bind_eq, Prog.loads_bind, List.mem_append, loads_store,
      List.not_mem_nil, or_false] at ha
    have hin : source ∈ (viewsOf shape source).all.map (·.base) := List.mem_cons_self
    rcases ha with ha | ha | ha | ha | ha
    · exact ⟨source, hin, hread hc rfl (by decide) ha⟩
    · exact ⟨source, hin, hread hn rfl (by decide) ha⟩
    · exact ⟨source, hin, hread hs rfl (by decide) ha⟩
    · exact ⟨source, hin, hread he rfl (by decide) ha⟩
    · exact ⟨source, hin, hread hw rfl (by decide) ha⟩

theorem divCeil_covers {n d : ℕ} (hd : 0 < d) : n ≤ Shape2D.divCeil n d * d := by
  have hmod := Nat.mod_lt (n + d - 1) hd
  have hdiv := Nat.div_add_mod (n + d - 1) d
  simp only [Shape2D.divCeil]
  rw [Nat.mul_comm]
  omega

omit [Scalar α] in
theorem edge_pos (l : Launch α) : 0 < l.edge := by
  cases l <;> simp [edge, tile]

omit [Scalar α] in
theorem edge_le (l : Launch α) : l.edge ≤ u32Max := by
  cases l <;> simp [edge, tile, u32Max]

omit [Scalar α] in
/-- The launch grid exists and covers the output. -/
theorem grid_eq (h : l.WellFormed shape) : l.grid =
    .ok (Shape2D.divCeil (l.extent shape).1 l.edge, Shape2D.divCeil (l.extent shape).2 l.edge) := by
  have hpos : 0 < (l.extent shape).1 ∧ 0 < (l.extent shape).2 := by
    have hh := shape.height_pos
    have hw := shape.width_pos
    cases h <;> simp only [extent] <;> omega
  have hpos' := edge_pos l
  have hle' := edge_le l
  have hedge : ¬ (l.edge = 0 ∨ l.edge = 0) := by omega
  have hle : ¬ (u32Max < l.edge ∨ u32Max < l.edge) := by omega
  simp only [grid, partitionLaunchGrid, h.output_ok.shape_eq, hedge, hle, if_false]
  rw [if_neg ?_]
  · simp
  · simp only [List.any_cons, List.any_nil, Bool.or_false, Bool.or_eq_true, decide_eq_true_eq]
    omega

/-- The blocks of the launch store every cell of the output exactly once, and nothing else. -/
theorem blocks_stores (h : l.WellFormed shape) (m : Addr → α) :
    (l.blocks.flatMap (Prog.stores m)).Perm ((positions (l.extent shape).1 (l.extent shape).2).map
      fun x => ((l.output.storage.id, offset (l.extent shape).2 x), l.cellValue shape m x)) := by
  simp only [blocks, h.grid_eq, List.flatMap_map, h.block_stores]
  rw [← List.map_flatMap]
  exact (covered_perm (edge_pos l) (divCeil_covers (edge_pos l))
    (divCeil_covers (edge_pos l))).map _

theorem blocks_loads (h : l.WellFormed shape) {a : Addr}
    (ha : a ∈ l.blocks.flatMap (Prog.loads m)) :
    ∃ t ∈ l.inputs, a.1 = t.storage.id ∧ a.2 < t.storage.len := by
  obtain ⟨p, hp, hap⟩ := List.mem_flatMap.mp ha
  simp only [blocks, h.grid_eq] at hp
  obtain ⟨b, -, rfl⟩ := List.mem_map.mp hp
  exact h.block_loads hap

theorem mem_stores (h : l.WellFormed shape) {w : Addr × α} :
    w ∈ l.blocks.flatMap (Prog.stores m) ↔
      ∃ x, (x.1 < (l.extent shape).1 ∧ x.2 < (l.extent shape).2) ∧
        w = ((l.output.storage.id, offset (l.extent shape).2 x), l.cellValue shape m x) := by
  rw [(h.blocks_stores m).mem_iff, List.mem_map]
  simp only [mem_positions, eq_comm]

/-- The stores of a launch hit no cell twice and none that it loads. -/
theorem separate (h : l.WellFormed shape) (m : Addr → α) : Separate m l.blocks := by
  refine ⟨?_, ?_⟩
  · rw [((h.blocks_stores m).map Prod.fst).nodup_iff, List.map_map]
    refine List.Nodup.map_on ?_ nodup_positions
    intro x hx y hy he
    simp only [Function.comp_apply, Prod.mk.injEq, true_and] at he
    exact offset_injOn (mem_positions.mp hx).2 (mem_positions.mp hy).2 he
  · intro a ha hmem
    obtain ⟨t, ht, hid, -⟩ := h.blocks_loads ha
    obtain ⟨w, hw, rfl⟩ := List.mem_map.mp hmem
    obtain ⟨x, -, rfl⟩ := h.mem_stores.mp hw
    exact h.inputs_ne t ht hid.symm

end Launch.WellFormed
end Gudra
