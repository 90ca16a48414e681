import Gudra.Batches

/-! A validated shape makes the arithmetic of every consumer safe. -/
namespace Gudra

open Tiling Interleave Scope

variable {P : Platform} {α : Type} [Scalar α] {shape : Shape2D P}

section Loads

variable {input rhs : Tensor} {m : Addr → α} {b : ℕ × ℕ}

/-- A single-cell tile inside a row-major tensor is one load. -/
theorem loads_loadCell {t : Tensor} {rows cols : ℕ} (h : t.RowMajor (rows, cols)) {x : ℕ × ℕ}
    (hx : x.1 < rows ∧ x.2 < cols) :
    (t.view.loadTile 1 ((x.1 : ℤ), (x.2 : ℤ)) : Prog Addr α _).loads m =
      [(t.storage.id, offset cols x)] := by
  have hcell : cell 1 x (0, 0) = x := by simp [cell]
  have hlane : t.view.lane 1 ((x.1 : ℤ), (x.2 : ℤ)) (0, 0) = _ := h.window.lane_eq x (0, 0)
  rw [hcell, if_pos (inside_iff.mpr hx)] at hlane
  have hpositions : positions 1 1 = [(0, 0)] := rfl
  rw [TensorView.loadTile, Prog.loads_gather, hpositions]
  simp only [List.filterMap_cons, List.filterMap_nil, hlane, Nat.zero_add]
  rfl

/-- A block inside the boundary loads five cells of the source and one of the RHS, in this order,
and no lane is masked; a block of the boundary loads its own cell. -/
theorem timestep_loads (output : Tensor) (hinput : input.RowMajor shape.haloed)
    (hrhs : rhs.RowMajor shape.interior)
    (omega hSquared : α) (hb : b.1 < shape.height + 2 ∧ b.2 < shape.width + 2) :
    ((Launch.timestep output input rhs shape.height shape.width omega hSquared).block b).loads m =
      if 0 < b.1 ∧ b.1 ≤ shape.height ∧ 0 < b.2 ∧ b.2 ≤ shape.width then
        [(b.1, b.2), (b.1 - 1, b.2), (b.1 + 1, b.2), (b.1, b.2 + 1), (b.1, b.2 - 1)].map
            (fun x => (input.storage.id, offset (shape.width + 2) x)) ++
          [(rhs.storage.id, offset shape.width (b.1 - 1, b.2 - 1))]
      else [(input.storage.id, offset (shape.width + 2) b)] := by
  rw [shape.haloed_eq] at hinput
  have hcenter := loads_loadCell (m := m) hinput hb
  simp only [Launch.block, Kernel.timestep, Prog.bind_eq, Prog.loads_bind, hcenter]
  split_ifs with hguard hin hin
  · have hup : ((b.1 : ℤ) - 1) = ((b.1 - 1 : ℕ) : ℤ) := by omega
    have hdown : ((b.1 : ℤ) + 1) = ((b.1 + 1 : ℕ) : ℤ) := by omega
    have hleft : ((b.2 : ℤ) - 1) = ((b.2 - 1 : ℕ) : ℤ) := by omega
    have hright : ((b.2 : ℤ) + 1) = ((b.2 + 1 : ℕ) : ℤ) := by omega
    have hnorth := loads_loadCell (m := m) hinput (x := (b.1 - 1, b.2)) (by simp only; omega)
    have hsouth := loads_loadCell (m := m) hinput (x := (b.1 + 1, b.2)) (by simp only; omega)
    have heast := loads_loadCell (m := m) hinput (x := (b.1, b.2 + 1)) (by simp only; omega)
    have hwest := loads_loadCell (m := m) hinput (x := (b.1, b.2 - 1)) (by simp only; omega)
    have hforcing := loads_loadCell (m := m) hrhs (x := (b.1 - 1, b.2 - 1)) (by
      simp only [shape.interior_eq]
      omega)
    simp only [Prog.loads_bind, loads_store, hup, hdown, hleft, hright, hnorth, hsouth, heast, hwest,
      hforcing]
    rfl
  · omega
  · omega
  · simp

end Loads

/-- The arithmetic that relies on a validated shape. -/
structure ArithmeticSafe (α : Type) [Scalar α] (shape : Shape2D P) : Prop where
  /-- No index of the oracle overflows, underflows or leaves its slice: it never panics. -/
  oracle : ∀ (haloed rhs out : List α) (jparams : JacobiParams α) (lparams : LaplacianParams α),
    haloed.length = shape.haloedLen → rhs.length = shape.interiorLen →
    out.length = shape.interiorLen →
    Reference.jacobiInto shape haloed rhs jparams out ≠ none ∧
      Reference.laplacianInto shape haloed lparams out ≠ none
  /-- The byte counts of uploads are products that do not overflow. -/
  upload_halo : ∀ (session : Session) (data : List α) (y : Var), data.length = shape.haloedLen →
    Gpu.upload session shape data shape.haloed y = scope [] (moveBuffer .storage y) do
      let reservation ← Op.buffer (.charge .reservation) session shape.haloedBytes
      Gpu.uploadReserved session shape data shape.haloed reservation .reservation .storage
  upload_field : ∀ (session : Session) (data : List α) (y : Var), data.length = shape.interiorLen →
    Gpu.upload session shape data shape.interior y = scope [] (moveBuffer .storage y) do
      let reservation ← Op.buffer (.charge .reservation) session shape.interiorBytes
      Gpu.uploadReserved session shape data shape.interior reservation .reservation .storage
  bytes : P.checkedMul shape.haloedLen sizeOfF32 = some shape.haloedBytes ∧
    P.checkedMul shape.interiorLen sizeOfF32 = some shape.interiorBytes
  /-- A grid asks for the bytes of its two halves and of its RHS, and no product panics. -/
  double_grid : ∀ (session : Session) (initial rhs : List α),
    Gpu.doubleGrid session shape initial rhs = scope [] moveGrid do
      Op.ofExcept (checkLen "source" shape.haloedLen initial.length)
      Op.ofExcept (checkLen "rhs" shape.interiorLen rhs.length)
      Op.ofExcept <| [("timestep row blocks", shape.haloed.1),
          ("timestep column blocks", shape.haloed.2)].forM fun (quantity, actual) =>
        if 65535 < actual then .error (.shapeLimit quantity actual 65535) else .ok ()
      let first ← Op.buffer (.charge .first) session shape.haloedBytes
      let second ← Op.buffer (.charge .second) session shape.haloedBytes
      let forcing ← Op.buffer (.charge .forcing) session shape.interiorBytes
      let current ← Gpu.uploadReserved session shape initial shape.haloed first .first .current
      let next ← Gpu.uploadReserved session shape initial shape.haloed second .second .next
      let rhs ← Gpu.uploadReserved session shape rhs shape.interior forcing .forcing .rhs
      return ⟨⟨current⟩, ⟨next⟩, ⟨rhs⟩, 0⟩
  /-- The bounds of the views exist and every range is within the haloed extents. -/
  bounds : P.checkedAdd shape.height 1 = some (shape.height + 1) ∧
    P.checkedAdd shape.width 1 = some (shape.width + 1)
  views : ∀ t : Tensor, t.RowMajor shape.haloed →
    directionalViews shape t = some (.ok (viewsOf shape t))
  /-- Row-major strides and counts fit in `i32`, so that no conversion changes them. -/
  metadata : ∀ extent ∈ [shape.haloed, shape.interior], extent.1 ≤ i32Max ∧ extent.2 ≤ i32Max ∧
    extent.1 * extent.2 ≤ i32Max ∧ ∀ storage : Storage, extent.1 * extent.2 = storage.len →
      (Tensor.uploaded storage).reshape [extent.1, extent.2] = .ok (Tensor.ofRows storage extent)
  /-- The conversions of `DoubleGrid::operation` never fall back. -/
  operation : ∀ (grid : DoubleGrid P) (params : JacobiParams α), grid.shape = shape →
    (shape.height ≤ i32Max ∧ shape.width ≤ i32Max) ∧
      grid.operation params = .timestep grid.next.storage.tensor grid.current.storage.tensor
        grid.rhs.storage.tensor shape.height shape.width params.omega params.hSquared
  /-- The neighbours of a block of the launch are `i32` values. -/
  neighbours : ∀ b : ℕ × ℕ, b.1 < shape.height + 2 ∧ b.2 < shape.width + 2 →
    -2 ^ 31 ≤ (b.1 : ℤ) - 1 ∧ (b.1 : ℤ) + 1 < 2 ^ 31 ∧
      -2 ^ 31 ≤ (b.2 : ℤ) - 1 ∧ (b.2 : ℤ) + 1 < 2 ^ 31
  /-- Each block of the launch makes exactly its loads, all of them inside the tensors. -/
  loads : ∀ (output input rhs : Tensor) (omega hSquared : α) (m : Addr → α),
    output.RowMajor shape.haloed → input.RowMajor shape.haloed → rhs.RowMajor shape.interior →
    let l := Launch.timestep output input rhs shape.height shape.width omega hSquared
    l.grid = .ok (shape.height + 2, shape.width + 2) ∧
    ∀ b : ℕ × ℕ, b.1 < shape.height + 2 ∧ b.2 < shape.width + 2 →
      (l.block b).loads m = (if 0 < b.1 ∧ b.1 ≤ shape.height ∧ 0 < b.2 ∧ b.2 ≤ shape.width then
          [(b.1, b.2), (b.1 - 1, b.2), (b.1 + 1, b.2), (b.1, b.2 + 1), (b.1, b.2 - 1)].map
              (fun x => (input.storage.id, offset (shape.width + 2) x)) ++
            [(rhs.storage.id, offset shape.width (b.1 - 1, b.2 - 1))]
        else [(input.storage.id, offset (shape.width + 2) b)]) ∧
      ∀ a ∈ (l.block b).loads m, a.1 = input.storage.id ∧ a.2 < input.storage.len ∨
        a.1 = rhs.storage.id ∧ a.2 < rhs.storage.len

omit [Scalar α] in
/-- Partitions into single cells have one block for each cell. -/
theorem timestep_grid {output input rhs : Tensor} (houtput : output.RowMajor shape.haloed)
    (omega hSquared : α) :
    (Launch.timestep output input rhs shape.height shape.width omega hSquared).grid =
      .ok (shape.height + 2, shape.width + 2) := by
  have hpos : ¬ [((shape.height + 2 : ℕ) : ℤ), ((shape.width + 2 : ℕ) : ℤ)].any (· ≤ 0) := by
    simp only [List.any_cons, List.any_nil, Bool.or_false, Bool.or_eq_true, decide_eq_true_eq]
    omega
  simp only [Launch.grid, Launch.output, Launch.edge, houtput.shape_eq, shape.haloed_eq,
    partitionLaunchGrid]
  rw [if_neg hpos]
  simp [u32Max, Shape2D.divCeil]
  omega

omit [Scalar α] in
theorem upload_eq {session : Session} {data : List α} {extent : ℕ × ℕ} {y : Var} {bytes : ℕ}
    (h : P.checkedMul data.length sizeOfF32 = some bytes) :
    Gpu.upload session shape data extent y = scope [] (moveBuffer .storage y) (do
      let reservation ← Op.buffer (.charge .reservation) session bytes
      Gpu.uploadReserved session shape data extent reservation .reservation .storage) := by
  rw [Gpu.upload, h]
  rfl

/-- One validator is strong enough for every consumer. -/
theorem arithmetic_safe (α : Type) [Scalar α] (shape : Shape2D P) : ArithmeticSafe α shape := by
  obtain ⟨hrows, hcolumns, hlen, hbytes⟩ := bounded_haloed shape
  have hinterior := bounded_interior shape
  rw [shape.haloed_eq] at hrows hcolumns hlen hbytes
  simp only [i32Max] at hrows hcolumns
  have hmax := i32Max_le_usizeMax P
  simp only [i32Max] at hmax
  have hhaloed : P.checkedMul shape.haloedLen sizeOfF32 = some shape.haloedBytes :=
    checkedMul_eq shape.haloedBytes_eq.symm
      (shape.valid.haloedBytes_le.trans (isizeMax_le_usizeMax P))
  have hfield : P.checkedMul shape.interiorLen sizeOfF32 = some shape.interiorBytes := by
    refine checkedMul_eq shape.interiorBytes_eq.symm ?_
    rw [shape.interiorBytes_eq, shape.interiorLen_eq]
    exact hinterior.bytes_le
  refine ⟨?_, ?_, ?_, ⟨hhaloed, hfield⟩, fun session initial rhs => ?_, ?_,
    fun t ht => directionalViews_eq ht, ?_, ?_, ?_, ?_⟩
  · intro haloed rhs out jparams lparams hsource hrhs hout
    rw [Reference.jacobiInto_eq hsource hout hrhs, Reference.laplacianInto_eq hsource hout]
    exact ⟨(by simp), (by simp)⟩
  · intro session data y hdata
    exact upload_eq (hdata ▸ hhaloed)
  · intro session data y hdata
    exact upload_eq (hdata ▸ hfield)
  · rw [Gpu.doubleGrid, hhaloed]
    rfl
  · exact ⟨checkedAdd_eq rfl (by omega), checkedAdd_eq rfl (by omega)⟩
  · intro extent hextent
    have hb : Bounded P extent := by
      rcases List.mem_cons.mp hextent with rfl | hextent
      · exact bounded_haloed shape
      · obtain rfl := List.mem_singleton.mp hextent
        exact hinterior
    refine ⟨hb.fst_le, hb.snd_le, hb.len_le, fun storage hstorage => ?_⟩
    exact Tensor.reshape_uploaded hstorage hb.fst_le hb.snd_le (hstorage ▸ hb.len_le)
  · rintro grid params rfl
    refine ⟨⟨hinterior.fst_le, hinterior.snd_le⟩, ?_⟩
    rw [DoubleGrid.operation, i32OrMax_eq hinterior.fst_le, i32OrMax_eq hinterior.snd_le]
    rfl
  · intro b hb
    omega
  · intro output input rhs omega hSquared m houtput hinput hrhs
    refine ⟨timestep_grid houtput omega hSquared, fun b hb => ?_⟩
    have hloads := timestep_loads (m := m) output hinput hrhs omega hSquared hb
    refine ⟨hloads, fun a ha => ?_⟩
    rw [hloads] at ha
    have hin : ∀ x : ℕ × ℕ, x.1 < shape.height + 2 ∧ x.2 < shape.width + 2 →
        offset (shape.width + 2) x < input.storage.len := by
      intro x hx
      rw [hinput.len_eq, shape.haloed_eq]
      exact offset_lt hx
    split_ifs at ha with hguard
    · rcases List.mem_append.mp ha with ha | ha
      · simp only [List.map_cons, List.map_nil, List.mem_cons, List.not_mem_nil, or_false] at ha
        rcases ha with rfl | rfl | rfl | rfl | rfl
        all_goals exact .inl ⟨rfl, hin _ (by simp only; omega)⟩
      · obtain rfl := List.mem_singleton.mp ha
        refine .inr ⟨rfl, ?_⟩
        rw [hrhs.len_eq]
        exact offset_lt (by simp only [shape.interior_eq]; omega)
    · obtain rfl := List.mem_singleton.mp ha
      exact .inl ⟨rfl, hin b hb⟩

end Gudra
