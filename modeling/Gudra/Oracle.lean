import Gudra.Reference

/-! The oracle's loops write every output cell once, and nothing when a length is wrong. -/
namespace Gudra

open Tiling

variable {P : Platform} {α σ : Type} [Scalar α]

namespace Reference

/-- The loop of `jacobi_into`, over any way to assign a cell. -/
def jacobiLoop (store : ℕ → α → Checked σ Unit) (shape : Shape2D P) (haloed rhs : List α)
    (params : JacobiParams α) : Checked σ Unit := do
  let stride ← P.checkedAdd shape.width 2
  (List.range shape.height).forM fun row =>
    (List.range shape.width).forM fun column => do
      let index ← sourceIndex P stride row column
      let cell ← cellIndex P shape.width row column
      let north ← haloed[← checkedSub index stride]?
      let south ← haloed[← P.checkedAdd index stride]?
      let east ← haloed[← P.checkedAdd index 1]?
      let west ← haloed[← checkedSub index 1]?
      let forcing ← rhs[cell]?
      let candidate := Scalar.quarter *
        (north + south + east + west - params.hSquared * forcing)
      let center ← haloed[index]?
      store cell ((Scalar.one - params.omega) * center + params.omega * candidate)

/-- The loop of `laplacian_into`, over any way to assign a cell. -/
def laplacianLoop (store : ℕ → α → Checked σ Unit) (shape : Shape2D P) (haloed : List α)
    (params : LaplacianParams α) : Checked σ Unit := do
  let stride ← P.checkedAdd shape.width 2
  (List.range shape.height).forM fun row =>
    (List.range shape.width).forM fun column => do
      let index ← sourceIndex P stride row column
      let cell ← cellIndex P shape.width row column
      let north ← haloed[← checkedSub index stride]?
      let south ← haloed[← P.checkedAdd index stride]?
      let east ← haloed[← P.checkedAdd index 1]?
      let west ← haloed[← checkedSub index 1]?
      let center ← haloed[index]?
      store cell ((north + south + east + west - Scalar.four * center) * params.inverseHSquared)

/-- The length checks, in their order. -/
def checkLens (lengths : List (String × ℕ × ℕ)) : Except Error Unit :=
  lengths.forM fun (buffer, expected, actual) => checkLen buffer expected actual

/-- An assignment that is only recorded. -/
def record (index : ℕ) (value : α) : Checked (List (ℕ × α)) Unit := modify (· ++ [(index, value)])

section Traces

variable {β : Type}

omit [Scalar α] in
/-- A loop whose every round records one assignment. -/
theorem forM_record {body : β → Checked (List (ℕ × α)) Unit} {stored : β → List (ℕ × α)} (xs : List β)
    (hbody : ∀ x ∈ xs, ∀ log, body x log = some (.ok (), log ++ stored x)) (log : List (ℕ × α)) :
    (xs.forM body) log = some (.ok (), log ++ xs.flatMap stored) := by
  induction xs generalizing log with
  | nil =>
    change some (Except.ok (), log) = _
    simp
  | cons x xs ih =>
    have hx := hbody x List.mem_cons_self log
    rw [List.flatMap_cons, ← List.append_assoc]
    refine (Checked.bind_of_ok hx).trans (ih ?_ _)
    exact fun y hy => hbody y (List.mem_cons_of_mem x hy)

omit [Scalar α] in
theorem cells_record {rows cols : ℕ} {body : ℕ → ℕ → Checked (List (ℕ × α)) Unit} {f : ℕ × ℕ → α}
    (hbody : ∀ x : ℕ × ℕ, x.1 < rows ∧ x.2 < cols → ∀ log,
      body x.1 x.2 log = some (.ok (), log ++ [(offset cols x, f x)])) :
    ((List.range rows).forM fun row => (List.range cols).forM (body row)) [] =
      some (.ok (), (positions rows cols).map fun x => (offset cols x, f x)) := by
  have hrow : ∀ row ∈ List.range rows, ∀ log, (List.range cols).forM (body row) log =
      some (.ok (), log ++ (List.range cols).flatMap fun column =>
        [(offset cols (row, column), f (row, column))]) := by
    intro row hrow log
    refine forM_record _ (fun column hcolumn log => ?_) log
    exact hbody (row, column) ⟨List.mem_range.mp hrow, List.mem_range.mp hcolumn⟩ log
  rw [forM_record _ hrow, List.nil_append, ← rows_flatMap, List.map_flatMap]
  simp only [List.map_flatMap, List.map_cons, List.map_nil]

/-- Row-major offsets of a rectangle are its indices, each once. -/
theorem offsets_perm (rows cols : ℕ) :
    ((positions rows cols).map (offset cols)).Perm (List.range (rows * cols)) := by
  refine .of_eq ?_
  rw [positions_eq, List.map_map]
  conv_rhs => rw [← List.map_id (List.range (rows * cols))]
  exact List.map_congr_left fun n _ => offset_div_mod n

end Traces

section Checks

variable {lengths : List (String × ℕ × ℕ)}

/-- The first wrong buffer is named. -/
theorem checkLens_error {before after : List (String × ℕ × ℕ)} {buffer : String}
    {expected actual : ℕ} (h : ∀ x ∈ before, x.2.1 = x.2.2) (hne : expected ≠ actual) :
    checkLens (before ++ (buffer, expected, actual) :: after) =
      .error (.lengthMismatch buffer expected actual) := by
  induction before with
  | nil => simp [checkLens, checkLen, hne, bind, Except.bind]
  | cons x xs ih =>
    have hx : checkLen x.1 x.2.1 x.2.2 = .ok () :=
      checkLen_eq_ok.mpr (h x List.mem_cons_self).symm
    have hxs := ih fun y hy => h y (List.mem_cons_of_mem x hy)
    simp only [checkLens, List.cons_append, List.forM_eq_forM, List.forM_cons] at hxs ⊢
    rw [hx]
    exact hxs

end Checks

/-- What a call on the slice `out` promises: `lengths` are the buffers with their expected and
actual lengths, and `cell` is the value of each output cell. -/
structure Computes (rows cols : ℕ) (lengths : List (String × ℕ × ℕ)) (run : Slice α Unit)
    (loop : ∀ σ : Type, (ℕ → α → Checked σ Unit) → Checked σ Unit) (cell : ℕ → ℕ → α)
    (out : List α) : Prop where
  /-- The call checks and then loops over `assign`. -/
  run_eq : run out = match checkLens lengths with
    | .ok () => loop _ assign out
    | .error e => some (.error e, out)
  computes : (∀ x ∈ lengths, x.2.1 = x.2.2) → ∃ out', run out = some (.ok (), out') ∧
    out'.length = rows * cols ∧
    ∀ row < rows, ∀ column < cols, out'[row * cols + column]? = some (cell row column)
  /-- The loop assigns every cell exactly once. -/
  assigns : (∀ x ∈ lengths, x.2.1 = x.2.2) → ∃ log, loop _ record [] = some (.ok (), log) ∧
    (log.map Prod.fst).Perm (List.range (rows * cols))
  /-- The first wrong length is reported and nothing is written. -/
  rejects : ∀ before buffer expected actual after,
    lengths = before ++ (buffer, expected, actual) :: after → (∀ x ∈ before, x.2.1 = x.2.2) →
    expected ≠ actual → run out = some (.error (.lengthMismatch buffer expected actual), out)

section Runs

variable {shape : Shape2D P} {haloed rhs out : List α}

theorem jacobiInto_checks (params : JacobiParams α) : jacobiInto shape haloed rhs params out =
    match checkLens [("source", shape.haloedLen, haloed.length),
      ("rhs", shape.interiorLen, rhs.length), ("output", shape.interiorLen, out.length)] with
    | .ok () => jacobiLoop assign shape haloed rhs params out
    | .error e => some (.error e, out) := by
  simp only [jacobiInto, checkLens, List.forM_eq_forM, List.forM_cons, List.forM_nil]
  cases checkLen "source" shape.haloedLen haloed.length with
  | error e => rfl
  | ok _ =>
    cases checkLen "rhs" shape.interiorLen rhs.length with
    | error e => rfl
    | ok _ =>
      simp only [Checked.lift_ok_bind, Checked.get_bind]
      cases checkLen "output" shape.interiorLen out.length <;> rfl

theorem laplacianInto_checks (params : LaplacianParams α) :
    laplacianInto shape haloed params out =
      match checkLens [("source", shape.haloedLen, haloed.length),
        ("output", shape.interiorLen, out.length)] with
      | .ok () => laplacianLoop assign shape haloed params out
      | .error e => some (.error e, out) := by
  simp only [laplacianInto, checkLens, List.forM_eq_forM, List.forM_cons, List.forM_nil]
  cases checkLen "source" shape.haloedLen haloed.length with
  | error e => rfl
  | ok _ =>
    simp only [Checked.lift_ok_bind, Checked.get_bind]
    cases checkLen "output" shape.interiorLen out.length <;> rfl

/-- The cells of a round in bounds, for both loops. -/
theorem jacobiLoop_record (hsource : haloed.length = shape.haloedLen)
    (hrhs : rhs.length = shape.interiorLen) (params : JacobiParams α) :
    jacobiLoop record shape haloed rhs params [] =
      some (.ok (), (positions shape.height shape.width).map fun x => (offset shape.width x,
        jacobiCell params (at_ (shape.width + 2) haloed) (at_ shape.width rhs) x)) := by
  simp only [jacobiLoop, stride_eq, Checked.lift_some_bind]
  refine cells_record ?_
  intro x hx log
  have hget := fun y h => getElem?_at (hsource.trans shape.haloedLen_eq) (x := y) h
  simp only [sourceIndex_eq hx, cellIndex_eq hx, Checked.lift_some_bind, north_index, west_index,
    south_index (haloed_offset_lt shape (y := (x.1 + 1 + 1, x.2 + 1)) (by simp; omega)).le,
    east_index (haloed_offset_lt shape (y := (x.1 + 1, x.2 + 1 + 1)) (by simp; omega)).le,
    hget (x.1, x.2 + 1) (by simp; omega), hget (x.1 + 1 + 1, x.2 + 1) (by simp; omega),
    hget (x.1 + 1, x.2 + 1 + 1) (by simp; omega), hget (x.1 + 1, x.2) (by simp; omega),
    hget (x.1 + 1, x.2 + 1) (by simp; omega),
    getElem?_at (hrhs.trans shape.interiorLen_eq) hx]
  rfl

theorem laplacianLoop_record (hsource : haloed.length = shape.haloedLen)
    (params : LaplacianParams α) : laplacianLoop record shape haloed params [] =
      some (.ok (), (positions shape.height shape.width).map fun x => (offset shape.width x,
        laplacianCell params (at_ (shape.width + 2) haloed) x)) := by
  simp only [laplacianLoop, stride_eq, Checked.lift_some_bind]
  refine cells_record ?_
  intro x hx log
  have hget := fun y h => getElem?_at (hsource.trans shape.haloedLen_eq) (x := y) h
  simp only [sourceIndex_eq hx, cellIndex_eq hx, Checked.lift_some_bind, north_index, west_index,
    south_index (haloed_offset_lt shape (y := (x.1 + 1 + 1, x.2 + 1)) (by simp; omega)).le,
    east_index (haloed_offset_lt shape (y := (x.1 + 1, x.2 + 1 + 1)) (by simp; omega)).le,
    hget (x.1, x.2 + 1) (by simp; omega), hget (x.1 + 1 + 1, x.2 + 1) (by simp; omega),
    hget (x.1 + 1, x.2 + 1 + 1) (by simp; omega), hget (x.1 + 1, x.2) (by simp; omega),
    hget (x.1 + 1, x.2 + 1) (by simp; omega)]
  rfl

omit [Scalar α] in
/-- A call that checks, loops and leaves a table keeps its promises. -/
theorem computes_of_table {lengths : List (String × ℕ × ℕ)} {run : Slice α Unit}
    {loop : ∀ σ : Type, (ℕ → α → Checked σ Unit) → Checked σ Unit} {f : ℕ × ℕ → α} {rows cols : ℕ}
    (hrun : run out = match checkLens lengths with
      | .ok () => loop _ assign out
      | .error e => some (.error e, out))
    (htable : (∀ x ∈ lengths, x.2.1 = x.2.2) → run out = some (.ok (), table rows cols f))
    (hrecord : (∀ x ∈ lengths, x.2.1 = x.2.2) → loop _ record [] =
      some (.ok (), (positions rows cols).map fun x => (offset cols x, f x))) :
    Computes rows cols lengths run loop (fun row column => f (row, column)) out where
  run_eq := hrun
  computes h := by
    refine ⟨_, htable h, length_table, fun row hrow column hcolumn => ?_⟩
    exact getElem?_table (x := (row, column)) ⟨hrow, hcolumn⟩
  assigns h := by
    refine ⟨_, hrecord h, ?_⟩
    rw [List.map_map]
    exact offsets_perm rows cols
  rejects before buffer expected actual after hlengths hbefore hne := by
    rw [hrun, hlengths, checkLens_error hbefore hne]

/-- The oracle computes the documented stencils, and writes nothing when a length is wrong. -/
theorem oracle_computes (shape : Shape2D P) (haloed rhs out : List α) (jparams : JacobiParams α)
    (lparams : LaplacianParams α) :
    let u := fun row column => haloed.getD (row * (shape.width + 2) + column) Scalar.zero
    let f := fun row column => rhs.getD (row * shape.width + column) Scalar.zero
    Computes shape.height shape.width
      [("source", (shape.height + 2) * (shape.width + 2), haloed.length),
        ("rhs", shape.height * shape.width, rhs.length),
        ("output", shape.height * shape.width, out.length)]
      (jacobiInto shape haloed rhs jparams)
      (fun _ store => jacobiLoop store shape haloed rhs jparams)
      (fun row column => (Scalar.one - jparams.omega) * u (row + 1) (column + 1) + jparams.omega *
        (Scalar.quarter * (u row (column + 1) + u (row + 2) (column + 1) +
          u (row + 1) (column + 2) + u (row + 1) column - jparams.hSquared * f row column))) out ∧
    Computes shape.height shape.width
      [("source", (shape.height + 2) * (shape.width + 2), haloed.length),
        ("output", shape.height * shape.width, out.length)]
      (laplacianInto shape haloed lparams)
      (fun _ store => laplacianLoop store shape haloed lparams)
      (fun row column => (u row (column + 1) + u (row + 2) (column + 1) +
        u (row + 1) (column + 2) + u (row + 1) column - Scalar.four * u (row + 1) (column + 1)) *
          lparams.inverseHSquared) out := by
  rw [← shape.haloedLen_eq, ← shape.interiorLen_eq]
  refine ⟨computes_of_table (jacobiInto_checks jparams)
      (f := jacobiCell jparams (at_ (shape.width + 2) haloed) (at_ shape.width rhs)) ?_ ?_,
    computes_of_table (laplacianInto_checks lparams)
      (f := laplacianCell lparams (at_ (shape.width + 2) haloed)) ?_ ?_⟩
  · intro h
    simp only [List.forall_mem_cons, List.not_mem_nil, false_implies, implies_true, and_true] at h
    exact jacobiInto_eq h.1.symm h.2.2.symm h.2.1.symm jparams
  · intro h
    simp only [List.forall_mem_cons, List.not_mem_nil, false_implies, implies_true, and_true] at h
    exact jacobiLoop_record h.1.symm h.2.1.symm jparams
  · intro h
    simp only [List.forall_mem_cons, List.not_mem_nil, false_implies, implies_true, and_true] at h
    exact laplacianInto_eq h.1.symm h.2.symm lparams
  · intro h
    simp only [List.forall_mem_cons, List.not_mem_nil, false_implies, implies_true, and_true] at h
    exact laplacianLoop_record h.1.symm lparams

end Runs

end Reference
end Gudra
