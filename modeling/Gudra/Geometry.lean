import Gudra.Shape

/-! `Shape2D::new` accepts exactly its documented domain and stores exact values. -/
namespace Gudra

variable {P : Platform} {height width : ℕ}

namespace Shape2D

/-- The documented domain, over the integers. -/
structure Domain (P : Platform) (height width : ℕ) : Prop where
  height_pos : 0 < height
  width_pos : 0 < width
  elements_le : (height + 2) * (width + 2) ≤ 2 ^ 31 - 1
  bytes_le : 4 * ((height + 2) * (width + 2)) ≤ 2 ^ (P.width - 1) - 1
  rows_le : ⌈(height : ℚ) / 16⌉₊ ≤ 65535
  columns_le : ⌈(width : ℚ) / 16⌉₊ ≤ 65535

/-- The fields of an accepted shape. -/
def exact (height width : ℕ) : Extents where
  interior := (height, width)
  haloed := (height + 2, width + 2)
  interiorLen := height * width
  haloedLen := (height + 2) * (width + 2)
  interiorBytes := 4 * (height * width)
  haloedBytes := 4 * ((height + 2) * (width + 2))
  grid := (⌈(height : ℚ) / 16⌉₊, ⌈(width : ℚ) / 16⌉₊, 1)

/-- The limits in the documented order: bytes, `i32` counts, blocks. -/
def limits (P : Platform) (height width : ℕ) : List (String × ℕ × ℕ) :=
  [("interior bytes", 4 * (height * width), 2 ^ (P.width - 1) - 1),
    ("haloed bytes", 4 * ((height + 2) * (width + 2)), 2 ^ (P.width - 1) - 1),
    ("height", height, 2 ^ 31 - 1), ("width", width, 2 ^ 31 - 1),
    ("halo height", height + 2, 2 ^ 31 - 1), ("halo width", width + 2, 2 ^ 31 - 1),
    ("interior elements", height * width, 2 ^ 31 - 1),
    ("haloed elements", (height + 2) * (width + 2), 2 ^ 31 - 1),
    ("height blocks", ⌈(height : ℚ) / 16⌉₊, 65535), ("width blocks", ⌈(width : ℚ) / 16⌉₊, 65535)]

/-- The first of some limits that is exceeded. -/
def exceeded (xs : List (String × ℕ × ℕ)) : Option (String × ℕ × ℕ) :=
  xs.find? fun (_, actual, maximum) => maximum < actual

def violated (P : Platform) (height width : ℕ) : Option (String × ℕ × ℕ) :=
  exceeded (limits P height width)

theorem divCeil_eq (n : ℕ) : divCeil n tile = ⌈(n : ℚ) / 16⌉₊ := by
  have hlow : (n + 16 - 1) / 16 * 16 ≤ n + 15 := Nat.div_mul_le_self _ _
  have hhigh : n ≤ (n + 16 - 1) / 16 * 16 := by omega
  refine le_antisymm ?_ (Nat.ceil_le.mpr ?_)
  · by_contra hlt
    have hceil : ⌈(n : ℚ) / 16⌉₊ ≤ divCeil n tile - 1 := by omega
    have hle := (div_le_iff₀ (by norm_num : (0 : ℚ) < 16)).mp (Nat.ceil_le.mp hceil)
    have hnat : n ≤ (divCeil n tile - 1) * 16 := by exact_mod_cast hle
    simp only [divCeil, tile] at hlt hnat
    omega
  · rw [div_le_iff₀ (by norm_num : (0 : ℚ) < 16)]
    exact_mod_cast hhigh

/-- Checking limits one after the other stops at the first that is exceeded. -/
theorem forM_limit (xs : List (String × ℕ × ℕ)) :
    xs.forM (fun (quantity, actual, maximum) => limit quantity actual maximum) =
      match exceeded xs with
      | none => .ok ()
      | some (quantity, actual, maximum) => .error (.shapeLimit quantity actual maximum) := by
  induction xs with
  | nil => rfl
  | cons x xs ih =>
    obtain ⟨quantity, actual, maximum⟩ := x
    by_cases h : maximum < actual
    · simp [exceeded, limit, h, bind, Except.bind]
    · rw [exceeded, List.find?_cons_of_neg (by simpa using h), ← exceeded, ← ih]
      simp [limit, h, bind, Except.bind]

theorem ok_bind {β γ : Type} (b : β) (f : β → Except Error γ) : (Except.ok b >>= f) = f b := rfl

/-- Every product is at most the size of the haloed grid. -/
theorem le_haloed (height width : ℕ) : height + 2 ≤ (height + 2) * (width + 2) ∧
    width + 2 ≤ (height + 2) * (width + 2) ∧ height * width ≤ (height + 2) * (width + 2) :=
  ⟨Nat.le_mul_of_pos_right _ (by omega), Nat.le_mul_of_pos_left _ (by omega),
    Nat.mul_le_mul (by omega) (by omega)⟩

section Build

variable (hheight : height ≠ 0) (hwidth : width ≠ 0)
include hheight hwidth

/-- Without overflow the checks are the limits and then the conversions. -/
theorem build_limits (hfits : 4 * ((height + 2) * (width + 2)) ≤ P.usizeMax) :
    build P height width = (limits P height width).forM
      (fun (quantity, actual, maximum) => limit quantity actual maximum) >>= fun _ => do
        let gridY ← blockCount ⌈(height : ℚ) / 16⌉₊
        let gridX ← blockCount ⌈(width : ℚ) / 16⌉₊
        return {
          interior := (← elementCount height, ← elementCount width)
          haloed := (← elementCount (height + 2), ← elementCount (width + 2))
          interiorLen := ← elementCount (height * width)
          haloedLen := ← elementCount ((height + 2) * (width + 2))
          interiorBytes := 4 * (height * width)
          haloedBytes := 4 * ((height + 2) * (width + 2))
          grid := (gridY, gridX, 1) } := by
  obtain ⟨hrows, hcolumns, hinterior⟩ := le_haloed height width
  have h1 : P.checkedAdd height 2 = some (height + 2) := checkedAdd_eq rfl (by omega)
  have h2 : P.checkedAdd width 2 = some (width + 2) := checkedAdd_eq rfl (by omega)
  have h3 : P.checkedMul height width = some (height * width) := checkedMul_eq rfl (by omega)
  have h4 : P.checkedMul (height + 2) (width + 2) = some ((height + 2) * (width + 2)) :=
    checkedMul_eq rfl (by omega)
  have h5 : P.checkedMul (height * width) sizeOfF32 = some (4 * (height * width)) :=
    checkedMul_eq (Nat.mul_comm _ _) (by omega)
  have h6 : P.checkedMul ((height + 2) * (width + 2)) sizeOfF32 =
      some (4 * ((height + 2) * (width + 2))) := checkedMul_eq (Nat.mul_comm _ _) hfits
  simp only [build, product, okOr, limits, List.forM_eq_forM, List.forM_cons, List.forM_nil,
    hheight, hwidth, if_false, divCeil_eq, bind_assoc, pure_bind, ok_bind, h1, h2, h3, h4, h5, h6]
  rfl

/-- With all limits met no conversion fails. -/
theorem build_of_fits (hfits : 4 * ((height + 2) * (width + 2)) ≤ P.usizeMax) :
    build P height width = match violated P height width with
      | none => .ok (exact height width)
      | some (quantity, actual, maximum) => .error (.shapeLimit quantity actual maximum) := by
  rw [build_limits hheight hwidth hfits, forM_limit, ← violated]
  cases hv : violated P height width with
  | some x => rfl
  | none =>
    simp only [violated, exceeded, limits, List.find?_eq_none, List.mem_cons, List.not_mem_nil, or_false,
      forall_eq_or_imp, forall_eq, decide_eq_true_eq, not_lt] at hv
    obtain ⟨-, -, hh, hw, hhalo, hwalo, hlen, hlens, hy, hx⟩ := hv
    have hcount : ∀ n ≤ 2 ^ 31 - 1, elementCount n = .ok n :=
      fun n hn => elementCount_eq_ok.mpr ⟨hn.trans (by decide), rfl⟩
    have hblocks : ∀ n ≤ 65535, blockCount n = .ok n :=
      fun n hn => blockCount_eq_ok.mpr ⟨hn, rfl⟩
    simp only [hcount _ hh, hcount _ hw, hcount _ hhalo, hcount _ hwalo, hcount _ hlen,
      hcount _ hlens, hblocks _ hy, hblocks _ hx]
    rfl

omit hheight hwidth in
/-- A checked operation overflows, or what follows it does. -/
theorem overflow_bind {β : Type} {o : Option ℕ} {operation : String} {f : ℕ → Except Error β}
    (h : ∀ n, o = some n → ∃ operation, f n = .error (.shapeOverflow operation)) :
    ∃ other, (okOr (.shapeOverflow operation) o >>= f) = .error (.shapeOverflow other) := by
  cases o with
  | none => exact ⟨operation, rfl⟩
  | some n => exact h n rfl

/-- When the haloed bytes overflow, some operation does. -/
theorem build_of_overflow (hbig : P.usizeMax < 4 * ((height + 2) * (width + 2))) :
    ∃ operation, build P height width = .error (.shapeOverflow operation) := by
  simp only [build, product, Platform.checkedAdd, Platform.checkedMul, List.forM_eq_forM,
    List.forM_cons, List.forM_nil, hheight, hwidth, if_false, pure_bind, ok_bind]
  refine overflow_bind fun rows hrows => overflow_bind fun columns hcolumns => ?_
  refine overflow_bind fun len _ => overflow_bind fun lens hlens => ?_
  refine overflow_bind fun bytes _ => overflow_bind fun haloed hhaloed => ?_
  simp only [Option.ite_none_right_eq_some, Option.some.injEq] at hrows hcolumns hlens hhaloed
  obtain ⟨-, rfl⟩ := hrows
  obtain ⟨-, rfl⟩ := hcolumns
  obtain ⟨-, rfl⟩ := hlens
  simp only [sizeOfF32] at hhaloed
  omega

end Build

/-- What `Shape2D::new` decides about a request. -/
structure Decides (P : Platform) (height width : ℕ) (result : Except Error (Shape2D P)) : Prop where
  accepts : (∃ shape, result = .ok shape) ↔ Domain P height width
  stores : ∀ shape, result = .ok shape → shape.toExtents = exact height width
  /-- The height is reported first. -/
  empty : ∀ axis, result = .error (.emptyInterior axis) ↔
    axis = "height" ∧ height = 0 ∨ axis = "width" ∧ height ≠ 0 ∧ width = 0
  overflow : (∃ operation, result = .error (.shapeOverflow operation)) ↔
    height ≠ 0 ∧ width ≠ 0 ∧ 2 ^ P.width ≤ 4 * ((height + 2) * (width + 2))
  limit : ∀ quantity actual maximum, result = .error (.shapeLimit quantity actual maximum) ↔
    height ≠ 0 ∧ width ≠ 0 ∧ 4 * ((height + 2) * (width + 2)) < 2 ^ P.width ∧
      violated P height width = some (quantity, actual, maximum)
  exceeds : ∀ quantity actual maximum, result = .error (.shapeLimit quantity actual maximum) →
    maximum < actual
  /-- No other error is returned: the conversions never fail. -/
  only : ∀ e, result = .error e → (∃ axis, e = .emptyInterior axis) ∨
    (∃ operation, e = .shapeOverflow operation) ∨
    ∃ x ∈ limits P height width, e = .shapeLimit x.1 x.2.1 x.2.2 ∧
      x.1 ≠ "metadata elements" ∧ x.1 ≠ "launch blocks"

theorem new_eq_ok {height width : P.Usize} {shape : Shape2D P} :
    new P height width = .ok shape ↔ build P height.val width.val = .ok shape.toExtents := by
  obtain ⟨e, he⟩ := shape
  simp only [new]
  split
  · next h => simp [h, Shape2D.mk.injEq]
  · next h => simp [h]

theorem new_eq_error {height width : P.Usize} {e : Error} :
    new P height width = .error e ↔ build P height.val width.val = .error e := by
  simp only [new]
  split
  · next h => simp [h]
  · next h => simp [h]

theorem usizeMax_lt (P : Platform) : P.usizeMax + 1 = 2 ^ P.width :=
  Nat.sub_add_cancel Nat.one_le_two_pow

theorem violated_eq_none : violated P height width = none ↔
    ∀ x ∈ limits P height width, x.2.1 ≤ x.2.2 := by
  simp [violated, exceeded]

theorem violated_eq_some {x : String × ℕ × ℕ} (h : violated P height width = some x) :
    x ∈ limits P height width ∧ x.2.2 < x.2.1 := by
  rw [violated, exceeded] at h
  exact ⟨List.mem_of_find?_eq_some h, by simpa using List.find?_some h⟩

theorem limits_names : ∀ x ∈ limits P height width,
    x.1 ≠ "metadata elements" ∧ x.1 ≠ "launch blocks" := by
  intro x hx
  have hname := List.mem_map_of_mem (f := Prod.fst) hx
  have hall : ∀ name ∈ (limits P height width).map Prod.fst,
      name ≠ "metadata elements" ∧ name ≠ "launch blocks" := by
    simp [limits]
  exact hall _ hname

/-- The six counts and the interior bytes are within their limits when the haloed ones are. -/
theorem domain_iff : Domain P height width ↔ height ≠ 0 ∧ width ≠ 0 ∧
    4 * ((height + 2) * (width + 2)) ≤ P.usizeMax ∧ violated P height width = none := by
  obtain ⟨hrows, hcolumns, hinterior⟩ := le_haloed height width
  rw [violated_eq_none]
  constructor
  · rintro ⟨hh, hw, helements, hbytes, hy, hx⟩
    refine ⟨by omega, by omega, hbytes.trans (isizeMax_le_usizeMax P), ?_⟩
    simp only [limits, List.forall_mem_cons, List.not_mem_nil, false_implies, implies_true,
      and_true]
    omega
  · rintro ⟨hh, hw, -, hlimits⟩
    simp only [limits, List.forall_mem_cons, List.not_mem_nil, false_implies, implies_true,
      and_true] at hlimits
    obtain ⟨-, hbytes, -, -, -, -, -, helements, hy, hx⟩ := hlimits
    exact ⟨by omega, by omega, helements, hbytes, hy, hx⟩

/-- A refusal that no accepted request meets decides like this. -/
theorem decides_of_error {height width : P.Usize} {e : Error}
    (h : build P height.val width.val = .error e) (hdomain : ¬ Domain P height.val width.val)
    (hempty : ∀ axis, e = .emptyInterior axis ↔
      axis = "height" ∧ height.val = 0 ∨ axis = "width" ∧ height.val ≠ 0 ∧ width.val = 0)
    (hoverflow : (∃ operation, e = .shapeOverflow operation) ↔ height.val ≠ 0 ∧ width.val ≠ 0 ∧
      2 ^ P.width ≤ 4 * ((height.val + 2) * (width.val + 2)))
    (hlimit : ∀ quantity actual maximum, e = .shapeLimit quantity actual maximum ↔
      height.val ≠ 0 ∧ width.val ≠ 0 ∧ 4 * ((height.val + 2) * (width.val + 2)) < 2 ^ P.width ∧
        violated P height.val width.val = some (quantity, actual, maximum))
    (honly : (∃ axis, e = .emptyInterior axis) ∨ (∃ operation, e = .shapeOverflow operation) ∨
      ∃ quantity actual maximum, e = .shapeLimit quantity actual maximum) :
    Decides P height.val width.val (new P height width) := by
  rw [new_eq_error.mpr h]
  refine ⟨⟨nofun, fun hd => absurd hd hdomain⟩, nofun, ?_, ?_, ?_, ?_, ?_⟩
  · simpa using hempty
  · simpa using hoverflow
  · simpa using hlimit
  · intro quantity actual maximum he
    rw [Except.error.injEq] at he
    exact (violated_eq_some ((hlimit _ _ _).mp he).2.2.2).2
  · rintro e' ⟨⟩
    refine honly.imp_right (Or.imp_right ?_)
    rintro ⟨quantity, actual, maximum, he⟩
    have hmem := (violated_eq_some ((hlimit _ _ _).mp he).2.2.2).1
    exact ⟨_, hmem, he, limits_names _ hmem⟩

/-- `Shape2D::new` accepts exactly the documented domain, stores exact values, and names the first
violated condition. -/
theorem new_decides (height width : P.Usize) :
    Decides P height.val width.val (new P height width) := by
  have hmax := usizeMax_lt P
  by_cases hh : height.val = 0
  · refine decides_of_error (e := .emptyInterior "height") ?_ ?_ ?_ ?_ ?_ ?_
    · simp [build, hh]
      rfl
    · exact fun hd => absurd hh hd.height_pos.ne'
    · simp [hh, eq_comm]
    · simp [hh]
    · simp [hh]
    · exact .inl ⟨_, rfl⟩
  by_cases hw : width.val = 0
  · refine decides_of_error (e := .emptyInterior "width") ?_ ?_ ?_ ?_ ?_ ?_
    · simp [build, hh, hw]
      rfl
    · exact fun hd => absurd hw hd.width_pos.ne'
    · simp [hh, hw, eq_comm]
    · simp [hw]
    · simp [hw]
    · exact .inl ⟨_, rfl⟩
  by_cases hfits : 4 * ((height.val + 2) * (width.val + 2)) ≤ P.usizeMax
  · have hbuild := build_of_fits hh hw hfits
    cases hv : violated P height.val width.val with
    | none =>
      rw [hv] at hbuild
      obtain ⟨hvalid, -⟩ := build_valid hbuild
      have hdomain := domain_iff.mpr ⟨hh, hw, hfits, hv⟩
      have hok : new P height width = .ok ⟨exact height.val width.val, hvalid⟩ :=
        new_eq_ok.mpr hbuild
      rw [hok]
      refine ⟨⟨fun _ => hdomain, fun _ => ⟨_, rfl⟩⟩, ?_, ?_, ?_, ?_, (by simp), (by simp)⟩
      · rintro shape ⟨⟩
        rfl
      · simp [hh, hw]
      · simp only [reduceCtorEq, exists_false, false_iff, not_and]
        omega
      · simp [hv]
    | some x =>
      rw [hv] at hbuild
      refine decides_of_error hbuild ?_ ?_ ?_ ?_ (.inr (.inr ⟨_, _, _, rfl⟩))
      · intro hd
        cases hv.symm.trans (domain_iff.mp hd).2.2.2
      · simp [hh, hw]
      · simp only [reduceCtorEq, exists_false, false_iff, not_and]
        omega
      · intro quantity actual maximum
        obtain ⟨q, a, b⟩ := x
        simp only [Error.shapeLimit.injEq, hv, Option.some.injEq, Prod.mk.injEq]
        exact ⟨fun h => ⟨hh, hw, by omega, h⟩, fun h => h.2.2.2⟩
  · obtain ⟨operation, hbuild⟩ := build_of_overflow hh hw (not_le.mp hfits)
    refine decides_of_error hbuild ?_ ?_ ?_ ?_ (.inr (.inl ⟨_, rfl⟩))
    · exact fun hd => hfits (domain_iff.mp hd).2.2.1
    · simp [hh, hw]
    · exact ⟨fun _ => ⟨hh, hw, by omega⟩, fun _ => ⟨_, rfl⟩⟩
    · simp only [reduceCtorEq, false_iff, not_and]
      omega

end Shape2D
end Gudra
