import Gudra.Sequential
import Gudra.Specs

/-! The static check of a shape against what live admission grants. -/
namespace Gudra

open Scope

variable {P : Platform} {α : Type}

/-- `ResourceLimits::check_shape` -/
def ResourceLimits.checkShape (limits : ResourceLimits P) (shape : Shape2D P) :
    Except Error Unit := do
  check "buffer bytes" shape.haloedBytes limits.bufferBytes
  let total ← okOr (.resourceLimit "device bytes" limits.totalBytes)
    ((P.checkedMul shape.interiorBytes 2).bind fun n => P.checkedAdd n shape.haloedBytes)
  check "device bytes" total limits.totalBytes
  check "live buffers" 3 limits.buffers

section Limits

variable {limits : ResourceLimits P} {shape : Shape2D P}

theorem Shape2D.interiorBytes_le (shape : Shape2D P) : shape.interiorBytes ≤ shape.haloedBytes := by
  rw [shape.interiorBytes_eq, shape.haloedBytes_eq]
  exact Nat.mul_le_mul_right _ shape.interiorLen_le

theorem check_eq_ok {resource : String} {amount maximum : ℕ} {u : Unit} :
    check resource amount maximum = .ok u ↔ amount ≤ maximum := by
  by_cases h : maximum < amount
  · simp [check, h]
  · simp [check, not_lt.mp h]

/-- The sum that overflows is above every limit. -/
theorem checkShape_eq_ok : limits.checkShape shape = .ok () ↔
    shape.haloedBytes ≤ limits.bufferBytes ∧
      shape.haloedBytes + 2 * shape.interiorBytes ≤ limits.totalBytes ∧ 3 ≤ limits.buffers := by
  have htotal := limits.totalBytes_le
  simp only [ResourceLimits.checkShape, bind_eq_ok, check_eq_ok, okOr_eq_ok,
    Option.bind_eq_some_iff, Platform.checkedMul, Platform.checkedAdd, Option.ite_none_right_eq_some,
    Option.some.injEq]
  constructor
  · rintro ⟨_, hbuffer, _, ⟨_, ⟨_, rfl⟩, _, rfl⟩, _, hsum, hcount⟩
    exact ⟨hbuffer, by omega, hcount⟩
  · rintro ⟨hbuffer, hsum, hcount⟩
    exact ⟨(), hbuffer, _, ⟨_, ⟨by omega, rfl⟩, by omega, rfl⟩, (), by omega, hcount⟩

/-- The limits leave room for buffers of these sizes. -/
def ResourceLimits.AdmitsAll (limits : ResourceLimits P) (rs : List Reservation)
    (sizes : List ℕ) : Prop :=
  (∀ bytes ∈ sizes, bytes ≤ limits.bufferBytes) ∧
    Gudra.bufferBytes rs + sizes.sum ≤ limits.totalBytes ∧
    bufferCount rs + sizes.length ≤ limits.buffers

variable {rs : List Reservation} {bytes : ℕ} {sizes sizes' : List ℕ}

/-- Granting them one after the other is granting them together. -/
theorem admitsAll_cons (id : ℕ) : limits.AdmitsAll rs (bytes :: sizes) ↔
    limits.Admits rs bytes ∧ limits.AdmitsAll (⟨id, bytes, true⟩ :: rs) sizes := by
  simp only [ResourceLimits.AdmitsAll, ResourceLimits.Admits, List.forall_mem_cons, List.sum_cons,
    List.length_cons, bufferBytes_cons, bufferCount_cons, if_true]
  constructor
  · rintro ⟨⟨hb, hall⟩, hsum, hcount⟩
    exact ⟨⟨hb, by omega, by omega⟩, hall, by omega, by omega⟩
  · rintro ⟨⟨hb, -, -⟩, hall, hsum, hcount⟩
    exact ⟨⟨hb, hall⟩, by omega, by omega⟩

theorem ResourceLimits.Admits.admitsAll_nil {id : ℕ} (h : limits.Admits rs bytes) :
    limits.AdmitsAll (⟨id, bytes, true⟩ :: rs) [] := by
  simp only [ResourceLimits.Admits] at h
  simp only [ResourceLimits.AdmitsAll, bufferBytes_cons, bufferCount_cons, List.sum_nil,
    List.length_nil, if_true]
  exact ⟨fun _ hb => absurd hb List.not_mem_nil, by omega, by omega⟩

theorem admitsAll_perm (h : sizes.Perm sizes') :
    limits.AdmitsAll rs sizes ↔ limits.AdmitsAll rs sizes' := by
  simp only [ResourceLimits.AdmitsAll, h.mem_iff, h.sum_eq, h.length_eq]

/-- An interior field is no larger than the haloed source, which is checked alone. -/
theorem checkShape_iff_admitsAll : limits.checkShape shape = .ok () ↔
    limits.AdmitsAll [] [shape.haloedBytes, shape.interiorBytes, shape.interiorBytes] := by
  have hle := shape.interiorBytes_le
  rw [checkShape_eq_ok]
  simp only [ResourceLimits.AdmitsAll, List.forall_mem_cons, List.not_mem_nil, List.sum_cons,
    List.sum_nil, List.length_cons, List.length_nil, bufferBytes_nil, bufferCount_nil]
  constructor
  · rintro ⟨hbuffer, htotal, hcount⟩
    exact ⟨⟨hbuffer, by omega, by omega, nofun⟩, by omega, by omega⟩
  · rintro ⟨⟨hbuffer, -⟩, htotal, hcount⟩
    exact ⟨hbuffer, by omega, by omega⟩

end Limits

namespace Solo

variable {S : Solo P} {fs rest : Frames Name Atom} {f : Frame Name Atom} {g : ℕ → Bool} {s : ℕ}

@[simp] theorem held_nil : held s ([] :: fs) = held s fs := rfl

@[simp] theorem held_storage {x : Name} {t : Storage} :
    held s (((x, .storage t) :: f) :: fs) = held s (f :: fs) := rfl

theorem held_reservation {x : Name} {r : Reservation} (h : s = r.budget) :
    held s (((x, .reservation r) :: f) :: fs) = r :: held s (f :: fs) := by
  subst h
  exact World.reservations_cons_self

variable {session : Session}

section Primitives

variable {X : Error → Frames Name Atom → (ℕ → Bool) → Prop}

theorem inv_logic : (S.logic (α := α)).inv fs g ↔ True := Iff.rfl

theorem dropAll (fs : Frames Name Atom) (g : ℕ → Bool) : (S.logic (α := α)).dropAll fs g :=
  ⟨fun _ _ => trivial, trivial⟩

theorem wpx_buffer {x : Name} {bytes : ℕ}
    {Q : Reservation → Frames Name Atom → (ℕ → Bool) → Prop} :
    (S.logic (α := α)).wpx (Op.buffer x session bytes) Q X fs g ↔ session.id = S.session ∧
      (S.limits.Admits (held session.id fs) bytes →
        Q ⟨session.id, bytes, true⟩ (fs.push [(x, .reservation ⟨session.id, bytes, true⟩)]) g) ∧
      (¬ S.limits.Admits (held session.id fs) bytes →
        ∀ resource maximum, X (.resourceLimit resource maximum) fs g) := by
  simp only [Op.buffer, Logic.wpx, ExceptT.run_mk, Logic.wp, logic, spec, true_and]

theorem wpx_operation {x : Name} {Q : Reservation → Frames Name Atom → (ℕ → Bool) → Prop} :
    (S.logic (α := α)).wpx (Op.operation x session) Q X fs g ↔ session.id = S.session ∧
      S.limits.AdmitsOperation (held session.id fs) ∧
      Q ⟨session.id, 0, false⟩ (fs.push [(x, .reservation ⟨session.id, 0, false⟩)]) g := by
  simp only [Op.operation, Logic.wpx, ExceptT.run_mk, Logic.wp, logic, spec, true_and]

theorem wpx_bindDevice {Q : Unit → Frames Name Atom → (ℕ → Bool) → Prop} :
    (S.logic (α := α)).wpx (Op.bindDevice session) Q X fs g ↔
      (S.faulty → ∀ e, X (backend "bind device to thread" e) fs g) ∧ Q () fs g := by
  simp only [Op.bindDevice, Logic.wpx, ExceptT.run_mk, Logic.wp, logic, spec, true_and, mapBackend]

theorem wpx_attempt {Q : Unit → Frames Name Atom → (ℕ → Bool) → Prop} :
    (S.logic (α := α)).wpx Op.attempt Q X fs g ↔
      (S.faulty → ∀ operation message, X (backend operation message) fs g) ∧ Q () fs g := by
  simp only [Op.attempt, Logic.wpx, ExceptT.run_mk, Logic.wp, logic, spec, true_and]

theorem wpx_upload {label : String} {x : Name} {data : List α}
    {Q : Storage → Frames Name Atom → (ℕ → Bool) → Prop} :
    S.logic.wpx (Op.upload label x session data) Q X fs g ↔
      (S.faulty → ∀ e, X (backend label e) fs g) ∧
      ∀ s : Storage, s.device = session.device → s.session = session.id → s.len = data.length →
        Q s (fs.push [(x, .storage s)]) (Function.update g s.id false) := by
  simp only [Op.upload, Logic.wpx, ExceptT.run_mk, Logic.wp, logic, spec, true_and, mapBackend]

theorem wpx_completions {Q : (ℕ → Bool) → Frames Name Atom → (ℕ → Bool) → Prop} :
    (S.logic (α := α)).wpx Op.completions Q X fs g ↔ Q g fs g := by
  simp only [Op.completions, Logic.wpx, ExceptT.run_mk, Logic.wp, logic, spec, true_and]

theorem wpx_setCompletion {id : ℕ} {uncertain : Bool}
    {Q : Unit → Frames Name Atom → (ℕ → Bool) → Prop} :
    (S.logic (α := α)).wpx (Op.setCompletion id uncertain) Q X fs g ↔
      Q () fs (Function.update g id uncertain) := by
  simp only [Op.setCompletion, Logic.wpx, ExceptT.run_mk, Logic.wp, logic, spec, true_and]

theorem wpx_execute {label : String} {l : Launch α}
    {Q : Unit → Frames Name Atom → (ℕ → Bool) → Prop} :
    S.logic.wpx (Op.execute label session l) Q X fs g ↔
      (S.faulty → ∀ e, X (backend label e) fs g) ∧ Q () fs g := by
  simp only [Op.execute, Logic.wpx, ExceptT.run_mk, Logic.wp, logic, spec, true_and, mapBackend]

theorem wpx_copy {t : Storage}
    {Q : Except String (List α) → Frames Name Atom → (ℕ → Bool) → Prop} :
    S.logic.wpx (Op.copy session t) Q X fs g ↔
      (S.faulty → ∀ e, Q (.error e) fs g) ∧ ∀ data, Q (.ok data) fs g := by
  simp only [Op.copy, Logic.wpx, ExceptT.run_mk, Logic.wp, logic, spec, true_and]

end Primitives

variable {shape : Shape2D P} {data : List α} {extent : ℕ × ℕ} {X : Error → Prop}

/-- No future holds an operation, and the caller runs one call after the other. -/
def Idle (s : ℕ) (fs : Frames Name Atom) : Prop := operationCount (held s fs) = 0

theorem Idle.admits {rs : List Reservation} (h : operationCount rs = 0) :
    S.limits.AdmitsOperation rs := by
  have hpos := S.limits.operations_pos
  simp only [ResourceLimits.AdmitsOperation]
  omega

theorem Idle.enter (h : Idle s fs) (moves : List (Name × Name)) : Idle s (fs.enter moves) :=
  (operationCount_perm (reservations_perm (enter_perm moves fs))).trans h

/-- A buffer of the caller is charged to its session. -/
theorem held_entries {b : Buffer P} {extent : ℕ × ℕ} (hkept : b.Kept extent)
    (hs : b.session.id = s) (y : Var) : held s ((b.entries y ++ f) :: rest) =
      ⟨s, extent.1 * extent.2 * sizeOfF32, true⟩ :: held s (f :: rest) := by
  have hr : s = b.reservation.budget := by rw [hkept.reservation_eq, hs]
  change held s (((.charge y, .reservation b.reservation) :: f) :: rest) = _
  rw [held_reservation hr, hkept.reservation_eq, hs]

theorem idle_entries {b : Buffer P} {extent : ℕ × ℕ} (hkept : b.Kept extent)
    (hs : b.session.id = s) (y : Var) : Idle s ((b.entries y ++ f) :: rest) ↔ Idle s (f :: rest) := by
  rw [Idle, held_entries hkept hs]
  simp [Idle]

/-- No allocation is marked. -/
def clear : ℕ → Bool := fun _ => false

@[simp] theorem update_clear (id : ℕ) : Function.update clear id false = clear :=
  Function.update_eq_self id clear

theorem wpx_uploadReserved (hsession : session.id = S.session) (hidle : Idle S.session (f :: rest))
    (hlen : data.length = extent.1 * extent.2) (hextent : Bounded P extent) {r : Reservation}
    (hr : r = ⟨session.id, extent.1 * extent.2 * sizeOfF32, true⟩) {x y : Var}
    (hparams : fs.enter [(.charge x, .charge .reservation)] =
      [(.charge .reservation, .reservation r)] :: f :: rest)
    {Q : Buffer P → Frames Name Atom → (ℕ → Bool) → Prop}
    (hX : S.faulty → ∀ operation message, X (backend operation message))
    (hQ : ∀ b, b.shape = shape → b.session = session → b.Kept extent →
      Q b ((b.entries y ++ f) :: rest) clear) :
    S.logic.wpx (Gpu.uploadReserved session shape data extent r x y) Q (fun e _ _ => X e) fs
      clear := by
  have hadmits : S.limits.AdmitsOperation
      (held session.id ([(.charge .reservation, .reservation r)] :: f :: rest)) := by
    rw [held_reservation (by rw [hr]), held_nil, hsession]
    apply Idle.admits
    simpa [hr, Idle] using hidle
  rw [Gpu.uploadReserved, Logic.wpx_scope, hparams]
  simp only [Logic.wpx_bind, wpx_operation, wpx_bindDevice, wpx_upload, wpx_attempt, dropAll,
    true_and, hadmits, eq_true hsession, Frames.push, update_clear]
  refine ⟨trivial, fun hf e => hX hf _ _, fun hf e => hX hf _ _, ?_⟩
  intro s hdevice hs hsize
  have hsize' : extent.1 * extent.2 = s.len := (hsize.trans hlen).symm
  have hbound : s.len ≤ i32Max := hsize'.symm.trans_le hextent.len_le
  refine ⟨fun hf o m => hX hf o m, ?_⟩
  rw [Tensor.reshape_uploaded hsize' hextent.fst_le hextent.snd_le hbound]
  refine ⟨trivial, hQ ⟨Tensor.ofRows s extent, shape, session, r⟩ rfl rfl ?_⟩
  exact ⟨Tensor.rowMajor_ofRows hsize', hdevice, hs, hr⟩

/-- What a granted or refused buffer of a caller means. -/
structure Charges (S : Solo P) (session : Session) (extent : ℕ × ℕ) (y : Var)
    (f : Frame Name Atom) (rest : Frames Name Atom) (shape : Shape2D P) (X : Error → Prop)
    (Q : Buffer P → Frames Name Atom → (ℕ → Bool) → Prop) : Prop where
  session_eq : session.id = S.session
  idle : Idle S.session (f :: rest)
  failed : S.faulty → ∀ operation message, X (backend operation message)
  refused : ¬ S.limits.Admits (held S.session (f :: rest)) (extent.1 * extent.2 * sizeOfF32) →
    ∀ resource maximum, X (.resourceLimit resource maximum)
  granted : S.limits.Admits (held S.session (f :: rest)) (extent.1 * extent.2 * sizeOfF32) →
    ∀ b : Buffer P, b.shape = shape → b.session = session → b.Kept extent →
      Q b ((b.entries y ++ f) :: rest) clear

variable {y : Var}

theorem wpx_uploadBuffer {Q : Buffer P → Frames Name Atom → (ℕ → Bool) → Prop}
    (h : Charges S session extent y f rest shape X Q) (hlen : data.length = extent.1 * extent.2)
    (hextent : Bounded P extent) :
    S.logic.wpx (Gpu.upload session shape data extent y) Q (fun e _ _ => X e) (f :: rest)
      clear := by
  obtain ⟨hsession, hidle, hfailed, hrefused, hgranted⟩ := h
  have hidle : Idle S.session ([] :: f :: rest) := hidle
  have hbytes : P.checkedMul data.length sizeOfF32 = some (extent.1 * extent.2 * sizeOfF32) :=
    checkedMul_eq (by rw [hlen]) hextent.bytes_le
  rw [Gpu.upload, Logic.wpx_scope]
  simp only [Logic.wpx_bind, wpx_checked hbytes, wpx_buffer, dropAll, true_and, eq_true hsession]
  refine ⟨trivial, ?_, ?_⟩
  · intro hf
    rw [hsession] at hf
    refine wpx_uploadReserved (f := []) hsession hidle hlen hextent rfl rfl hfailed ?_
    intro b hshape hs hkept
    exact ⟨trivial, hgranted hf b hshape hs hkept⟩
  · intro hf
    rw [hsession] at hf
    exact hrefused hf

variable [Scalar α]

theorem wpx_zeros {Q : Field2D P → Frames Name Atom → (ℕ → Bool) → Prop}
    (h : Charges S session shape.interior y f rest shape X fun b => Q ⟨b⟩) :
    (S.logic (α := α)).wpx (Gpu.zeros session shape y) Q (fun e _ _ => X e) (f :: rest)
      clear := by
  obtain ⟨hsession, hidle, hfailed, hrefused, hgranted⟩ := h
  have hidle : Idle S.session ([] :: f :: rest) := hidle
  have hbytes : shape.interiorBytes = shape.interior.1 * shape.interior.2 * sizeOfF32 := by
    rw [shape.interiorBytes_eq, shape.interiorLen_eq]
    rfl
  rw [Gpu.zeros, Logic.wpx_scope]
  simp only [Logic.wpx_bind, wpx_buffer, dropAll, true_and, eq_true hsession, hbytes]
  refine ⟨trivial, ?_, ?_⟩
  · intro hf
    rw [hsession] at hf
    refine wpx_uploadReserved (f := []) hsession hidle ?_ (bounded_interior shape) rfl rfl
      hfailed ?_
    · rw [List.length_replicate, shape.interiorLen_eq]
      rfl
    · intro b hshape hs hkept
      exact ⟨trivial, hgranted hf b hshape hs hkept⟩
  · intro hf
    rw [hsession] at hf
    exact hrefused hf

/-- The arguments of a caller that uses one session and one shape. -/
structure Own (session : Session) (source : HaloGrid2D P) (fields : List (Field2D P)) : Prop where
  source_kept : source.Kept
  source_session : source.storage.session = session
  field_kept : ∀ f ∈ fields, f.Kept
  field_session : ∀ f ∈ fields, f.storage.session = session
  shape_eq : ∀ f ∈ fields, f.shape = source.shape

section Calls

variable {source : HaloGrid2D P} {rhs output : Field2D P} {params : JacobiParams α}
  {field : Option (Field2D P)}

omit [Scalar α] in
theorem Own.validate (h : Own session source (rhs :: field.toList)) :
    validateStep clear session source rhs field = .ok () := by
  refine validateFields_of_accepted h.source_kept (fun _ => h.source_session.symm) ?_ ?_
  · intro f hf
    exact ⟨h.field_kept f hf, fun _ => (h.field_session f hf).symm⟩
  · refine ⟨⟨rfl, by rw [h.source_session]⟩, h.shape_eq, ?_⟩
    intro f hf
    exact ⟨rfl, by rw [h.field_session f hf]⟩

omit [Scalar α] in
theorem wpx_stepInto {Q : Unit → Frames Name Atom → (ℕ → Bool) → Prop}
    (hsession : session.id = S.session) (hidle : Idle S.session (f :: rest))
    (hown : Own session source [rhs, output])
    (hX : S.faulty → ∀ operation message, X (backend operation message))
    (hQ : Q () (f :: rest) clear) :
    S.logic.wpx (Gpu.stepInto session source rhs output params) Q (fun e _ _ => X e) (f :: rest)
      clear := by
  have hadmits : S.limits.AdmitsOperation (held session.id ([] :: f :: rest)) := by
    rw [hsession]
    exact Idle.admits hidle
  have hvalidate : validateStep clear session source rhs (some output) = .ok () := hown.validate
  rw [Gpu.stepInto, Logic.wpx_scope]
  simp only [Logic.wpx_bind, wpx_completions, wpx_ofExcept, hvalidate, wpx_operation,
    wpx_bindDevice, dropAll, true_and, eq_true hsession]
  refine ⟨trivial, fun _ _ => ⟨hadmits, fun hf e => hX hf _ _, ?_⟩, (by simp)⟩
  rw [Gpu.views, Logic.wpx_bind, wpx_attempt]
  refine ⟨fun hf o m => hX hf o m, ?_⟩
  rw [wpx_ofFallible (directionalViews_eq hown.source_kept.rowMajor), Completion.run]
  simp only [Logic.wpx_bind, wpx_setCompletion, wpx_execute, Function.update_idem, update_clear]
  exact ⟨fun hf e => hX hf _ _, trivial, hQ⟩

theorem wpx_step {Q : Field2D P → Frames Name Atom → (ℕ → Bool) → Prop}
    (hsession : session.id = S.session) (hidle : Idle S.session (f :: rest))
    (hown : Own session source [rhs])
    (hadmits : S.limits.Admits (held S.session (f :: rest))
      (source.shape.interior.1 * source.shape.interior.2 * sizeOfF32))
    (hX : S.faulty → ∀ operation message, X (backend operation message))
    (hQ : ∀ b, b.shape = source.shape → b.session = session → b.Kept source.shape.interior →
      Q ⟨b⟩ ((b.entries .output ++ f) :: rest) clear) :
    S.logic.wpx (Gpu.step session source rhs params) Q (fun e _ _ => X e) (f :: rest) clear := by
  have hvalidate : validateStep clear session source rhs none = .ok () := hown.validate
  rw [Gpu.step, Logic.wpx_scope]
  simp only [Logic.wpx_bind, wpx_completions, wpx_ofExcept, hvalidate, dropAll, true_and]
  refine ⟨trivial, fun _ _ => ?_, nofun⟩
  refine wpx_zeros (f := []) ⟨hsession, hidle, hX, fun hn => absurd hadmits hn, ?_⟩
  intro _ b hshape hs hkept
  have hcharge : Idle S.session ((b.entries .output ++ []) :: f :: rest) := by
    rw [idle_entries hkept (by rw [hs, hsession])]
    exact hidle
  have hkept' : (⟨b⟩ : Field2D P).Kept := by
    rw [Field2D.Kept, Field2D.shape, hshape]
    exact hkept
  refine wpx_stepInto hsession hcharge ⟨hown.source_kept, hown.source_session, ?_, ?_, ?_⟩ hX ?_
  · intro f hf
    rcases List.mem_cons.mp hf with rfl | hf
    · exact hown.field_kept f List.mem_cons_self
    · obtain rfl := List.mem_singleton.mp hf
      exact hkept'
  · intro f hf
    rcases List.mem_cons.mp hf with rfl | hf
    · exact hown.field_session f List.mem_cons_self
    · obtain rfl := List.mem_singleton.mp hf
      exact hs
  · intro f hf
    rcases List.mem_cons.mp hf with rfl | hf
    · exact hown.shape_eq f List.mem_cons_self
    · obtain rfl := List.mem_singleton.mp hf
      exact hshape
  · exact ⟨trivial, hQ b hshape hs hkept⟩

omit [Scalar α] in
theorem wpx_intoHost {Q : List α → Frames Name Atom → (ℕ → Bool) → Prop}
    (hsession : output.storage.session.id = S.session)
    (hidle : Idle S.session ((output.storage.entries .self ++ f) :: rest))
    (hX : S.faulty → ∀ operation message, X (backend operation message))
    (hQ : ∀ data fs, Q data fs clear) :
    S.logic.wpx output.intoHost Q (fun e _ _ => X e) ((output.storage.entries .self ++ f) :: rest)
      clear := by
  have hadmits := Idle.admits (S := S) (hidle.enter (moveBuffer .self .self))
  rw [Field2D.intoHost, Logic.wpx_scope]
  simp only [Logic.wpx_bind, wpx_completions, wpx_ofExcept, wpx_operation, wpx_bindDevice, wpx_copy,
    Logic.wpx_rebind, Logic.wpx_discard, inv_logic, dropAll, true_and, eq_true hsession]
  refine ⟨fun _ _ => ⟨?_, fun hf e => hX hf _ _, ?_, ?_⟩, by rintro _ ⟨⟩⟩
  · rw [hsession]
    exact hadmits
  · intro hf e
    refine ⟨by rintro _ ⟨⟩, ?_⟩
    rintro _ ⟨⟩
    exact hX hf _ _
  · exact fun data => ⟨fun _ _ => hQ _ _, by rintro _ ⟨⟩⟩

end Calls
end Solo

/-! ### The caller -/

/-- The allocations that `check_shape` speaks of. -/
inductive Allocation where
  | uploadHalo
  | uploadField
  | zeros
deriving DecidableEq

def Allocation.bytes (shape : Shape2D P) : Allocation → ℕ
  | uploadHalo => shape.haloedBytes
  | uploadField | zeros => shape.interiorBytes

section Caller

variable [Scalar α] (session : Session) (shape : Shape2D P) (source rhs : List α)

def Allocation.code : Allocation → Op α Unit
  | uploadHalo => do
    let _ ← Gpu.uploadHalo session shape source
    return
  | uploadField => do
    let _ ← Gpu.uploadField session shape rhs
    return
  | zeros => do
    let _ ← Gpu.zeros session shape .output
    return

/-- The allocations in order; each buffer lives until the caller ends. -/
def allocate (order : List Allocation) : Op α Unit :=
  order.forM (Allocation.code session shape source rhs)

/-- One single-step solve: upload, step into its own output, read back. -/
def solve (params : JacobiParams α) : Op α (List α) := do
  let source ← Gpu.uploadHalo session shape source
  let rhs ← Gpu.uploadField session shape rhs
  let output ← Gpu.step session source rhs params
  rebind (moveBuffer .output .self)
  output.intoHost

end Caller

namespace Solo

variable {S : Solo P} {f : Frame Name Atom} {rest : Frames Name Atom} [Scalar α]
  {session : Session} {shape : Shape2D P} {source rhs : List α} {X : Error → Prop}

omit [Scalar α] in
theorem wpx_uploadHalo {Q : HaloGrid2D P → Frames Name Atom → (ℕ → Bool) → Prop}
    (hsource : source.length = shape.haloedLen)
    (h : Charges S session shape.haloed .source f rest shape X fun b => Q ⟨b⟩) :
    S.logic.wpx (Gpu.uploadHalo session shape source) Q (fun e _ _ => X e) (f :: rest) clear := by
  rw [Gpu.uploadHalo, Logic.wpx_bind, wpx_ofExcept, checkLen_eq_ok.mpr hsource]
  refine ⟨fun _ _ => ?_, (by simp)⟩
  rw [Logic.wpx_bind]
  exact wpx_uploadBuffer h (hsource.trans (haloedLen_prod shape)) (bounded_haloed shape)

omit [Scalar α] in
theorem wpx_uploadField {Q : Field2D P → Frames Name Atom → (ℕ → Bool) → Prop}
    (hrhs : rhs.length = shape.interiorLen)
    (h : Charges S session shape.interior .rhs f rest shape X fun b => Q ⟨b⟩) :
    S.logic.wpx (Gpu.uploadField session shape rhs) Q (fun e _ _ => X e) (f :: rest) clear := by
  rw [Gpu.uploadField, Logic.wpx_bind, wpx_ofExcept, checkLen_eq_ok.mpr hrhs]
  refine ⟨fun _ _ => ?_, (by simp)⟩
  rw [Logic.wpx_bind]
  exact wpx_uploadBuffer h (hrhs.trans shape.interiorLen_eq) (bounded_interior shape)

omit [Scalar α] in
theorem haloedBytes_prod (shape : Shape2D P) :
    shape.haloed.1 * shape.haloed.2 * sizeOfF32 = shape.haloedBytes := by
  rw [shape.haloedBytes_eq, haloedLen_prod]

omit [Scalar α] in
theorem interiorBytes_prod (shape : Shape2D P) :
    shape.interior.1 * shape.interior.2 * sizeOfF32 = shape.interiorBytes := by
  rw [shape.interiorBytes_eq, shape.interiorLen_eq]
  rfl

/-- One allocation is granted exactly when the limits have room for it. -/
theorem wpx_allocation {a : Allocation} {Q : Unit → Frames Name Atom → (ℕ → Bool) → Prop}
    (hsession : session.id = S.session) (hidle : Idle S.session (f :: rest))
    (hsource : source.length = shape.haloedLen) (hrhs : rhs.length = shape.interiorLen)
    (hX : S.faulty → ∀ operation message, X (backend operation message))
    (hrefused : ¬ S.limits.Admits (held S.session (f :: rest)) (a.bytes shape) →
      ∀ resource maximum, X (.resourceLimit resource maximum))
    (hgranted : S.limits.Admits (held S.session (f :: rest)) (a.bytes shape) → ∀ f',
      held S.session (f' :: rest) = ⟨S.session, a.bytes shape, true⟩ :: held S.session (f :: rest) →
      Q () (f' :: rest) clear) :
    S.logic.wpx (a.code session shape source rhs) Q (fun e _ _ => X e) (f :: rest) clear := by
  cases a with
  | uploadHalo =>
    simp only [Allocation.bytes, ← haloedBytes_prod] at hrefused hgranted
    rw [Allocation.code, Logic.wpx_bind]
    refine wpx_uploadHalo hsource ⟨hsession, hidle, hX, hrefused, ?_⟩
    intro hf b _ hs hkept
    exact hgranted hf _ (held_entries hkept (by rw [hs, hsession]) _)
  | uploadField =>
    simp only [Allocation.bytes, ← interiorBytes_prod] at hrefused hgranted
    rw [Allocation.code, Logic.wpx_bind]
    refine wpx_uploadField hrhs ⟨hsession, hidle, hX, hrefused, ?_⟩
    intro hf b _ hs hkept
    exact hgranted hf _ (held_entries hkept (by rw [hs, hsession]) _)
  | zeros =>
    simp only [Allocation.bytes, ← interiorBytes_prod] at hrefused hgranted
    rw [Allocation.code, Logic.wpx_bind]
    refine wpx_zeros ⟨hsession, hidle, hX, hrefused, ?_⟩
    intro hf b _ hs hkept
    exact hgranted hf _ (held_entries hkept (by rw [hs, hsession]) _)

/-- A list of allocations is granted exactly when the limits have room for all. -/
theorem wpx_allocate {order : List Allocation} (hfaulty : ¬ S.faulty)
    (hsession : session.id = S.session) (hidle : Idle S.session (f :: rest))
    (hsource : source.length = shape.haloedLen) (hrhs : rhs.length = shape.interiorLen)
    (hroom : S.limits.AdmitsAll (held S.session (f :: rest)) []) :
    S.logic.wpx (allocate session shape source rhs order)
      (fun _ _ _ => S.limits.AdmitsAll (held S.session (f :: rest))
        (order.map (Allocation.bytes shape)))
      (fun e _ _ => ¬ S.limits.AdmitsAll (held S.session (f :: rest))
        (order.map (Allocation.bytes shape)) ∧
          ∃ resource maximum, e = .resourceLimit resource maximum) (f :: rest) clear := by
  induction order generalizing f with
  | nil => exact hroom
  | cons a order ih =>
    simp only [List.map_cons, admitsAll_cons S.session]
    rw [allocate, List.forM_eq_forM, List.forM_cons, Logic.wpx_bind]
    refine wpx_allocation hsession hidle hsource hrhs (fun hf => absurd hf hfaulty) ?_ ?_
    · intro hf resource maximum
      exact ⟨fun h => hf h.1, _, _, rfl⟩
    · intro hf f' hf'
      have hidle' : Idle S.session (f' :: rest) := by
        rw [Idle, hf']
        simpa [Idle] using hidle
      have hrun := ih hidle' (hf' ▸ hf.admitsAll_nil)
      rw [hf'] at hrun
      refine Logic.wpx_mono (fun _ _ _ h => ⟨hf, h⟩) ?_ hrun
      rintro e _ _ ⟨hn, he⟩
      exact ⟨fun h => hn h.2, he⟩

/-- With room for its three buffers a solve fails only where the backend does. -/
theorem wpx_solve {params : JacobiParams α} (hsession : session.id = S.session)
    (hsource : source.length = shape.haloedLen) (hrhs : rhs.length = shape.interiorLen)
    (hroom : S.limits.AdmitsAll [] [shape.haloedBytes, shape.interiorBytes, shape.interiorBytes])
    (hX : S.faulty → ∀ operation message, X (backend operation message)) :
    S.logic.wpx (solve session shape source rhs params) (fun _ _ _ => True) (fun e _ _ => X e) [[]]
      clear := by
  obtain ⟨hfirst, hroom⟩ := (admitsAll_cons S.session).mp hroom
  obtain ⟨hsecond, hroom⟩ := (admitsAll_cons S.session).mp hroom
  obtain ⟨hthird, -⟩ := (admitsAll_cons S.session).mp hroom
  have hstart : held S.session [[]] = [] := rfl
  have hidle : Idle S.session [[]] := rfl
  rw [solve, Logic.wpx_bind]
  refine wpx_uploadHalo hsource ⟨hsession, hidle, hX, ?_, ?_⟩
  · rw [hstart, haloedBytes_prod]
    exact fun hn => absurd hfirst hn
  intro _ b hshape hs hkept
  have hidle := (idle_entries hkept (by rw [hs, hsession]) .source).mpr hidle
  have hcharge : held S.session [b.entries .source ++ []] =
      [⟨S.session, shape.haloedBytes, true⟩] := by
    rw [held_entries hkept (by rw [hs, hsession]), hstart, haloedBytes_prod]
  rw [Logic.wpx_bind]
  refine wpx_uploadField hrhs ⟨hsession, hidle, hX, ?_, ?_⟩
  · rw [hcharge, interiorBytes_prod]
    exact fun hn => absurd hsecond hn
  intro _ b' hshape' hs' hkept'
  have hidle := (idle_entries hkept' (by rw [hs', hsession]) .rhs).mpr hidle
  have hcharge' : held S.session [b'.entries .rhs ++ (b.entries .source ++ [])] =
      [⟨S.session, shape.interiorBytes, true⟩, ⟨S.session, shape.haloedBytes, true⟩] := by
    rw [held_entries hkept' (by rw [hs', hsession]), hcharge, interiorBytes_prod]
  have hown : Own session ⟨b⟩ [⟨b'⟩] := by
    refine ⟨?_, hs, ?_, ?_, ?_⟩
    · rw [HaloGrid2D.Kept, HaloGrid2D.shape, hshape]
      exact hkept
    · intro f hf
      obtain rfl := List.mem_singleton.mp hf
      rw [Field2D.Kept, Field2D.shape, hshape']
      exact hkept'
    · intro f hf
      obtain rfl := List.mem_singleton.mp hf
      exact hs'
    · intro f hf
      obtain rfl := List.mem_singleton.mp hf
      exact hshape'.trans hshape.symm
  have hinterior : (⟨b⟩ : HaloGrid2D P).shape = shape := hshape
  rw [Logic.wpx_bind]
  refine wpx_step hsession hidle hown ?_ hX ?_
  · rw [hcharge', hinterior, interiorBytes_prod]
    exact hthird
  intro b'' _ hs'' hkept''
  rw [Logic.wpx_bind, Logic.wpx_rebind]
  refine ⟨trivial, ?_⟩
  have hmoved : Frames.own (moveBuffer .output .self)
      [b''.entries .output ++ (b'.entries .rhs ++ (b.entries .source ++ []))] =
      [b''.entries .self ++ (b'.entries .rhs ++ (b.entries .source ++ []))] := rfl
  rw [hmoved]
  have hid : b''.session.id = S.session := by rw [hs'', hsession]
  exact wpx_intoHost hid ((idle_entries hkept'' hid .self).mpr hidle) hX fun _ _ => trivial

end Solo

section Outcomes

variable [Scalar α] {limits : ResourceLimits P} {shape : Shape2D P} (device : ℕ)
  (memory : Addr → α) {source rhs : List α}

theorem allocate_outcome {order : List Allocation} (hsource : source.length = shape.haloedLen)
    (hrhs : rhs.length = shape.interiorLen) :
    limits.AdmitsAll [] (order.map (Allocation.bytes shape)) ∧
      (World.fresh device limits memory).outcome (fun _ => .ok)
        (allocate ⟨0, device⟩ shape source rhs order) = some (.ok ()) ∨
    ¬ limits.AdmitsAll [] (order.map (Allocation.bytes shape)) ∧ ∃ resource maximum,
      (World.fresh device limits memory).outcome (fun _ => .ok)
        (allocate ⟨0, device⟩ shape source rhs order) =
          some (.error (.resourceLimit resource maximum)) := by
  let S : Solo P := ⟨limits, 0, False⟩
  have hroom : limits.AdmitsAll [] [] :=
    ⟨fun _ hb => absurd hb List.not_mem_nil, Nat.zero_le _, Nat.zero_le _⟩
  have hcode : S.logic.wpx (allocate ⟨0, device⟩ shape source rhs order) _ _ [[]] Solo.clear :=
    Solo.wpx_allocate id rfl rfl hsource hrhs hroom
  rcases Solo.outcome_of_wpx (fun _ _ => rfl) hcode (Solo.models_fresh device limits memory) with
    ⟨-, hf⟩ | ⟨_, hout, hroom⟩ | ⟨_, hout, hroom, resource, maximum, rfl⟩
  · exact hf.elim
  · exact .inl ⟨hroom, hout⟩
  · exact .inr ⟨hroom, resource, maximum, hout⟩

theorem solve_outcome {params : JacobiParams α} (faulty : Prop) {backend : ℕ → Choice α}
    (hbackend : ¬ faulty → ∀ n, backend n = .ok) (hsource : source.length = shape.haloedLen)
    (hrhs : rhs.length = shape.interiorLen)
    (hroom : limits.AdmitsAll [] [shape.haloedBytes, shape.interiorBytes, shape.interiorBytes]) :
    let outcome := (World.fresh device limits memory).outcome backend
      (solve ⟨0, device⟩ shape source rhs params)
    (∃ data, outcome = some (.ok data)) ∨
      faulty ∧ (outcome = none ∨ ∃ operation message,
        outcome = some (.error (.backend operation message))) := by
  let S : Solo P := ⟨limits, 0, faulty⟩
  have hcode : S.logic.wpx (solve ⟨0, device⟩ shape source rhs params) (fun _ _ _ => True)
      (fun e _ _ => faulty ∧ ∃ operation message, e = .backend operation message) [[]]
      Solo.clear := by
    refine Solo.wpx_solve rfl hsource hrhs hroom ?_
    exact fun hf operation message => ⟨hf, operation, message, rfl⟩
  rcases Solo.outcome_of_wpx hbackend hcode (Solo.models_fresh device limits memory) with
    ⟨hnone, hf⟩ | ⟨data, hout, -⟩ | ⟨_, hout, hf, operation, message, rfl⟩
  · exact .inr ⟨hf, .inl hnone⟩
  · exact .inl ⟨data, hout⟩
  · exact .inr ⟨hf, .inr ⟨operation, message, hout⟩⟩

end Outcomes

/-- The static check accepts exactly what admission grants in a fresh session, in every order of
the allocations; after it no call of a solve is refused, whatever the backend does. -/
theorem preflight_agrees [Scalar α] (limits : ResourceLimits P) (shape : Shape2D P) (device : ℕ)
    (memory : Addr → α) (source rhs : List α) (params : JacobiParams α)
    (hsource : source.length = shape.haloedLen) (hrhs : rhs.length = shape.interiorLen) :
    (∀ order : List Allocation, order.Perm [.uploadHalo, .uploadField, .zeros] →
      (limits.checkShape shape = .ok () ↔
        (World.fresh device limits memory).outcome (fun _ => .ok)
          (allocate ⟨0, device⟩ shape source rhs order) = some (.ok ())) ∧
      ∀ e, limits.checkShape shape = .error e → ∃ resource maximum,
        (World.fresh device limits memory).outcome (fun _ => .ok)
          (allocate ⟨0, device⟩ shape source rhs order) =
            some (.error (.resourceLimit resource maximum))) ∧
    (limits.checkShape shape = .ok () →
      (∃ data, (World.fresh device limits memory).outcome (fun _ => .ok)
        (solve ⟨0, device⟩ shape source rhs params) = some (.ok data)) ∧
      ∀ backend resource maximum, (World.fresh device limits memory).outcome backend
        (solve ⟨0, device⟩ shape source rhs params) ≠
          some (.error (.resourceLimit resource maximum))) := by
  refine ⟨?_, ?_⟩
  · intro order horder
    have hcheck : limits.checkShape shape = .ok () ↔
        limits.AdmitsAll [] (order.map (Allocation.bytes shape)) :=
      checkShape_iff_admitsAll.trans (admitsAll_perm (horder.map (Allocation.bytes shape))).symm
    rcases allocate_outcome device memory hsource hrhs with
      ⟨hroom, hout⟩ | ⟨hroom, resource, maximum, hout⟩
    · refine ⟨⟨fun _ => hout, fun _ => hcheck.mpr hroom⟩, ?_⟩
      intro e he
      rw [hcheck.mpr hroom] at he
      cases he
    · refine ⟨⟨fun h => absurd (hcheck.mp h) hroom, ?_⟩, fun _ _ => ⟨resource, maximum, hout⟩⟩
      intro h
      rw [hout] at h
      cases h
  · intro hok
    have hroom := checkShape_iff_admitsAll.mp hok
    refine ⟨?_, ?_⟩
    · rcases solve_outcome device memory False (fun _ _ => rfl) hsource hrhs hroom with h | ⟨hf, -⟩
      · exact h
      · exact hf.elim
    · intro backend resource maximum h
      rcases solve_outcome device memory True (fun hf => absurd trivial hf) hsource hrhs hroom with
        ⟨data, hout⟩ | ⟨-, hout | ⟨_, _, hout⟩⟩
      · rw [hout] at h
        cases h
      · rw [hout] at h
        cases h
      · rw [hout] at h
        cases h

theorem preflight_agrees_cell :
    ∃ data, (World.fresh 0 ResourceLimits.cell fun _ => (0 : ℚ)).outcome (fun _ => .ok)
      (solve ⟨0, 0⟩ Shape2D.cell [0, 1, 0, 2, 3, 4, 0, 5, 0] [6] ⟨1 / 2, 1⟩) = some (.ok data) :=
  ((preflight_agrees ResourceLimits.cell Shape2D.cell 0 (fun _ => 0) _ _ _ rfl rfl).2
    (checkShape_eq_ok.mpr ⟨by decide, by decide, by decide⟩)).1

end Gudra
