import Gudra.Requests

/-! The order of the drops: a charge outlives the storage that it pays for. -/
namespace Gudra

open Scope

variable {P : Platform} {α : Type}

/-- The charge that pays for an allocation. -/
def Storage.price (s : Storage) : Reservation := ⟨s.session, s.len * sizeOfF32, true⟩

/-- How many allocations among resources call for the charge `r`. -/
def owed (r : Reservation) (xs : List Atom) : ℕ :=
  ((xs.filterMap Atom.storage?).map Storage.price).count r

/-- How many charges `r` there are among resources. -/
def paid (r : Reservation) (xs : List Atom) : ℕ := (xs.filterMap Atom.reservation?).count r

/-- Every allocation has a charge of its own. -/
def Covered (xs : List Atom) : Prop := ∀ r, owed r xs ≤ paid r xs

/-- Dropped one by one, the resources stay covered. -/
def Orderly (xs : List Atom) : Prop := ∀ ys, ys <:+ xs → Covered ys

section Covered

variable {r o : Reservation} {s : Storage} {xs ys : List Atom}

@[simp] theorem owed_storage :
    owed r (.storage s :: xs) = owed r xs + if s.price = r then 1 else 0 := by
  simp [owed, Atom.storage?, List.count_cons]

@[simp] theorem owed_reservation : owed r (.reservation o :: xs) = owed r xs := rfl

@[simp] theorem paid_storage : paid r (.storage s :: xs) = paid r xs := rfl

@[simp] theorem paid_reservation :
    paid r (.reservation o :: xs) = paid r xs + if o = r then 1 else 0 := by
  simp [paid, Atom.reservation?, List.count_cons]

theorem owed_append : owed r (xs ++ ys) = owed r xs + owed r ys := by simp [owed]

theorem paid_append : paid r (xs ++ ys) = paid r xs + paid r ys := by simp [paid]

theorem Covered.perm (h : Covered xs) (hp : xs.Perm ys) : Covered ys := by
  intro r
  have howed : owed r xs = owed r ys := ((hp.filterMap _).map _).count_eq r
  have hpaid : paid r xs = paid r ys := (hp.filterMap _).count_eq r
  rw [← howed, ← hpaid]
  exact h r

theorem covered_nil : Covered [] := fun _ => le_rfl

theorem Covered.append (h : Covered xs) (h' : Covered ys) : Covered (xs ++ ys) := by
  intro r
  rw [owed_append, paid_append]
  exact Nat.add_le_add (h r) (h' r)

theorem Covered.charge (h : Covered xs) (o : Reservation) : Covered (.reservation o :: xs) := by
  intro r
  rw [owed_reservation, paid_reservation]
  exact (h r).trans (Nat.le_add_right _ _)

theorem Covered.buffer (h : Covered xs) : Covered (.storage s :: .reservation s.price :: xs) := by
  intro r
  rw [owed_storage, owed_reservation, paid_storage, paid_reservation]
  exact Nat.add_le_add_right (h r) _

theorem Orderly.covered (h : Orderly xs) : Covered xs := h xs List.suffix_rfl

theorem Orderly.suffix (h : Orderly xs) (hs : ys <:+ xs) : Orderly ys :=
  fun zs hz => h zs (hz.trans hs)

theorem orderly_nil : Orderly [] := by
  intro ys hs
  obtain rfl := List.suffix_nil.mp hs
  exact covered_nil

theorem orderly_cons {x : Atom} (h : Orderly xs) (hx : Covered (x :: xs)) : Orderly (x :: xs) := by
  intro ys hs
  rcases List.suffix_cons_iff.mp hs with rfl | hs
  · exact hx
  · exact h ys hs

theorem Orderly.charge (h : Orderly xs) (o : Reservation) : Orderly (.reservation o :: xs) :=
  orderly_cons h (h.covered.charge o)

/-- A buffer is dropped in the order of its fields. -/
theorem Orderly.buffer (h : Orderly xs) (ho : o = s.price) :
    Orderly (.storage s :: .reservation o :: xs) := by
  subst ho
  exact orderly_cons (h.charge _) h.covered.buffer

/-- A tensor that is newer than the operation and the charge of its upload. -/
theorem Orderly.upload (h : Orderly xs) {p : Reservation} (hp : p = s.price) :
    Orderly (.storage s :: .reservation o :: .reservation p :: xs) := by
  subst hp
  refine orderly_cons ((h.charge _).charge _) ?_
  exact (h.covered.buffer.charge o).perm (List.Perm.swap ..)

end Covered

/-- A failure of this effect drops a destructured buffer, whose reservation is newer than its
tensor. -/
def Request.fragile : Request P α → Effect α → Bool
  | .observe _, .operation .. | .observe _, .bind _ | .intoHost _, .bind _ => true
  | _, _ => false

/-- Between any two moves the resources are covered; whatever a task may unwind is orderly, but
where `fragile` excludes the failure. -/
def dropSpec (fragile : Effect α → Bool) : (e : Effect α) → Frames Name Atom → Unit →
    (e.Rep → Frames Name Atom → Unit → Prop) → Prop
  | .buffer x s bytes, fs, g, post => (∀ e, post (.error e) fs g) ∧
    post (.ok ⟨s, bytes, true⟩) (Frames.push [(x, .reservation ⟨s, bytes, true⟩)] fs) g
  | .operation x s, fs, g, post => (fragile (.operation x s) = false → ∀ e, post (.error e) fs g) ∧
    post (.ok ⟨s, 0, false⟩) (Frames.push [(x, .reservation ⟨s, 0, false⟩)] fs) g
  | .bind s, fs, g, post =>
    (fragile (.bind s) = false → Orderly fs.resources ∧ ∀ e, post (.error e) fs g) ∧
    post (.ok ()) fs g
  | .attempt, fs, g, post => Orderly fs.resources ∧ ∀ r, post r fs g
  | .upload x session data, fs, g, post => Orderly fs.resources ∧ (∀ e, post (.error e) fs g) ∧
    ∀ s : Storage, s.session = session.id → s.len = data.length →
      post (.ok s) (Frames.push [(x, .storage s)] fs) g
  | .completions, fs, g, post => ∀ f, post f fs g
  | .setCompletion .., fs, g, post => post () fs g
  | .execute .., fs, g, post => Orderly fs.resources ∧ ∀ r, post r fs g
  | .copy .., fs, g, post => Orderly fs.resources ∧ ∀ r, post r fs g
  | .lazy, fs, g, post => Orderly fs.resources ∧ post () fs g
  | .panic, _, _, _ => True

def dropLogic (fragile : Effect α → Bool) : Logic (Effect.Rep (α := α)) Name Atom Unit where
  inv fs _ := Covered fs.resources
  spec := dropSpec fragile
  mono := by
    intro e fs g p q hpq h
    cases e with
    | buffer => exact ⟨fun e => hpq _ _ _ (h.1 e), hpq _ _ _ h.2⟩
    | operation => exact ⟨fun hf e => hpq _ _ _ (h.1 hf e), hpq _ _ _ h.2⟩
    | bind =>
      exact ⟨fun hf => ⟨(h.1 hf).1, fun e => hpq _ _ _ ((h.1 hf).2 e)⟩, hpq _ _ _ h.2⟩
    | attempt | execute | copy => exact ⟨h.1, fun r => hpq _ _ _ (h.2 r)⟩
    | upload =>
      exact ⟨h.1, fun e => hpq _ _ _ (h.2.1 e), fun s hs hl => hpq _ _ _ (h.2.2 s hs hl)⟩
    | completions => exact fun f => hpq _ _ _ (h f)
    | setCompletion => exact hpq _ _ _ h
    | «lazy» => exact ⟨h.1, hpq _ _ _ h.2⟩
    | panic => trivial

/-! ### The primitive operations -/

section Primitives

variable {fragile : Effect α → Bool} {f : Frame Name Atom} {fs rest : Frames Name Atom}
  {session : Session} {X : Error → Frames Name Atom → Unit → Prop}

theorem Orderly.scope {ys : Frame Name Atom} (h : Orderly (Frames.resources (f :: rest)))
    (hs : ys <:+ f) : Orderly (Frames.resources (ys :: rest)) := by
  rw [resources_cons] at h ⊢
  obtain ⟨zs, rfl⟩ := hs
  rw [List.map_append, List.append_assoc] at h
  exact h.suffix (List.suffix_append ..)

theorem Orderly.tail (h : Orderly fs.resources) : Orderly (Frames.resources fs.tail) := by
  cases fs with
  | nil => exact h
  | cons f fs => exact h.scope (List.nil_suffix (l := f))

theorem Orderly.unwind {d : Option Atom} {fs' : Frames Name Atom} (h : Orderly fs.resources)
    (hfs : fs.unwind = some (d, fs')) : Orderly fs'.resources := by
  match fs with
  | [] => cases hfs
  | [] :: fs =>
    cases hfs
    exact h
  | (x :: f) :: fs =>
    cases hfs
    exact h.scope (List.suffix_cons x f)

/-- An orderly scope may be dropped. -/
theorem Orderly.dropAll (h : Orderly fs.resources) : (dropLogic fragile).dropAll fs () := by
  refine ⟨fun ys hs => ?_, h.tail.covered⟩
  cases fs with
  | nil =>
    obtain rfl := List.suffix_nil.mp hs
    exact covered_nil
  | cons f fs => exact (h.scope hs).covered

theorem Covered.push {x : Name} {a : Atom} (h : Covered (a :: fs.resources)) :
    Covered (Frames.push [(x, a)] fs).resources := h.perm (push_perm [(x, a)] fs).symm

theorem drop_buffer {x : Name} {bytes : ℕ} {Q : Reservation → Frames Name Atom → Unit → Prop}
    (h : Covered fs.resources) (hX : ∀ e, X e fs ())
    (hQ : Q ⟨session.id, bytes, true⟩
      (Frames.push [(x, .reservation ⟨session.id, bytes, true⟩)] fs) ()) :
    (dropLogic fragile).wpx (Op.buffer x session bytes) Q X fs () :=
  ⟨fun e => ⟨h, hX e⟩, (h.charge _).push, hQ⟩

theorem drop_operation {x : Name} {Q : Reservation → Frames Name Atom → Unit → Prop}
    (h : Covered fs.resources)
    (hX : fragile (.operation x session.id) = false → ∀ e, X e fs ())
    (hQ : Q ⟨session.id, 0, false⟩
      (Frames.push [(x, .reservation ⟨session.id, 0, false⟩)] fs) ()) :
    (dropLogic fragile).wpx (Op.operation x session) Q X fs () :=
  ⟨fun hf e => ⟨h, hX hf e⟩, (h.charge _).push, hQ⟩

theorem drop_bind {Q : Unit → Frames Name Atom → Unit → Prop} (h : Covered fs.resources)
    (hX : fragile (.bind session.id) = false → Orderly fs.resources ∧ ∀ e, X e fs ())
    (hQ : Q () fs ()) : (dropLogic fragile).wpx (Op.bindDevice session) Q X fs () :=
  ⟨fun hf => ⟨(hX hf).1, fun _ => ⟨h, (hX hf).2 _⟩⟩, h, hQ⟩

theorem drop_attempt {Q : Unit → Frames Name Atom → Unit → Prop} (h : Orderly fs.resources)
    (hX : ∀ e, X e fs ()) (hQ : Q () fs ()) :
    (dropLogic fragile).wpx (Op.attempt (α := α)) Q X fs () := by
  refine ⟨h, ?_⟩
  rintro (e | _)
  · exact ⟨h.covered, hX e⟩
  · exact ⟨h.covered, hQ⟩

theorem drop_upload {label : String} {x : Name} {data : List α}
    {Q : Storage → Frames Name Atom → Unit → Prop} (h : Orderly fs.resources)
    (hX : ∀ e, X e fs ())
    (hQ : ∀ s : Storage, s.session = session.id → s.len = data.length →
      Covered (.storage s :: fs.resources) ∧ Q s (Frames.push [(x, .storage s)] fs) ()) :
    (dropLogic fragile).wpx (Op.upload label x session data) Q X fs () := by
  refine ⟨h, fun _ => ⟨h.covered, hX _⟩, fun s hs hl => ?_⟩
  obtain ⟨hcovered, hQ⟩ := hQ s hs hl
  exact ⟨hcovered.push, hQ⟩

theorem drop_execute {label : String} {l : Launch α} {Q : Unit → Frames Name Atom → Unit → Prop}
    (h : Orderly fs.resources) (hX : ∀ e, X e fs ()) (hQ : Q () fs ()) :
    (dropLogic fragile).wpx (Op.execute label session l) Q X fs () := by
  refine ⟨h, ?_⟩
  rintro (e | _)
  · exact ⟨h.covered, hX _⟩
  · exact ⟨h.covered, hQ⟩

theorem drop_copy {s : Storage} {Q : Except String (List α) → Frames Name Atom → Unit → Prop}
    (h : Orderly fs.resources) (hQ : ∀ r, Q r fs ()) :
    (dropLogic fragile).wpx (Op.copy session s) Q X fs () :=
  ⟨h, fun r => ⟨h.covered, hQ r⟩⟩

theorem drop_lazy {Q : Unit → Frames Name Atom → Unit → Prop} (h : Orderly fs.resources)
    (hQ : Q () fs ()) : (dropLogic fragile).wpx (Op.lazy (α := α)) Q X fs () :=
  ⟨h, h.covered, hQ⟩

theorem drop_completions {Q : (ℕ → Bool) → Frames Name Atom → Unit → Prop}
    (h : Covered fs.resources) (hQ : ∀ r, Q r fs ()) :
    (dropLogic fragile).wpx (Op.completions (α := α)) Q X fs () :=
  fun r => ⟨h, hQ r⟩

theorem drop_setCompletion {id : ℕ} {uncertain : Bool} {Q : Unit → Frames Name Atom → Unit → Prop}
    (h : Covered fs.resources) (hQ : Q () fs ()) :
    (dropLogic fragile).wpx (Op.setCompletion (α := α) id uncertain) Q X fs () :=
  ⟨h, hQ⟩

theorem drop_checked {β : Type} {o : Option β} {Q : β → Frames Name Atom → Unit → Prop}
    (hQ : ∀ b, o = some b → Q b fs ()) :
    (dropLogic fragile).wpx (Op.checked (α := α) o) Q X fs () := by
  cases o with
  | none => trivial
  | some b => exact hQ b rfl

theorem drop_ofFallible {β : Type} {o : Fallible β} {Q : β → Frames Name Atom → Unit → Prop}
    (hX : ∀ e, X e fs ()) (hQ : ∀ b, Q b fs ()) :
    (dropLogic fragile).wpx (Op.ofFallible (α := α) o) Q X fs () := by
  match o with
  | none => trivial
  | some (.error e) => exact hX e
  | some (.ok b) => exact hQ b

/-- A call whose scope is orderly at each of its ends. -/
theorem drop_scope {β : Type} {params kept : List (Name × Name)} {m : Op α β}
    {Q : β → Frames Name Atom → Unit → Prop} (h : Covered fs.resources)
    (hm : (dropLogic fragile).wpx m
      (fun b fs _ => Covered fs.resources ∧ Orderly (Frames.resources (fs.yield kept)) ∧
        Q b (fs.yield kept).tail ())
      (fun e fs _ => Orderly fs.resources ∧ X e fs.tail ()) (fs.enter params) ()) :
    (dropLogic fragile).wpx (scope params kept m) Q X fs () := by
  refine Logic.wpx_scope.mpr ⟨h.perm (enter_perm _ _).symm, Logic.wpx_mono ?_ ?_ hm⟩
  · intro b fs _ hb
    exact ⟨hb.1.perm (yield_perm _ _).symm, hb.2.1.dropAll, hb.2.2⟩
  · intro e fs _ he
    exact ⟨he.1.dropAll, he.2⟩

end Primitives

/-! ### The calls -/

section Calls

variable {fragile : Effect α → Bool} {f : Frame Name Atom} {fs rest : Frames Name Atom}
  {session : Session} {shape : Shape2D P} {data : List α} {extent : ℕ × ℕ}
  {X : Error → Frames Name Atom → Unit → Prop}

/-- The charge of a buffer is the price of its storage. -/
def Buffer.Priced (b : Buffer P) : Prop := b.reservation = b.tensor.storage.price

theorem reshape_storage {t t' : Tensor} {sizes : List ℕ} (h : t.reshape sizes = .ok t') :
    t'.storage = t.storage := by
  rw [Tensor.reshape] at h
  split at h
  · cases h
  · split at h
    · cases h
    · cases h
      rfl

theorem drop_uploadReserved {r : Reservation} {x y : Var}
    {Q : Buffer P → Frames Name Atom → Unit → Prop} (h : Orderly (Frames.resources (f :: rest)))
    (hr : r = ⟨session.id, data.length * sizeOfF32, true⟩)
    (hparams : fs.enter [(.charge x, .charge .reservation)] =
      [(.charge .reservation, .reservation r)] :: f :: rest)
    (hX : ∀ e, X e (f :: rest) ())
    (hQ : ∀ b : Buffer P, b.Priced → Q b ((b.entries y ++ f) :: rest) ()) :
    (dropLogic fragile).wpx (Gpu.uploadReserved session shape data extent r x y) Q X fs () := by
  have hinner := h.charge r
  have hcovered : Covered fs.resources := by
    have hperm := enter_perm [(Name.charge x, Name.charge .reservation)] fs
    rw [hparams] at hperm
    exact hinner.covered.perm hperm
  have houter := hinner.charge ⟨session.id, 0, false⟩
  refine drop_scope hcovered ?_
  rw [hparams, Logic.wpx_bind]
  refine drop_operation hinner.covered (fun _ e => ⟨hinner, hX e⟩) ?_
  rw [Logic.wpx_bind]
  refine drop_bind houter.covered (fun _ => ⟨houter, fun e => ⟨houter, hX e⟩⟩) ?_
  rw [Logic.wpx_bind]
  refine drop_upload houter (fun e => ⟨houter, hX e⟩) fun s hs hl => ?_
  have hprice : r = s.price := by rw [hr, Storage.price, hs, hl]
  have hnew : Orderly (.storage s :: .reservation ⟨session.id, 0, false⟩ :: .reservation r ::
      Frames.resources (f :: rest)) := h.upload hprice
  refine ⟨hnew.covered, ?_⟩
  rw [Logic.wpx_bind]
  refine drop_attempt hnew (fun e => ⟨hnew, hX e⟩) ?_
  rw [Logic.wpx_bind, wpx_ofExcept]
  refine ⟨fun tensor htensor => ?_, fun e _ => ⟨hnew, hX e⟩⟩
  have hstorage : tensor.storage = s := by
    cases hshape : (Tensor.uploaded s).reshape [extent.1, extent.2] with
    | error e =>
      rw [hshape] at htensor
      cases htensor
    | ok t =>
      rw [hshape] at htensor
      cases htensor
      exact reshape_storage hshape
  subst hstorage
  exact ⟨hnew.covered, (h.buffer hprice).charge ⟨session.id, 0, false⟩,
    hQ ⟨tensor, shape, session, r⟩ hprice⟩

theorem eq_of_checkedMul {a b c : ℕ} (h : P.checkedMul a b = some c) : c = a * b := by
  rw [Platform.checkedMul] at h
  split at h
  · exact (Option.some.inj h).symm
  · cases h

theorem drop_uploadBuffer {y : Var} {Q : Buffer P → Frames Name Atom → Unit → Prop}
    (h : Orderly (Frames.resources (f :: rest))) (hX : ∀ e, X e (f :: rest) ())
    (hQ : ∀ b : Buffer P, b.Priced → Q b ((b.entries y ++ f) :: rest) ()) :
    (dropLogic fragile).wpx (Gpu.upload session shape data extent y) Q X (f :: rest) () := by
  refine drop_scope h.covered ?_
  rw [Logic.wpx_bind]
  refine drop_checked fun bytes hbytes => ?_
  have hbytes := eq_of_checkedMul hbytes
  have hinner : Orderly (Frames.resources ([] :: f :: rest)) := h
  rw [Logic.wpx_bind]
  refine drop_buffer h.covered (fun e => ⟨h, hX e⟩) ?_
  refine drop_uploadReserved hinner (by rw [hbytes]) rfl (fun e => ⟨h, hX e⟩) fun b hb => ?_
  exact ⟨(h.buffer hb).covered, h.buffer hb, hQ b hb⟩

theorem drop_uploadHalo {Q : HaloGrid2D P → Frames Name Atom → Unit → Prop}
    (h : Orderly (Frames.resources (f :: rest))) (hX : ∀ e, X e (f :: rest) ())
    (hQ : ∀ b : Buffer P, b.Priced → Q ⟨b⟩ ((b.entries .source ++ f) :: rest) ()) :
    (dropLogic fragile).wpx (Gpu.uploadHalo session shape data) Q X (f :: rest) () := by
  rw [Gpu.uploadHalo, Logic.wpx_bind, wpx_ofExcept]
  refine ⟨fun _ _ => ?_, fun e _ => hX e⟩
  rw [Logic.wpx_bind]
  exact drop_uploadBuffer h hX hQ

theorem drop_uploadField {Q : Field2D P → Frames Name Atom → Unit → Prop}
    (h : Orderly (Frames.resources (f :: rest))) (hX : ∀ e, X e (f :: rest) ())
    (hQ : ∀ b : Buffer P, b.Priced → Q ⟨b⟩ ((b.entries .rhs ++ f) :: rest) ()) :
    (dropLogic fragile).wpx (Gpu.uploadField session shape data) Q X (f :: rest) () := by
  rw [Gpu.uploadField, Logic.wpx_bind, wpx_ofExcept]
  refine ⟨fun _ _ => ?_, fun e _ => hX e⟩
  rw [Logic.wpx_bind]
  exact drop_uploadBuffer h hX hQ

theorem drop_zeros [Scalar α] {y : Var} {Q : Field2D P → Frames Name Atom → Unit → Prop}
    (h : Orderly (Frames.resources (f :: rest))) (hX : ∀ e, X e (f :: rest) ())
    (hQ : ∀ b : Buffer P, b.Priced → Q ⟨b⟩ ((b.entries y ++ f) :: rest) ()) :
    (dropLogic fragile).wpx (Gpu.zeros session shape y) Q X (f :: rest) () := by
  have hinner : Orderly (Frames.resources ([] :: f :: rest)) := h
  refine drop_scope h.covered ?_
  rw [Logic.wpx_bind]
  refine drop_buffer h.covered (fun e => ⟨h, hX e⟩) ?_
  rw [Logic.wpx_bind]
  refine drop_uploadReserved hinner ?_ rfl (fun e => ⟨h, hX e⟩) fun b hb => ?_
  · rw [shape.interiorBytes_eq, List.length_replicate]
  · exact ⟨(h.buffer hb).covered, h.buffer hb, hQ b hb⟩

theorem drop_views {source : HaloGrid2D P} {Q : ReadViews → Frames Name Atom → Unit → Prop}
    (h : Orderly fs.resources) (hX : ∀ e, X e fs ()) (hQ : ∀ v, Q v fs ()) :
    (dropLogic fragile).wpx (Gpu.views source) Q X fs () := by
  rw [Gpu.views, Logic.wpx_bind]
  exact drop_attempt h hX (drop_ofFallible hX hQ)

theorem drop_run {id : ℕ} {label : String} {l : Launch α}
    {Q : Unit → Frames Name Atom → Unit → Prop} (h : Orderly fs.resources)
    (hX : ∀ e, X e fs ()) (hQ : Q () fs ()) : (dropLogic fragile).wpx
      (Completion.run id (Op.execute label session l)) Q X fs () := by
  rw [Completion.run, Logic.wpx_bind]
  refine drop_setCompletion h.covered ?_
  rw [Logic.wpx_bind]
  exact drop_execute h hX (drop_setCompletion h.covered hQ)

/-- The code that `step_into` and `laplacian_into` share. -/
theorem drop_launchInto {source : HaloGrid2D P} (rhs : Option (Field2D P)) {output : Field2D P}
    {label : String} {launch : ReadViews → Launch α} {Q : Unit → Frames Name Atom → Unit → Prop}
    (h : Orderly (Frames.resources (f :: rest))) (hX : ∀ e, X e (f :: rest) ())
    (hQ : Q () (f :: rest) ()) : (dropLogic fragile).wpx (scope [] [] do
      let uncertain ← Op.completions
      Op.ofExcept (validateFields uncertain session source rhs (some output))
      let _ ← Op.operation (.charge .operation) session
      Op.bindDevice session
      let views ← Gpu.views source
      Completion.run output.storage.tensor.storage.id do
        Op.execute label session (launch views)) Q X (f :: rest) () := by
  have hinner := h.charge ⟨session.id, 0, false⟩
  refine drop_scope h.covered ?_
  rw [Logic.wpx_bind]
  refine drop_completions h.covered fun uncertain => ?_
  rw [Logic.wpx_bind, wpx_ofExcept]
  refine ⟨fun _ _ => ?_, fun e _ => ⟨h, hX e⟩⟩
  rw [Logic.wpx_bind]
  refine drop_operation h.covered (fun _ e => ⟨h, hX e⟩) ?_
  rw [Logic.wpx_bind]
  refine drop_bind hinner.covered (fun _ => ⟨hinner, fun e => ⟨hinner, hX e⟩⟩) ?_
  rw [Logic.wpx_bind]
  refine drop_views hinner (fun e => ⟨hinner, hX e⟩) fun views => ?_
  refine drop_run hinner (fun e => ⟨hinner, hX e⟩) ?_
  exact ⟨hinner.covered, hinner, hQ⟩

theorem drop_step [Scalar α] {source : HaloGrid2D P} {rhs : Field2D P} {params : JacobiParams α}
    {Q : Field2D P → Frames Name Atom → Unit → Prop} (h : Orderly (Frames.resources (f :: rest)))
    (hX : ∀ e, X e (f :: rest) ())
    (hQ : ∀ b : Buffer P, b.Priced → Q ⟨b⟩ ((b.entries .output ++ f) :: rest) ()) :
    (dropLogic fragile).wpx (Gpu.step session source rhs params) Q X (f :: rest) () := by
  refine drop_scope h.covered ?_
  rw [Logic.wpx_bind]
  refine drop_completions h.covered fun uncertain => ?_
  rw [Logic.wpx_bind, wpx_ofExcept]
  refine ⟨fun _ _ => ?_, fun e _ => ⟨h, hX e⟩⟩
  rw [Logic.wpx_bind]
  refine drop_zeros h (fun e => ⟨h, hX e⟩) fun b hb => ?_
  have hnew := h.buffer hb
  rw [Logic.wpx_bind]
  refine drop_launchInto (some rhs) hnew (fun e => ⟨hnew, hX e⟩) ?_
  exact ⟨hnew.covered, hnew, hQ b hb⟩

theorem drop_stepIntoAsync {source : HaloGrid2D P} {rhs output : Field2D P}
    {params : JacobiParams α} {Q : StepBuffers P → Frames Name Atom → Unit → Prop}
    (hsource : source.storage.Priced) (hrhs : rhs.storage.Priced) (houtput : output.storage.Priced)
    (hX : ∀ e fs, X e fs ()) (hQ : ∀ b fs, Q b fs ()) :
    (dropLogic fragile).wpx (Gpu.stepIntoAsync session source rhs output params) Q X
      [Gpu.stepEntries source rhs output] () := by
  have hentries : Orderly (Frames.resources [Gpu.stepEntries source rhs output]) :=
    ((orderly_nil.buffer houtput).buffer hrhs).buffer hsource
  have hmoved : Orderly (Frames.resources (Frames.enter (moveBuffer .output .output ++
      moveBuffer .rhs .rhs ++ moveBuffer .source .source) [Gpu.stepEntries source rhs output])) :=
    ((orderly_nil.buffer hsource).buffer hrhs).buffer houtput
  have hframe : Orderly (Frames.resources [Gpu.stepFrame session source rhs output]) :=
    (((orderly_nil.buffer hrhs).buffer houtput).buffer hsource).charge _
  rw [Gpu.stepIntoAsync, Logic.wpx_bind]
  refine drop_scope hentries.covered ?_
  rw [Logic.wpx_bind]
  refine drop_completions hmoved.covered fun uncertain => ?_
  rw [Logic.wpx_bind, wpx_ofExcept]
  refine ⟨fun _ _ => ?_, fun e _ => ⟨hmoved, hX e _⟩⟩
  refine drop_operation hmoved.covered (fun _ e => ⟨hmoved, hX e _⟩) ?_
  refine ⟨(hmoved.covered.charge _).push, ?_⟩
  rw [stepFrame_yield, List.tail_cons, Logic.wpx_bind]
  refine ⟨hframe, drop_lazy hframe ?_⟩
  refine drop_scope hframe.covered ?_
  rw [Logic.wpx_bind, Logic.wpx_rebind, stepFrame_enter]
  have hinner : Orderly (Frames.resources [Gpu.stepFrame session source rhs output, []]) := hframe
  refine ⟨hinner.covered, ?_⟩
  rw [Logic.wpx_bind]
  refine drop_bind hinner.covered (fun _ => ⟨hinner, fun e => ⟨hinner, hX e _⟩⟩) ?_
  rw [Logic.wpx_bind]
  refine drop_views hinner (fun e => ⟨hinner, hX e _⟩) fun views => ?_
  rw [Logic.wpx_bind]
  refine drop_execute hinner (fun e => ⟨hinner, hX e _⟩) ?_
  rw [Logic.wpx_pure, stepFrame_return]
  exact ⟨hinner.covered, hentries.charge _, hQ _ _⟩

theorem drop_doubleGrid {initial rhs : List α} {Q : DoubleGrid P → Frames Name Atom → Unit → Prop}
    (h : Orderly (Frames.resources (f :: rest))) (hX : ∀ e, X e (f :: rest) ())
    (hQ : ∀ g fs, Q g fs ()) :
    (dropLogic fragile).wpx (Gpu.doubleGrid session shape initial rhs) Q X (f :: rest) () := by
  have hinner : Orderly (Frames.resources ([] :: f :: rest)) := h
  refine drop_scope h.covered ?_
  rw [Logic.wpx_bind, wpx_ofExcept]
  refine ⟨fun _ hinitial => ?_, fun e _ => ⟨h, hX e⟩⟩
  rw [Logic.wpx_bind, wpx_ofExcept]
  refine ⟨fun _ hrhs => ?_, fun e _ => ⟨h, hX e⟩⟩
  rw [Logic.wpx_bind, wpx_ofExcept]
  refine ⟨fun _ _ => ?_, fun e _ => ⟨h, hX e⟩⟩
  have hinitial := checkLen_eq_ok.mp hinitial
  have hrhs := checkLen_eq_ok.mp hrhs
  rw [Logic.wpx_bind]
  refine drop_checked fun bytes hbytes => ?_
  have hbytes := eq_of_checkedMul hbytes
  rw [Logic.wpx_bind]
  refine drop_buffer h.covered (fun e => ⟨h, hX e⟩) ?_
  have hfirst := h.charge ⟨session.id, bytes, true⟩
  rw [Logic.wpx_bind]
  refine drop_checked fun bytes' hbytes' => ?_
  have hbytes' := eq_of_checkedMul hbytes'
  rw [Logic.wpx_bind]
  refine drop_buffer hfirst.covered (fun e => ⟨hfirst, hX e⟩) ?_
  have hsecond := hfirst.charge ⟨session.id, bytes', true⟩
  rw [Logic.wpx_bind]
  refine drop_buffer hsecond.covered (fun e => ⟨hsecond, hX e⟩) ?_
  -- Each upload takes its reservation out of the frame and leaves a buffer.
  have hforcing := h.charge ⟨session.id, shape.interiorBytes, true⟩
  have hpair := (h.charge ⟨session.id, bytes', true⟩).charge ⟨session.id, shape.interiorBytes, true⟩
  rw [Logic.wpx_bind]
  refine drop_uploadReserved (f := [(.charge .forcing, .reservation ⟨_, _, true⟩),
    (.charge .second, .reservation ⟨_, _, true⟩)]) hpair (by rw [hbytes, hinitial]) rfl
    (fun e => ⟨hpair, hX e⟩) fun current hcurrent => ?_
  have hcurrent' := hforcing.buffer hcurrent
  rw [Logic.wpx_bind]
  refine drop_uploadReserved (f := [(.tensor .current, .storage current.tensor.storage),
    (.charge .current, .reservation current.reservation),
    (.charge .forcing, .reservation ⟨_, _, true⟩)]) hcurrent' (by rw [hbytes', hinitial]) rfl
    (fun e => ⟨hcurrent', hX e⟩) fun next hnext => ?_
  have hnext' := (h.buffer hcurrent).buffer hnext
  rw [Logic.wpx_bind]
  refine drop_uploadReserved (f := [(.tensor .next, .storage next.tensor.storage),
    (.charge .next, .reservation next.reservation),
    (.tensor .current, .storage current.tensor.storage),
    (.charge .current, .reservation current.reservation)]) hnext'
    (by rw [shape.interiorBytes_eq, hrhs]) rfl (fun e => ⟨hnext', hX e⟩) fun forcing hf => ?_
  exact ⟨(hnext'.buffer hf).covered, ((h.buffer hf).buffer hnext).buffer hcurrent, hQ _ _⟩

section Grids

variable {self : DoubleGrid P} {params : JacobiParams α} {count : ℕ} {r : Reservation}

def DoubleGrid.Priced (self : DoubleGrid P) : Prop := ∀ b ∈ self.buffers, b.Priced

theorem DoubleGrid.Priced.swapped (h : self.Priced) : self.swapped.Priced := by
  intro b hb
  refine h b ?_
  rw [mem_grid_buffers] at hb ⊢
  rcases hb with rfl | rfl | rfl
  · exact .inr (.inl rfl)
  · exact .inl rfl
  · exact .inr (.inr rfl)

theorem orderly_entries (h : self.Priced) (hrest : Orderly rest.resources) :
    Orderly (Frames.resources (self.entries :: rest)) := by
  have hcurrent := h _ (mem_grid_buffers.mpr (.inl rfl))
  have hnext := h _ (mem_grid_buffers.mpr (.inr (.inl rfl)))
  have hrhs := h _ (mem_grid_buffers.mpr (.inr (.inr rfl)))
  exact ((hrest.buffer hrhs).buffer hnext).buffer hcurrent

theorem orderly_gridFrame (h : self.Priced) (hrest : Orderly rest.resources) :
    Orderly (Frames.resources (gridFrame r self :: rest)) := (orderly_entries h hrest).charge r

/-- One round of a loop: the launch, then the swap. -/
theorem drop_round {label : String} {β : Type} {next : DoubleGrid P → Op α β}
    {Q : β → Frames Name Atom → Unit → Prop} (h : self.Priced) (hrest : Orderly rest.resources)
    (hX : ∀ (grid : DoubleGrid P) e, grid.Priced → X e (gridFrame r grid :: rest) ())
    (hnext : ∀ grid : DoubleGrid P, grid.Priced →
      (dropLogic fragile).wpx (next grid) Q X (gridFrame r grid :: rest) ()) :
    (dropLogic fragile).wpx (do
      Op.execute label session (self.operation params)
      let self ← self.swapCompleted
      next self) Q X (gridFrame r self :: rest) () := by
  rw [Logic.wpx_bind]
  refine drop_execute (orderly_gridFrame h hrest) (fun e => hX self e h) ?_
  rw [Logic.wpx_bind, DoubleGrid.swapCompleted, Logic.wpx_bind, Logic.wpx_rebind, gridFrame_swap]
  refine ⟨(orderly_gridFrame h.swapped hrest).covered, ?_⟩
  rw [Logic.wpx_bind]
  refine drop_checked fun completed _ => ?_
  have hpriced : DoubleGrid.Priced ⟨self.next, self.current, self.rhs, completed⟩ := h.swapped
  exact hnext _ hpriced

theorem drop_steps {Q : DoubleGrid P → Frames Name Atom → Unit → Prop} (h : self.Priced)
    (hrest : Orderly rest.resources)
    (hX : ∀ (grid : DoubleGrid P) e, grid.Priced → X e (gridFrame r grid :: rest) ())
    (hQ : ∀ grid : DoubleGrid P, grid.Priced → Q grid (gridFrame r grid :: rest) ()) :
    (dropLogic fragile).wpx (DoubleGrid.steps session params count self) Q X
      (gridFrame r self :: rest) () := by
  induction count generalizing self with
  | zero => exact hQ self h
  | succ n ih => exact drop_round h hrest hX fun grid hgrid => ih hgrid

theorem drop_stepsAsync {Q : DoubleGrid P → Frames Name Atom → Unit → Prop} (h : self.Priced)
    (hrest : Orderly rest.resources)
    (hX : ∀ (grid : DoubleGrid P) e, grid.Priced → X e (gridFrame r grid :: rest) ())
    (hQ : ∀ grid : DoubleGrid P, grid.Priced → Q grid (gridFrame r grid :: rest) ()) :
    (dropLogic fragile).wpx (DoubleGrid.stepsAsync session params count self) Q X
      (gridFrame r self :: rest) () := by
  induction count generalizing self with
  | zero => exact hQ self h
  | succ n ih =>
    have hframe := orderly_gridFrame (r := r) h hrest
    rw [DoubleGrid.stepsAsync, Logic.wpx_bind]
    refine drop_bind hframe.covered (fun _ => ⟨hframe, fun e => hX self e h⟩) ?_
    exact drop_round h hrest hX fun grid hgrid => ih hgrid

omit P in
theorem orderly_closed : Orderly (Frames.resources ([] : Frames Name Atom)) := orderly_nil

theorem drop_advance {Q : DoubleGrid P → Frames Name Atom → Unit → Prop} (h : self.Priced)
    (hX : ∀ e fs, X e fs ()) (hQ : ∀ g fs, Q g fs ()) :
    (dropLogic fragile).wpx (self.advance count params) Q X [self.entries] () := by
  have hentries : Orderly (Frames.resources [self.entries, []]) := orderly_entries h orderly_closed
  have hframe : ∀ grid : DoubleGrid P, grid.Priced → Orderly (Frames.resources
      [gridFrame ⟨self.current.storage.session.id, 0, false⟩ grid, []]) :=
    fun _ hgrid => orderly_gridFrame hgrid orderly_closed
  refine drop_scope hentries.covered ?_
  rw [grid_enter, Logic.wpx_bind, wpx_ofExcept]
  refine ⟨fun _ _ => ?_, fun e _ => ⟨hentries, hX e _⟩⟩
  rw [Logic.wpx_bind]
  refine drop_operation hentries.covered (fun _ e => ⟨hentries, hX e _⟩) ?_
  rw [Logic.wpx_bind]
  refine drop_bind (hframe self h).covered
    (fun _ => ⟨hframe self h, fun e => ⟨hframe self h, hX e _⟩⟩) ?_
  refine drop_steps h orderly_closed (fun grid e hgrid => ⟨hframe grid hgrid, hX e _⟩)
    fun grid hgrid => ?_
  rw [gridFrame_yield, List.append_nil]
  exact ⟨(hframe grid hgrid).covered, (orderly_entries hgrid orderly_closed).charge _, hQ _ _⟩

theorem drop_advanceAsync {Q : DoubleGrid P → Frames Name Atom → Unit → Prop} (h : self.Priced)
    (hX : ∀ e fs, X e fs ()) (hQ : ∀ g fs, Q g fs ()) :
    (dropLogic fragile).wpx (self.advanceAsync count params) Q X [self.entries] () := by
  have hentries : Orderly (Frames.resources [self.entries, []]) := orderly_entries h orderly_closed
  have hframe : ∀ grid : DoubleGrid P, grid.Priced → Orderly (Frames.resources
      [gridFrame ⟨self.current.storage.session.id, 0, false⟩ grid, []]) :=
    fun _ hgrid => orderly_gridFrame hgrid orderly_closed
  have hheld : Orderly (Frames.resources
      [gridFrame ⟨self.current.storage.session.id, 0, false⟩ self]) := hframe self h
  rw [DoubleGrid.advanceAsync, Logic.wpx_bind]
  refine drop_scope hentries.covered ?_
  rw [Logic.wpx_bind, wpx_ofExcept]
  have hmoved : Orderly (Frames.resources (Frames.enter moveGrid [self.entries])) := by
    rw [grid_enter]
    exact hentries
  refine ⟨fun _ _ => ?_, fun e _ => ⟨hmoved, hX e _⟩⟩
  refine drop_operation hmoved.covered (fun _ e => ⟨hmoved, hX e _⟩) ?_
  refine ⟨(hmoved.covered.charge _).push, ?_⟩
  rw [gridFrame_hold, List.tail_cons, Logic.wpx_bind]
  refine ⟨hheld, drop_lazy hheld ?_⟩
  refine drop_scope hheld.covered ?_
  rw [gridFrame_enter, Logic.wpx_bind, Logic.wpx_rebind, gridFrame_own]
  refine ⟨(hframe self h).covered, ?_⟩
  refine drop_stepsAsync h orderly_closed (fun grid e hgrid => ⟨hframe grid hgrid, hX e _⟩)
    fun grid hgrid => ?_
  rw [gridFrame_yield, List.append_nil]
  exact ⟨(hframe grid hgrid).covered, (orderly_entries hgrid orderly_closed).charge _, hQ _ _⟩

/-- Until the tensor is retained, an early return of `observe` drops the reservation first. -/
theorem drop_observe {Q : DoubleGrid P × List α → Frames Name Atom → Unit → Prop}
    (h : self.Priced)
    (hoperation : fragile (.operation (.charge .operation) self.current.storage.session.id) = true)
    (hbind : fragile (.bind self.current.storage.session.id) = true)
    (hX : ∀ e fs, X e fs ()) (hQ : ∀ g fs, Q g fs ()) :
    (dropLogic fragile).wpx self.observe Q X [self.entries] () := by
  have hcurrent := h _ (mem_grid_buffers.mpr (.inl rfl))
  have hnext := h _ (mem_grid_buffers.mpr (.inr (.inl rfl)))
  have hrhs := h _ (mem_grid_buffers.mpr (.inr (.inr rfl)))
  have hrest := (orderly_closed.buffer hrhs).buffer hnext
  have hentries : Orderly (Frames.resources [self.entries, []]) := orderly_entries h orderly_closed
  have hretained : Orderly (Frames.resources [retainedFrame self, []]) := hrest.upload hcurrent
  have hobserved : Covered (Frames.resources [observeFrame self, []]) := by
    have hperm := own_perm [(Name.tensor .tensor, Name.tensor .retained)] [observeFrame self, []]
    rw [observe_retain] at hperm
    exact hretained.covered.perm hperm
  have hmoved := own_perm [(Name.charge .current, Name.charge .reservation),
    (.tensor .current, .tensor .tensor)] [self.entries, []]
  refine drop_scope hentries.covered ?_
  rw [grid_enter, Logic.wpx_bind, Logic.wpx_rebind]
  refine ⟨hentries.covered.perm hmoved.symm, ?_⟩
  rw [Logic.wpx_bind]
  refine drop_operation (hentries.covered.perm hmoved.symm)
    (fun hf => nomatch hoperation.symm.trans hf) ?_
  rw [observe_push, Logic.wpx_bind]
  refine drop_bind hobserved (fun hf => nomatch hbind.symm.trans hf) ?_
  rw [Logic.wpx_bind, Logic.wpx_rebind, observe_retain]
  refine ⟨hretained.covered, ?_⟩
  rw [Logic.wpx_bind]
  refine drop_copy hretained fun result => ?_
  rw [Logic.wpx_bind, wpx_ofExcept]
  refine ⟨fun host _ => ?_, fun e _ => ⟨hretained, hX e _⟩⟩
  rw [Logic.wpx_bind]
  refine drop_attempt hretained (fun e => ⟨hretained, hX e _⟩) ?_
  have hback := own_perm [(Name.tensor .retained, Name.tensor .current),
    (.charge .reservation, .charge .current)] [retainedFrame self, []]
  rw [Logic.wpx_bind, Logic.wpx_rebind]
  refine ⟨hretained.covered.perm hback.symm, ?_⟩
  rw [Logic.wpx_pure, observe_yield, List.append_nil]
  exact ⟨hretained.covered.perm hback.symm, (orderly_entries h orderly_closed).charge _, hQ _ _⟩

end Grids

/-- Until the tensor is retained, an early return of `into_host` drops the reservation first. -/
theorem drop_intoHost {self : Field2D P} {Q : List α → Frames Name Atom → Unit → Prop}
    (h : self.storage.Priced) (hbind : fragile (.bind self.storage.session.id) = true)
    (hX : ∀ e fs, X e fs ()) (hQ : ∀ data fs, Q data fs ()) :
    (dropLogic fragile).wpx self.intoHost Q X [self.storage.entries .self] () := by
  have hentries : Orderly (Frames.resources [self.storage.entries .self, []]) :=
    orderly_nil.buffer h
  have hretained : Orderly (Frames.resources [[(Name.tensor .retained,
      Atom.storage self.storage.tensor.storage),
      (.charge .reservation, .reservation self.storage.reservation),
      (.charge .operation, .reservation ⟨self.storage.session.id, 0, false⟩)], []]) :=
    (orderly_nil.charge _).buffer h
  have hbound : Covered (Frames.resources [[(Name.charge .reservation,
      Atom.reservation self.storage.reservation),
      (.tensor .tensor, .storage self.storage.tensor.storage),
      (.charge .operation, .reservation ⟨self.storage.session.id, 0, false⟩)], []]) :=
    hretained.covered.perm (List.Perm.swap ..)
  have hreleased : Orderly (Frames.resources [[(Name.charge .reservation,
      Atom.reservation self.storage.reservation),
      (.charge .operation, .reservation ⟨self.storage.session.id, 0, false⟩)], []]) :=
    (orderly_nil.charge _).charge _
  refine drop_scope hentries.covered ?_
  rw [intoHost_enter, Logic.wpx_bind]
  refine drop_completions hentries.covered fun uncertain => ?_
  rw [Logic.wpx_bind, wpx_ofExcept]
  refine ⟨fun _ _ => ?_, fun e _ => ⟨hentries, hX e _⟩⟩
  rw [Logic.wpx_bind]
  refine drop_operation hentries.covered (fun _ e => ⟨hentries, hX e _⟩) ?_
  rw [Logic.wpx_bind, Logic.wpx_rebind, intoHost_own]
  refine ⟨hbound, ?_⟩
  rw [Logic.wpx_bind]
  refine drop_bind hbound (fun hf => nomatch hbind.symm.trans hf) ?_
  rw [Logic.wpx_bind, Logic.wpx_rebind, intoHost_retain]
  refine ⟨hretained.covered, ?_⟩
  rw [Logic.wpx_bind]
  refine drop_copy hretained fun result => ?_
  rw [Logic.wpx_bind, Logic.wpx_discard, intoHost_discard]
  have hdropped : Orderly (Frames.resources [[(Name.tensor .retained,
      Atom.storage self.storage.tensor.storage)], [(.charge .reservation,
      .reservation self.storage.reservation),
      (.charge .operation, .reservation ⟨self.storage.session.id, 0, false⟩)], []]) := hretained
  refine ⟨hdropped.covered, hdropped.dropAll, ?_⟩
  rw [List.tail_cons, wpx_ofExcept]
  exact ⟨fun data _ => ⟨hreleased.covered, hreleased, hQ _ _⟩, fun e _ => ⟨hreleased, hX e _⟩⟩

/-- What an owner holds is priced. -/
theorem Buffer.Kept.priced {b : Buffer P} (h : b.Kept extent) : b.Priced := by
  rw [Buffer.Priced, Storage.price, h.reservation_eq, h.session_eq, ← h.rowMajor.len_eq]

theorem DoubleGrid.Kept.priced {g : DoubleGrid P} (h : g.Kept) : g.Priced := by
  intro b hb
  rcases mem_grid_buffers.mp hb with rfl | rfl | rfl
  · exact Buffer.Kept.priced h.current_kept
  · exact Buffer.Kept.priced h.next_kept
  · exact Buffer.Kept.priced h.rhs_kept

/-- The fields of an owner are dropped in their order. -/
theorem Owner.Kept.orderly {o : Owner P} (h : o.Kept) : Orderly (Frames.resources [o.entries]) := by
  cases o with
  | halo g => exact orderly_nil.buffer (Buffer.Kept.priced h)
  | field g => exact orderly_nil.buffer (Buffer.Kept.priced h)
  | grid g => exact orderly_entries (DoubleGrid.Kept.priced h) orderly_closed

/-- Every call keeps what it holds covered, but for the failures that `fragile` names. -/
theorem drop_request [Scalar α] {r : Request P α} (h : ∀ o ∈ r.owned, o.Kept) :
    (dropLogic r.fragile).wp r.code (fun _ _ _ => True) [r.entries] () := by
  have hcode : ∀ {β : Type} {m : Op α β} {out : β → Outcome P α},
      (dropLogic r.fragile).wpx m (fun _ _ _ => True) (fun _ _ _ => True) [r.entries] () →
      (dropLogic r.fragile).wpx (m >>= fun b => pure (out b)) (fun _ _ _ => True)
        (fun _ _ _ => True) [r.entries] () :=
    fun hm => Logic.wpx_bind.mpr hm
  have hrun : ∀ m : Op α (Outcome P α), r.code = m.run →
      (dropLogic r.fragile).wpx m (fun _ _ _ => True) (fun _ _ _ => True) [r.entries] () →
      (dropLogic r.fragile).wp r.code (fun _ _ _ => True) [r.entries] () := by
    intro m hm hwp
    rw [hm]
    refine Logic.wp_mono ?_ hwp
    intros
    trivial
  cases r with
  | uploadHalo session shape data =>
    exact hrun _ rfl (hcode (drop_uploadHalo orderly_nil (fun _ => trivial) fun _ _ => trivial))
  | uploadField session shape data =>
    exact hrun _ rfl (hcode (drop_uploadField orderly_nil (fun _ => trivial) fun _ _ => trivial))
  | zeros session shape =>
    exact hrun _ rfl (hcode (drop_zeros orderly_nil (fun _ => trivial) fun _ _ => trivial))
  | step session source rhs params =>
    exact hrun _ rfl (hcode (drop_step orderly_nil (fun _ => trivial) fun _ _ => trivial))
  | stepInto session source rhs output params =>
    refine hrun _ rfl (Logic.wpx_bind.mpr ?_)
    exact drop_launchInto (some rhs) orderly_nil (fun _ => trivial) trivial
  | laplacianInto session source output params =>
    refine hrun _ rfl (Logic.wpx_bind.mpr ?_)
    exact drop_launchInto none orderly_nil (fun _ => trivial) trivial
  | stepIntoAsync session source rhs output params =>
    have hsource : source.Kept := h (.halo source) (by simp [Request.owned])
    have hrhs : rhs.Kept := h (.field rhs) (by simp [Request.owned])
    have houtput : output.Kept := h (.field output) (by simp [Request.owned])
    exact hrun _ rfl (hcode (drop_stepIntoAsync (Buffer.Kept.priced hsource)
      (Buffer.Kept.priced hrhs) (Buffer.Kept.priced houtput) (fun _ _ => trivial)
      fun _ _ => trivial))
  | doubleGrid session shape initial rhs =>
    exact hrun _ rfl (hcode (drop_doubleGrid orderly_nil (fun _ => trivial) fun _ _ => trivial))
  | advance grid count params =>
    have hgrid : grid.Kept := h (.grid grid) List.mem_cons_self
    exact hrun _ rfl (hcode (drop_advance hgrid.priced (fun _ _ => trivial) fun _ _ => trivial))
  | advanceAsync grid count params =>
    have hgrid : grid.Kept := h (.grid grid) List.mem_cons_self
    exact hrun _ rfl
      (hcode (drop_advanceAsync hgrid.priced (fun _ _ => trivial) fun _ _ => trivial))
  | observe grid =>
    have hgrid : grid.Kept := h (.grid grid) List.mem_cons_self
    refine hrun _ rfl (Logic.wpx_bind.mpr ?_)
    exact drop_observe hgrid.priced rfl rfl (fun _ _ => trivial) fun _ _ => trivial
  | intoHost field =>
    have hfield : field.Kept := h (.field field) List.mem_cons_self
    exact hrun _ rfl (hcode
      (drop_intoHost (Buffer.Kept.priced hfield) rfl (fun _ _ => trivial) fun _ _ => trivial))

end Calls
end Gudra
