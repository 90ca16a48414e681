import Gudra.Contents

/-! What each effect of the facade assumes and guarantees, for one task among many. -/
namespace Gudra

open Scope

variable {P : Platform} {α : Type}

/-- What happened to the executions of one task. -/
inductive KernelEvent (α : Type) where
  | submitted (l : Launch α)
  | completed (l : Launch α)
  | failed (l : Launch α)

/-- What a task knows: the allocations that it can reach and its own history. -/
structure Ghost (α : Type) where
  status : ℕ → Status α
  uncertain : ℕ → Bool
  /-- Newest first. -/
  kernels : List (KernelEvent α)
  polled : Bool
  /-- A call of the backend other than an execution failed. -/
  stopped : Bool
  /-- Why admission was refused. -/
  refused : Option Error

/-- The terms on which a task runs. -/
structure Terms (α : Type) where
  session : ℕ
  /-- The allocations behind its references. -/
  shared : List Storage
  lent : List Storage
  /-- It may reach the backend. -/
  work : Prop
  /-- What an unfinished future holds between polls. -/
  idle : Frames Name Atom → Prop
  permit : Frames Name Atom → Ghost α → Launch α → Prop
  /-- What holds at every instant. -/
  inv : Frames Name Atom → Ghost α → Prop

def Atom.storage? : Atom → Option Storage
  | storage s => some s
  | reservation _ => none

def Atom.reservation? : Atom → Option Reservation
  | storage _ => none
  | reservation r => some r

/-- The allocations among resources. -/
def ids (xs : List Atom) : List ℕ := (xs.filterMap Atom.storage?).map Storage.id

@[simp] theorem ids_nil : ids [] = [] := rfl

@[simp] theorem ids_storage {s : Storage} {xs : List Atom} :
    ids (.storage s :: xs) = s.id :: ids xs := rfl

@[simp] theorem ids_reservation {r : Reservation} {xs : List Atom} :
    ids (.reservation r :: xs) = ids xs := rfl

@[simp] theorem ids_append {xs ys : List Atom} : ids (xs ++ ys) = ids xs ++ ids ys := by
  simp [ids]

theorem ids_perm {xs ys : List Atom} (h : xs.Perm ys) : (ids xs).Perm (ids ys) :=
  (h.filterMap _).map _

/-- What a failed execution leaves behind: it is not submitted, or it fails while it runs or after
it. -/
def KernelEvent.failures (l : Launch α) (ks : List (KernelEvent α)) :
    List (List (KernelEvent α)) :=
  [failed l :: ks, failed l :: submitted l :: ks, failed l :: completed l :: submitted l :: ks]

namespace Ghost

/-- The contents may be read and have the length of the allocation. -/
def Ready (g : Ghost α) (s : Storage) : Prop :=
  ∃ data, g.status s.id = .settled data ∧ data.length = s.len

def data (g : Ghost α) (s : Storage) : List α := (g.status s.id).data

def succeed [Scalar α] (g : Ghost α) (l : Launch α) : Ghost α :=
  { g with
    status := Function.update g.status l.output.storage.id
      (.settled (l.commit fun id => (g.status id).data))
    kernels := .completed l :: .submitted l :: g.kernels }

def fail (g : Ghost α) (l : Launch α) (ks : List (KernelEvent α)) : Ghost α :=
  { g with
    status := Function.update g.status l.output.storage.id .broken
    kernels := ks }

def store (g : Ghost α) (id : ℕ) (data : List α) : Ghost α :=
  { g with
    status := Function.update g.status id (.settled data)
    uncertain := Function.update g.uncertain id false }

def setCompletion (g : Ghost α) (id : ℕ) (uncertain : Bool) : Ghost α :=
  { g with uncertain := Function.update g.uncertain id uncertain }

def stop (g : Ghost α) : Ghost α := { g with stopped := true }

def refuse (g : Ghost α) (e : Error) : Ghost α := { g with refused := some e }

/-- The same knowledge of some allocations and the same executions. -/
structure Same (reach : List ℕ) (g g' : Ghost α) : Prop where
  status_eq : ∀ id ∈ reach, g'.status id = g.status id
  uncertain_eq : ∀ id ∈ reach, g'.uncertain id = g.uncertain id
  kernels_eq : g'.kernels = g.kernels
  polled_eq : g'.polled = g.polled

theorem Same.refl (reach : List ℕ) (g : Ghost α) : g.Same reach g :=
  ⟨fun _ _ => rfl, fun _ _ => rfl, rfl, rfl⟩

theorem Same.trans {reach : List ℕ} {g g' g'' : Ghost α} (h : g.Same reach g')
    (h' : g'.Same reach g'') : g.Same reach g'' :=
  ⟨fun id hid => (h'.status_eq id hid).trans (h.status_eq id hid),
    fun id hid => (h'.uncertain_eq id hid).trans (h.uncertain_eq id hid),
    h'.kernels_eq.trans h.kernels_eq, h'.polled_eq.trans h.polled_eq⟩

theorem Same.mono {reach reach' : List ℕ} {g g' : Ghost α} (h : g.Same reach g')
    (hsub : ∀ id ∈ reach', id ∈ reach) : g.Same reach' g' :=
  ⟨fun id hid => h.status_eq id (hsub id hid), fun id hid => h.uncertain_eq id (hsub id hid),
    h.kernels_eq, h.polled_eq⟩

theorem Same.stop {reach : List ℕ} {g g' : Ghost α} (h : g.Same reach g') :
    g.Same reach g'.stop := ⟨h.status_eq, h.uncertain_eq, h.kernels_eq, h.polled_eq⟩

theorem Same.refuse {reach : List ℕ} {g g' : Ghost α} (h : g.Same reach g') (e : Error) :
    g.Same reach (g'.refuse e) := ⟨h.status_eq, h.uncertain_eq, h.kernels_eq, h.polled_eq⟩

/-- A new allocation leaves the others as they are. -/
theorem Same.store {reach : List ℕ} {g g' : Ghost α} {id : ℕ} (h : g.Same reach g')
    (hid : id ∉ reach) (data : List α) : g.Same reach (g'.store id data) := by
  have hne : ∀ x ∈ reach, x ≠ id := fun x hx he => hid (he ▸ hx)
  refine ⟨fun x hx => ?_, fun x hx => ?_, h.kernels_eq, h.polled_eq⟩
  · exact (Function.update_of_ne (hne x hx) _ _).trans (h.status_eq x hx)
  · exact (Function.update_of_ne (hne x hx) _ _).trans (h.uncertain_eq x hx)

theorem Same.ready {reach : List ℕ} {g g' : Ghost α} {s : Storage} (h : g.Same reach g')
    (hs : s.id ∈ reach) (hr : g.Ready s) : g'.Ready s := by
  obtain ⟨data, hdata, hlen⟩ := hr
  exact ⟨data, (h.status_eq s.id hs).trans hdata, hlen⟩

theorem data_of_status {g : Ghost α} {s : Storage} {data : List α}
    (h : g.status s.id = .settled data) : g.data s = data := by
  rw [Ghost.data, h, Status.data]

end Ghost

namespace Terms

variable (C : Terms α)

/-- The allocations that nobody else may touch. -/
def exclusive (fs : Frames Name Atom) : List ℕ := ids fs.resources ++ C.lent.map Storage.id

/-- The allocations that nobody else may change. -/
def reach (fs : Frames Name Atom) : List ℕ := C.exclusive fs ++ C.shared.map Storage.id

variable [Scalar α]

/-- A launch that a task may make. -/
structure Launchable (P : Platform) (fs : Frames Name Atom) (g : Ghost α) (s : ℕ) (l : Launch α) :
    Prop where
  work : C.work
  session_eq : s = C.session
  wellFormed : ∃ shape : Shape2D P, l.WellFormed shape
  inputs : ∀ t ∈ l.inputs, t.storage.id ∈ C.reach fs ∧ t.storage.session = s ∧ g.Ready t.storage
  output_mem : l.output.storage.id ∈ C.exclusive fs
  output_session : l.output.storage.session = s
  output_ready : g.Ready l.output.storage
  /-- The flag of a borrowed output is set before the execution. -/
  output_uncertain : l.output.storage.id ∈ C.lent.map Storage.id →
    g.uncertain l.output.storage.id = true
  permit : C.permit fs g l

def spec (P : Platform) : (e : Effect α) → Frames Name Atom → Ghost α →
    (e.Rep → Frames Name Atom → Ghost α → Prop) → Prop
  | .buffer x s bytes, fs, g, post => s = C.session ∧ (∀ e, post (.error e) fs (g.refuse e)) ∧
    post (.ok ⟨s, bytes, true⟩) (Frames.push [(x, .reservation ⟨s, bytes, true⟩)] fs) g
  | .operation x s, fs, g, post => s = C.session ∧ (∀ e, post (.error e) fs (g.refuse e)) ∧
    post (.ok ⟨s, 0, false⟩) (Frames.push [(x, .reservation ⟨s, 0, false⟩)] fs) g
  | .bind _, fs, g, post => C.work ∧ (∀ e, post (.error e) fs g.stop) ∧ post (.ok ()) fs g
  | .attempt, fs, g, post => ∀ r, post r fs g
  | .upload x session data, fs, g, post => C.work ∧ (∀ e, post (.error e) fs g.stop) ∧
    ∀ s : Storage, s.device = session.device → s.session = session.id → s.len = data.length →
      s.id ∉ C.reach fs → post (.ok s) (Frames.push [(x, .storage s)] fs) (g.store s.id data)
  | .completions, fs, g, post => ∀ f : ℕ → Bool,
    (∀ id ∈ C.reach fs, f id = g.uncertain id) → post f fs g
  | .setCompletion id uncertain, fs, g, post => id ∈ C.exclusive fs ∧
    (∃ data, g.status id = .settled data) ∧
    (uncertain = false → ∀ s ∈ C.lent, s.id = id → g.Ready s) ∧
    post () fs (g.setCompletion id uncertain)
  | .execute s l, fs, g, post => C.Launchable P fs g s l ∧ post (.ok ()) fs (g.succeed l) ∧
    ∀ e, ∀ ks ∈ KernelEvent.failures l g.kernels, post (.error e) fs (g.fail l ks)
  | .copy _ s, fs, g, post => C.work ∧ s.id ∈ C.reach fs ∧ g.Ready s ∧
    (∀ e, post (.error e) fs g.stop) ∧ post (.ok (g.data s)) fs g
  | .lazy, fs, g, post => C.work ∧ g.polled = false ∧ C.idle fs ∧
    post () fs { g with polled := true }
  | .panic, _, _, _ => False

def logic (P : Platform) : Logic (Effect.Rep (α := α)) Name Atom (Ghost α) where
  inv := C.inv
  spec := C.spec P
  mono := by
    intro e fs g p q hpq h
    cases e with
    | buffer => exact ⟨h.1, fun e => hpq _ _ _ (h.2.1 e), hpq _ _ _ h.2.2⟩
    | operation => exact ⟨h.1, fun e => hpq _ _ _ (h.2.1 e), hpq _ _ _ h.2.2⟩
    | bind => exact ⟨h.1, fun e => hpq _ _ _ (h.2.1 e), hpq _ _ _ h.2.2⟩
    | attempt => exact fun r => hpq _ _ _ (h r)
    | upload =>
      exact ⟨h.1, fun e => hpq _ _ _ (h.2.1 e),
        fun s hd hs hl hf => hpq _ _ _ (h.2.2 s hd hs hl hf)⟩
    | completions => exact fun f hf => hpq _ _ _ (h f hf)
    | setCompletion => exact ⟨h.1, h.2.1, h.2.2.1, hpq _ _ _ h.2.2.2⟩
    | execute => exact ⟨h.1, hpq _ _ _ h.2.1, fun e ks hks => hpq _ _ _ (h.2.2 e ks hks)⟩
    | copy => exact ⟨h.1, h.2.1, h.2.2.1, fun e => hpq _ _ _ (h.2.2.2.1 e), hpq _ _ _ h.2.2.2.2⟩
    | «lazy» => exact ⟨h.1, h.2.1, h.2.2.1, hpq _ _ _ h.2.2.2⟩
    | panic => exact h

end Terms

/-! ### The primitive operations -/

section Pure

variable {G β : Type} {L : Logic (Effect.Rep (α := α)) Name Atom G} {fs : Frames Name Atom} {g : G}
  {Q : β → Frames Name Atom → G → Prop} {X : Error → Frames Name Atom → G → Prop}

@[simp] theorem wpx_ofExcept {r : Except Error β} : L.wpx (Op.ofExcept r) Q X fs g ↔
    (∀ b, r = .ok b → Q b fs g) ∧ ∀ e, r = .error e → X e fs g := by
  cases r <;> simp [Op.ofExcept, Logic.wpx, Logic.wp]

theorem wpx_checked {o : Option β} {b : β} (h : o = some b) :
    L.wpx (Op.checked o) Q X fs g ↔ Q b fs g := by
  subst h
  rfl

theorem wpx_ofFallible {o : Fallible β} {b : β} (h : o = some (.ok b)) :
    L.wpx (Op.ofFallible o) Q X fs g ↔ Q b fs g := by
  subst h
  rfl

end Pure

section Primitives

variable [Scalar α] {C : Terms α} {fs : Frames Name Atom} {g : Ghost α}
  {X : Error → Frames Name Atom → Ghost α → Prop}

@[simp] theorem logic_inv : (C.logic P).inv fs g ↔ C.inv fs g := Iff.rfl

theorem logic_dropAll (P : Platform) (hinv : ∀ fs g, C.inv fs g) (fs : Frames Name Atom)
    (g : Ghost α) : (C.logic P).dropAll fs g := ⟨fun _ _ => hinv _ _, hinv _ _⟩

theorem wpx_buffer {x : Name} {session : Session} {bytes : ℕ}
    {Q : Reservation → Frames Name Atom → Ghost α → Prop} :
    (C.logic P).wpx (Op.buffer x session bytes) Q X fs g ↔ session.id = C.session ∧
      (∀ e, C.inv fs (g.refuse e) ∧ X e fs (g.refuse e)) ∧
      C.inv (Frames.push [(x, .reservation ⟨session.id, bytes, true⟩)] fs) g ∧
      Q ⟨session.id, bytes, true⟩ (Frames.push [(x, .reservation ⟨session.id, bytes, true⟩)] fs) g := by
  rfl

theorem wpx_operation {x : Name} {session : Session}
    {Q : Reservation → Frames Name Atom → Ghost α → Prop} :
    (C.logic P).wpx (Op.operation x session) Q X fs g ↔ session.id = C.session ∧
      (∀ e, C.inv fs (g.refuse e) ∧ X e fs (g.refuse e)) ∧
      C.inv (Frames.push [(x, .reservation ⟨session.id, 0, false⟩)] fs) g ∧
      Q ⟨session.id, 0, false⟩ (Frames.push [(x, .reservation ⟨session.id, 0, false⟩)] fs) g := by
  rfl

theorem wpx_bindDevice {session : Session} {Q : Unit → Frames Name Atom → Ghost α → Prop} :
    (C.logic P).wpx (Op.bindDevice session) Q X fs g ↔ C.work ∧
      (∀ e, C.inv fs g.stop ∧ X (backend "bind device to thread" e) fs g.stop) ∧
      C.inv fs g ∧ Q () fs g := by
  rfl

theorem wpx_attempt {Q : Unit → Frames Name Atom → Ghost α → Prop} :
    (C.logic P).wpx (Op.attempt (α := α)) Q X fs g ↔
      (C.inv fs g ∧ Q () fs g) ∧ ∀ e, C.inv fs g ∧ X e fs g := by
  constructor
  · intro h
    exact ⟨h (.ok ()), fun e => h (.error e)⟩
  · rintro ⟨hQ, hX⟩ (e | u)
    · exact hX e
    · exact hQ

theorem wpx_upload {label : String} {x : Name} {session : Session} {data : List α}
    {Q : Storage → Frames Name Atom → Ghost α → Prop} :
    (C.logic P).wpx (Op.upload label x session data) Q X fs g ↔ C.work ∧
      (∀ e, C.inv fs g.stop ∧ X (backend label e) fs g.stop) ∧
      ∀ s : Storage, s.device = session.device → s.session = session.id → s.len = data.length →
        s.id ∉ C.reach fs → C.inv (Frames.push [(x, .storage s)] fs) (g.store s.id data) ∧
          Q s (Frames.push [(x, .storage s)] fs) (g.store s.id data) := by
  rfl

theorem wpx_completions {Q : (ℕ → Bool) → Frames Name Atom → Ghost α → Prop} :
    (C.logic P).wpx (Op.completions (α := α)) Q X fs g ↔
      ∀ f : ℕ → Bool, (∀ id ∈ C.reach fs, f id = g.uncertain id) → C.inv fs g ∧ Q f fs g := by
  rfl

theorem wpx_setCompletion {id : ℕ} {uncertain : Bool}
    {Q : Unit → Frames Name Atom → Ghost α → Prop} :
    (C.logic P).wpx (Op.setCompletion (α := α) id uncertain) Q X fs g ↔ id ∈ C.exclusive fs ∧
      (∃ data, g.status id = .settled data) ∧
      (uncertain = false → ∀ s ∈ C.lent, s.id = id → g.Ready s) ∧
      C.inv fs (g.setCompletion id uncertain) ∧ Q () fs (g.setCompletion id uncertain) := by
  rfl

theorem wpx_execute {label : String} {session : Session} {l : Launch α}
    {Q : Unit → Frames Name Atom → Ghost α → Prop} :
    (C.logic P).wpx (Op.execute label session l) Q X fs g ↔
      C.Launchable P fs g session.id l ∧ (C.inv fs (g.succeed l) ∧ Q () fs (g.succeed l)) ∧
      ∀ e, ∀ ks ∈ KernelEvent.failures l g.kernels,
        C.inv fs (g.fail l ks) ∧ X (backend label e) fs (g.fail l ks) := by
  rfl

theorem wpx_copy {session : Session} {s : Storage}
    {Q : Except String (List α) → Frames Name Atom → Ghost α → Prop} :
    (C.logic P).wpx (Op.copy session s) Q X fs g ↔ C.work ∧ s.id ∈ C.reach fs ∧ g.Ready s ∧
      (∀ e, C.inv fs g.stop ∧ Q (.error e) fs g.stop) ∧
      C.inv fs g ∧ Q (.ok (g.data s)) fs g := by
  rfl

theorem wpx_lazy {Q : Unit → Frames Name Atom → Ghost α → Prop} :
    (C.logic P).wpx (Op.lazy (α := α)) Q X fs g ↔ C.work ∧ g.polled = false ∧ C.idle fs ∧
      C.inv fs { g with polled := true } ∧ Q () fs { g with polled := true } := by
  rfl

end Primitives
end Gudra
