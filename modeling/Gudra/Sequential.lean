import Gudra.Budgets
import Gudra.Lib.Sequential

/-! One caller on its own thread: its code runs to the end, and a launch before the next effect. -/
namespace Gudra

open Scope Interleave

variable {P : Platform} {α : Type} [Scalar α]

namespace World

/-- A launch whose blocks run one after the other, or that fails. -/
def execute (w : World P α) (i : ℕ) (l : Launch α) :
    Choice α → Option (Except String Unit × World P α)
  | .ok => some (.ok (), { w with
      memory := l.blocks.foldl (fun m p => p.run m) w.memory
      flights := w.flights ++ [⟨i, l, l.blocks.map fun _ => .ret (), .completed⟩]
      log := .completed i l :: .submitted i l :: .device i true :: w.log })
  | .fail _ message garbage =>
    some (.error message, (w.record (.device i true)).failLaunch i l garbage)
  | .unwind _ => none

/-- The answer to the next effect. A future is polled at once. -/
def answer (i : ℕ) (backend : ℕ → Choice α) :
    (e : Effect α) → World P α × ℕ → Option (e.Rep × World P α × ℕ)
  | .execute _ l, (w, n) => (w.execute i l (backend n)).map fun (r, w) => (r, w, n + 1)
  | .lazy, (w, n) => some ((), (w.record (.created i)).record (.polled i), n)
  | e, (w, n) => (w.perform i (backend n) e).map fun (r, w) => (r, w, n + 1)

/-- `backend` answers the effects in order. -/
def machine (P : Platform) (i : ℕ) (backend : ℕ → Choice α) :
    Machine (Effect.Rep (α := α)) Name Atom (World P α × ℕ) where
  perform := answer i backend
  gain := Effect.gain
  drop a := fun (w, n) => (w.release (some a), n)

/-- A process with one session. -/
def fresh (device : ℕ) (limits : ResourceLimits P) (memory : Addr → α) : World P α :=
  (World.init P memory).step (.newGpu device limits)

/-- What the code of a caller returns; `none` is a panic. -/
def outcome {β : Type} (w : World P α) (backend : ℕ → Choice α) (code : Op α β) :
    Option (Except Error β) :=
  ((machine P 0 backend).exec code.run [[]] (w, 0)).map Prod.fst

end World

/-- The reservations of a session that the open scopes hold. -/
def held (s : ℕ) (fs : Frames Name Atom) : List Reservation := reservations s fs.resources

/-- The limits leave room for one more buffer. -/
def ResourceLimits.Admits (limits : ResourceLimits P) (rs : List Reservation) (bytes : ℕ) : Prop :=
  bytes ≤ limits.bufferBytes ∧ Gudra.bufferBytes rs + bytes ≤ limits.totalBytes ∧
    bufferCount rs + 1 ≤ limits.buffers

def ResourceLimits.AdmitsOperation (limits : ResourceLimits P) (rs : List Reservation) : Prop :=
  operationCount rs + 1 ≤ limits.operations

/-- A session whose only user is the caller. The backend may fail only if it is `faulty`. -/
structure Solo (P : Platform) where
  limits : ResourceLimits P
  session : ℕ
  faulty : Prop

namespace Solo

variable (S : Solo P)

/-- The ghost state is the flags. -/
def spec : (e : Effect α) → Frames Name Atom → (ℕ → Bool) →
    (e.Rep → Frames Name Atom → (ℕ → Bool) → Prop) → Prop
  | .buffer x s bytes, fs, g, post => s = S.session ∧
    (S.limits.Admits (held s fs) bytes →
      post (.ok ⟨s, bytes, true⟩) (fs.push [(x, .reservation ⟨s, bytes, true⟩)]) g) ∧
    (¬ S.limits.Admits (held s fs) bytes →
      ∀ resource maximum, post (.error (.resourceLimit resource maximum)) fs g)
  | .operation x s, fs, g, post => s = S.session ∧
    S.limits.AdmitsOperation (held s fs) ∧
    post (.ok ⟨s, 0, false⟩) (fs.push [(x, .reservation ⟨s, 0, false⟩)]) g
  | .bind _, fs, g, post => (S.faulty → ∀ e, post (.error e) fs g) ∧ post (.ok ()) fs g
  | .attempt, fs, g, post =>
    (S.faulty → ∀ operation message, post (.error (backend operation message)) fs g) ∧
      post (.ok ()) fs g
  | .upload x session data, fs, g, post => (S.faulty → ∀ e, post (.error e) fs g) ∧
    ∀ s : Storage, s.device = session.device → s.session = session.id → s.len = data.length →
      post (.ok s) (fs.push [(x, .storage s)]) (Function.update g s.id false)
  | .completions, fs, g, post => post g fs g
  | .setCompletion id uncertain, fs, g, post => post () fs (Function.update g id uncertain)
  | .execute _ _, fs, g, post => (S.faulty → ∀ e, post (.error e) fs g) ∧ post (.ok ()) fs g
  | .copy _ _, fs, g, post =>
    (S.faulty → ∀ e, post (.error e) fs g) ∧ ∀ data, post (.ok data) fs g
  | .lazy, fs, g, post => post () fs g
  | .panic, _, _, _ => False

def logic : Logic (Effect.Rep (α := α)) Name Atom (ℕ → Bool) where
  inv := fun _ _ => True
  spec := S.spec
  mono := by
    intro e fs g p q hpq h
    cases e with
    | buffer => exact ⟨h.1, fun hf => hpq _ _ _ (h.2.1 hf), fun hf r m => hpq _ _ _ (h.2.2 hf r m)⟩
    | operation => exact ⟨h.1, h.2.1, hpq _ _ _ h.2.2⟩
    | bind => exact ⟨fun hf e => hpq _ _ _ (h.1 hf e), hpq _ _ _ h.2⟩
    | attempt => exact ⟨fun hf o m => hpq _ _ _ (h.1 hf o m), hpq _ _ _ h.2⟩
    | upload => exact ⟨fun hf e => hpq _ _ _ (h.1 hf e),
        fun s hd hs hl => hpq _ _ _ (h.2 s hd hs hl)⟩
    | completions => exact hpq _ _ _ h
    | setCompletion => exact hpq _ _ _ h
    | execute => exact ⟨fun hf e => hpq _ _ _ (h.1 hf e), hpq _ _ _ h.2⟩
    | copy => exact ⟨fun hf e => hpq _ _ _ (h.1 hf e), fun data => hpq _ _ _ (h.2 data)⟩
    | «lazy» => exact hpq _ _ _ h
    | panic => exact h

/-- The world of the caller: its session accounts for what its scopes hold. -/
structure Models (rs : List Atom) (g : ℕ → Bool) (w : World P α) : Prop where
  budget : ∃ b, w.budget? S.session = some b ∧ b.limits = S.limits ∧
    b.Accounts (reservations S.session rs)
  uncertain_eq : w.uncertain = g

variable {S} {rs qs : List Atom} {g : ℕ → Bool} {w w' : World P α} {i bytes : ℕ}

omit [Scalar α] in
theorem Models.perm (h : S.Models rs g w) (hp : rs.Perm qs) : S.Models qs g w := by
  obtain ⟨⟨b, hb, hlimits, hacc⟩, hg⟩ := h
  exact ⟨⟨b, hb, hlimits, hacc.perm (reservations_perm hp)⟩, hg⟩

omit [Scalar α] in
theorem Models.push (xs : Frame Name Atom) {fs : Frames Name Atom}
    (h : S.Models (xs.map Prod.snd ++ fs.resources) g w) : S.Models (fs.push xs).resources g w :=
  h.perm (push_perm xs fs).symm

omit [Scalar α] in
theorem Models.congr (h : S.Models rs g w) (hs : w'.sessions = w.sessions)
    (hu : w'.uncertain = w.uncertain) : S.Models rs g w' := by
  obtain ⟨⟨b, hb, hlimits, hacc⟩, hg⟩ := h
  refine ⟨⟨b, ?_, hlimits, hacc⟩, hu.trans hg⟩
  rw [World.budget?, hs]
  exact hb

omit [Scalar α] in
/-- A drop gives its charge back. -/
theorem Models.release {a : Atom} (h : S.Models (a :: rs) g w) :
    S.Models rs g (w.release (some a)) := by
  obtain ⟨⟨b, hb, hlimits, hacc⟩, hg⟩ := h
  refine ⟨?_, by rwa [World.release_uncertain]⟩
  cases a with
  | storage s => exact ⟨b, hb, hlimits, hacc⟩
  | reservation r =>
    by_cases hr : S.session = r.budget
    · rw [hr] at hacc hb
      rw [World.reservations_cons_self] at hacc
      simp only [World.release, hb, hacc.release, Option.getD_some]
      rw [hr]
      exact ⟨_, World.budget?_setBudget_self hb, Budget.released_limits.trans hlimits,
        hacc.released⟩
    · rw [World.reservations_cons_of_ne hr] at hacc
      refine ⟨b, ?_, hlimits, hacc⟩
      simp only [World.release]
      cases w.budget? r.budget with
      | none => exact hb
      | some b' => exact (World.budget?_setBudget_of_ne (Ne.symm hr)).trans hb

omit [Scalar α] in
theorem reserve_eq {s : ℕ} {section_ : Budget P → Locked Reservation} {b b' : Budget P}
    {r : Except Error Reservation} (hb : w.budget? s = some b)
    (hr : b.reserve (section_ b) = some (r, b')) :
    w.reserve i s section_ = some (r, (w.setBudget s b').record (.reserved i s r)) := by
  simp only [World.reserve, hb, Option.bind_eq_bind, Option.bind_some, hr]
  rfl

omit [Scalar α] in
theorem Models.buffer (h : S.Models rs g w)
    (hf : S.limits.Admits (reservations S.session rs) bytes) :
    ∃ w', w.reserve i S.session (fun b => Budget.buffer b.limits S.session bytes) =
        some (.ok ⟨S.session, bytes, true⟩, w') ∧
      S.Models (.reservation ⟨S.session, bytes, true⟩ :: rs) g w' := by
  obtain ⟨⟨b, hb, hlimits, hacc⟩, hg⟩ := h
  have hfits : b.BufferFits bytes := by
    rw [Budget.BufferFits, hacc.bytes_eq, hacc.buffers_eq, hlimits]
    exact hf
  refine ⟨_, reserve_eq hb (Budget.buffer_ok hfits), ?_, hg⟩
  refine ⟨_, World.budget?_setBudget_self hb, hlimits, ?_⟩
  have hcons : reservations S.session (.reservation ⟨S.session, bytes, true⟩ :: rs) =
      ⟨S.session, bytes, true⟩ :: reservations S.session rs := World.reservations_cons_self
  rw [hcons]
  exact hacc.charged hfits

omit [Scalar α] in
theorem Models.buffer_refused (h : S.Models rs g w)
    (hf : ¬ S.limits.Admits (reservations S.session rs) bytes) :
    ∃ resource maximum w', w.reserve i S.session (fun b => Budget.buffer b.limits S.session bytes) =
        some (.error (.resourceLimit resource maximum), w') ∧ S.Models rs g w' := by
  obtain ⟨⟨b, hb, hlimits, hacc⟩, hg⟩ := h
  have hfits : ¬ b.BufferFits bytes := by
    rw [Budget.BufferFits, hacc.bytes_eq, hacc.buffers_eq, hlimits]
    exact hf
  obtain ⟨resource, maximum, hrefused⟩ := Budget.buffer_error S.session hfits
  refine ⟨resource, maximum, _, reserve_eq hb hrefused, ?_, hg⟩
  exact ⟨_, World.budget?_setBudget_self hb, hlimits, hacc⟩

omit [Scalar α] in
theorem Models.operation (h : S.Models rs g w)
    (hf : S.limits.AdmitsOperation (reservations S.session rs)) :
    ∃ w', w.reserve i S.session (fun b => Budget.operation b.limits S.session) =
        some (.ok ⟨S.session, 0, false⟩, w') ∧
      S.Models (.reservation ⟨S.session, 0, false⟩ :: rs) g w' := by
  obtain ⟨⟨b, hb, hlimits, hacc⟩, hg⟩ := h
  have hfits : b.OperationFits := by
    rw [Budget.OperationFits, hacc.operations_eq, hlimits]
    exact hf
  refine ⟨_, reserve_eq hb (Budget.operation_ok hfits), ?_, hg⟩
  refine ⟨_, World.budget?_setBudget_self hb, hlimits, ?_⟩
  have hcons : reservations S.session (.reservation ⟨S.session, 0, false⟩ :: rs) =
      ⟨S.session, 0, false⟩ :: reservations S.session rs := World.reservations_cons_self
  rw [hcons]
  exact hacc.started hfits

section Sound

variable {backend : ℕ → Choice α} (hbackend : ¬ S.faulty → ∀ n, backend n = .ok)
include hbackend

/-- The answers of the world are among those of the logic. -/
theorem sound_perform {e : Effect α} {fs : Frames Name Atom} {x : World P α × ℕ}
    {post : e.Rep → Frames Name Atom → (ℕ → Bool) → Prop} (h : S.Models fs.resources g x.1)
    (hspec : S.spec e fs g post) :
    World.answer i backend e x = none ∧ S.faulty ∨ ∃ rep x' g',
      World.answer i backend e x = some (rep, x') ∧
        S.Models (fs.push (e.gain rep)).resources g' x'.1 ∧
        post rep (fs.push (e.gain rep)) g' := by
  obtain ⟨w, n⟩ := x
  have hfaulty : backend n ≠ .ok → S.faulty := by
    intro hne
    by_contra hf
    exact hne (hbackend hf n)
  have hnext : ∀ {e : Effect α} {o : Option (e.Rep × World P α)} {rep : e.Rep} {w' : World P α},
      o = some (rep, w') → o.map (fun x => (x.1, x.2, n + 1)) = some (rep, w', n + 1) := by
    intro e o rep w' ho
    rw [ho, Option.map_some]
  cases e with
  | buffer x s bytes =>
    obtain ⟨rfl, hok, hrefused⟩ := hspec
    by_cases hf : S.limits.Admits (held S.session fs) bytes
    · obtain ⟨w', hw, hmodels⟩ := h.buffer (i := i) hf
      exact .inr ⟨.ok ⟨S.session, bytes, true⟩, (w', n + 1), g, hnext hw, hmodels.push [(x, _)],
        hok hf⟩
    · obtain ⟨resource, maximum, w', hw, hmodels⟩ := h.buffer_refused (i := i) hf
      exact .inr ⟨.error (.resourceLimit resource maximum), (w', n + 1), g, hnext hw,
        hmodels.push [], hrefused hf resource maximum⟩
  | operation x s =>
    obtain ⟨rfl, hf, hok⟩ := hspec
    obtain ⟨w', hw, hmodels⟩ := h.operation (i := i) hf
    exact .inr ⟨.ok ⟨S.session, 0, false⟩, (w', n + 1), g, hnext hw, hmodels.push [(x, _)], hok⟩
  | bind s =>
    cases hc : backend n with
    | ok =>
      refine .inr ⟨.ok (), (_, n + 1), g, hnext (by rw [hc, World.perform]), ?_, hspec.2⟩
      exact Models.congr (h.push []) rfl rfl
    | fail operation message garbage =>
      refine .inr ⟨.error message, (_, n + 1), g, hnext (by rw [hc, World.perform]), ?_,
        hspec.1 (hfaulty (by simp [hc])) message⟩
      exact Models.congr (h.push []) rfl rfl
    | unwind garbage =>
      exact .inl ⟨by simp [World.answer, World.perform, hc], hfaulty (by simp [hc])⟩
  | attempt =>
    cases hc : backend n with
    | ok =>
      exact .inr ⟨.ok (), (w, n + 1), g, hnext (by rw [hc, World.perform]), h.push [], hspec.2⟩
    | fail operation message garbage =>
      exact .inr ⟨.error (.backend operation message), (w, n + 1), g,
        hnext (by rw [hc, World.perform]; rfl), h.push [],
        hspec.1 (hfaulty (by simp [hc])) operation message⟩
    | unwind garbage =>
      exact .inl ⟨by simp [World.answer, World.perform, hc], hfaulty (by simp [hc])⟩
  | upload x session data =>
    cases hc : backend n with
    | ok =>
      refine .inr ⟨.ok _, (_, n + 1), _, hnext (by rw [hc, World.perform]), ?_,
        hspec.2 _ rfl rfl rfl⟩
      obtain ⟨hbudget, rfl⟩ := h
      exact Models.push [(x, .storage _)] ⟨hbudget, rfl⟩
    | fail operation message garbage =>
      refine .inr ⟨.error message, (_, n + 1), g, hnext (by rw [hc, World.perform]), ?_,
        hspec.1 (hfaulty (by simp [hc])) message⟩
      exact Models.congr (h.push []) rfl rfl
    | unwind garbage =>
      exact .inl ⟨by simp [World.answer, World.perform, hc], hfaulty (by simp [hc])⟩
  | completions =>
    obtain ⟨hbudget, rfl⟩ := h
    exact .inr ⟨w.uncertain, (w, n + 1), w.uncertain, rfl, Models.push [] ⟨hbudget, rfl⟩, hspec⟩
  | setCompletion id uncertain =>
    obtain ⟨hbudget, rfl⟩ := h
    exact .inr ⟨(), (_, n + 1), _, rfl, Models.push [] ⟨hbudget, rfl⟩, hspec⟩
  | execute s l =>
    cases hc : backend n with
    | ok =>
      refine .inr ⟨.ok (), (_, n + 1), g, by rw [World.answer, hc, World.execute]; rfl, ?_, hspec.2⟩
      exact Models.congr (h.push []) rfl rfl
    | fail operation message garbage =>
      refine .inr ⟨.error message, (_, n + 1), g, by rw [World.answer, hc, World.execute]; rfl, ?_,
        hspec.1 (hfaulty (by simp [hc])) message⟩
      exact Models.congr (h.push []) rfl rfl
    | unwind garbage =>
      exact .inl ⟨by simp [World.answer, World.execute, hc], hfaulty (by simp [hc])⟩
  | copy session s =>
    cases hc : backend n with
    | ok =>
      refine .inr ⟨.ok _, (_, n + 1), g, hnext (by rw [hc, World.perform]), ?_, hspec.2 _⟩
      exact Models.congr (h.push []) rfl rfl
    | fail operation message garbage =>
      refine .inr ⟨.error message, (_, n + 1), g, hnext (by rw [hc, World.perform]), ?_,
        hspec.1 (hfaulty (by simp [hc])) message⟩
      exact Models.congr (h.push []) rfl rfl
    | unwind garbage =>
      exact .inl ⟨by simp [World.answer, World.perform, hc], hfaulty (by simp [hc])⟩
  | «lazy» => exact .inr ⟨(), (_, n), g, rfl, Models.congr (h.push []) rfl rfl, hspec⟩
  | panic => exact hspec.elim

theorem sound : (World.machine P i backend).Sound S.logic (fun rs g x => S.Models rs g x.1)
    S.faulty where
  perm hp h := h.perm hp
  drop h := h.release
  perform h hspec := sound_perform hbackend h hspec

end Sound

theorem models_fresh (device : ℕ) (limits : ResourceLimits P) (memory : Addr → α) {faulty : Prop} :
    Models (⟨limits, 0, faulty⟩ : Solo P) [] (fun _ => false)
      (World.fresh device limits memory) :=
  ⟨⟨Budget.new limits, rfl, rfl, Budget.accounts_new limits⟩, rfl⟩

/-- The precondition of a caller's code decides what it returns. -/
theorem outcome_of_wpx {β : Type} {backend : ℕ → Choice α}
    (hbackend : ¬ S.faulty → ∀ n, backend n = .ok) {code : Op α β} {Q : β → Prop} {X : Error → Prop}
    (hcode : S.logic.wpx code (fun b _ _ => Q b) (fun e _ _ => X e) [[]] g)
    (hw : S.Models [] g w) : w.outcome backend code = none ∧ S.faulty ∨
      (∃ b, w.outcome backend code = some (.ok b) ∧ Q b) ∨
      ∃ e, w.outcome backend code = some (.error e) ∧ X e := by
  rcases (sound (i := 0) hbackend).exec hcode (s := (w, 0)) hw with
    ⟨hnone, hf⟩ | ⟨r, fs, x, g', hexec, hpost, -⟩
  · exact .inl ⟨by rw [World.outcome, hnone]; rfl, hf⟩
  · have hout : w.outcome backend code = some r := by
      rw [World.outcome, hexec]
      rfl
    cases r with
    | ok b => exact .inr (.inl ⟨b, hout, hpost⟩)
    | error e => exact .inr (.inr ⟨e, hout, hpost⟩)

end Solo
end Gudra
