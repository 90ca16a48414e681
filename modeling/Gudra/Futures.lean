import Gudra.Requests

/-! How far an asynchronous call has come, and that only a failure of its own stops it. -/
namespace Gudra

open Scope

variable {P : Platform} {α : Type}

inductive Phase where
  | checking
  | admitted
  /-- The future is with the caller. -/
  | running
  | failing
deriving DecidableEq, Repr

/-- An asynchronous call asks for its operation once, before its future is handed out, and works
only after that; a bad answer is the last one. -/
def asyncSpec (r : Request P α) : (e : Effect α) → Frames Name Atom → Phase →
    (e.Rep → Frames Name Atom → Phase → Prop) → Prop
  | .completions, fs, g, post => g = .checking ∧ ∀ f, (r.check f = .ok () → post f fs .checking) ∧
    ∀ e, r.check f = .error e → post f fs .failing
  | .operation x s, fs, g, post => g = .checking ∧ s = r.session.id ∧
    (∀ e, post (.error e) fs .failing) ∧
    post (.ok ⟨s, 0, false⟩) (Frames.push [(x, .reservation ⟨s, 0, false⟩)] fs) .admitted
  | .lazy, fs, g, post => g = .admitted ∧ post () fs .running
  | .bind _, fs, g, post => g = .running ∧ (∀ e, post (.error e) fs .failing) ∧
    post (.ok ()) fs .running
  | .attempt, fs, g, post => g = .running ∧ (∀ e, post (.error e) fs .failing) ∧
    post (.ok ()) fs .running
  | .execute .., fs, g, post => g = .running ∧ (∀ e, post (.error e) fs .failing) ∧
    post (.ok ()) fs .running
  | _, _, _, _ => False

def asyncLogic (r : Request P α) : Logic (Effect.Rep (α := α)) Name Atom Phase where
  inv _ _ := True
  spec := asyncSpec r
  mono := by
    intro e fs g p q hpq h
    cases e with
    | completions =>
      exact ⟨h.1, fun f => ⟨fun hf => hpq _ _ _ ((h.2 f).1 hf),
        fun e he => hpq _ _ _ ((h.2 f).2 e he)⟩⟩
    | operation => exact ⟨h.1, h.2.1, fun e => hpq _ _ _ (h.2.2.1 e), hpq _ _ _ h.2.2.2⟩
    | «lazy» => exact ⟨h.1, hpq _ _ _ h.2⟩
    | bind | attempt | execute => exact ⟨h.1, fun e => hpq _ _ _ (h.2.1 e), hpq _ _ _ h.2.2⟩
    | _ => exact h.elim

/-- A future that runs without a failure returns with success; before that its own check may
refuse it. -/
def Request.settled (r : Request P α) (result : Except Error (Outcome P α))
    (_ : Frames Name Atom) (g : Phase) : Prop :=
  match result with
  | .ok _ => g = .running
  | .error e => g = .failing ∨ g = .checking ∧ ∀ u, r.check u = .error e

section Primitives

variable {r : Request P α} {fs : Frames Name Atom} {g : Phase} {session : Session}
  {X : Error → Frames Name Atom → Phase → Prop}

theorem async_dropAll : (asyncLogic r).dropAll fs g := ⟨fun _ _ => trivial, trivial⟩

theorem async_operation {x : Name} {Q : Reservation → Frames Name Atom → Phase → Prop}
    (hsession : session.id = r.session.id) (hX : ∀ e, X e fs .failing)
    (hQ : ∀ o fs, Q o fs .admitted) :
    (asyncLogic r).wpx (Op.operation x session) Q X fs .checking :=
  ⟨rfl, hsession, fun e => ⟨trivial, hX e⟩, trivial, hQ _ _⟩

theorem async_bind {Q : Unit → Frames Name Atom → Phase → Prop} (hX : ∀ e, X e fs .failing)
    (hQ : Q () fs .running) : (asyncLogic r).wpx (Op.bindDevice session) Q X fs .running :=
  ⟨rfl, fun _ => ⟨trivial, hX _⟩, trivial, hQ⟩

theorem async_attempt {Q : Unit → Frames Name Atom → Phase → Prop} (hX : ∀ e, X e fs .failing)
    (hQ : Q () fs .running) : (asyncLogic r).wpx (Op.attempt (α := α)) Q X fs .running :=
  ⟨rfl, fun _ => ⟨trivial, hX _⟩, trivial, hQ⟩

theorem async_execute {label : String} {l : Launch α} {Q : Unit → Frames Name Atom → Phase → Prop}
    (hX : ∀ e, X e fs .failing) (hQ : Q () fs .running) :
    (asyncLogic r).wpx (Op.execute label session l) Q X fs .running :=
  ⟨rfl, fun _ => ⟨trivial, hX _⟩, trivial, hQ⟩

theorem async_scope {β : Type} {params kept : List (Name × Name)} {m : Op α β}
    {Q : β → Frames Name Atom → Phase → Prop}
    (hm : (asyncLogic r).wpx m (fun b fs g => Q b (fs.yield kept).tail g)
      (fun e fs g => X e fs.tail g) (fs.enter params) g) :
    (asyncLogic r).wpx (scope params kept m) Q X fs g := by
  refine Logic.wpx_scope.mpr ⟨trivial, Logic.wpx_mono ?_ ?_ hm⟩
  · intro b fs g hb
    exact ⟨trivial, async_dropAll, hb⟩
  · intro e fs g he
    exact ⟨async_dropAll, he⟩

/-- The validation of the arguments. -/
theorem async_check {β : Type} {m : Op α β} {check : (ℕ → Bool) → Except Error Unit}
    {Q : β → Frames Name Atom → Phase → Prop} (hcheck : ∀ f, check f = r.check f)
    (hX : ∀ e, X e fs .failing) (hm : (asyncLogic r).wpx m Q X fs .checking) :
    (asyncLogic r).wpx (do
      let uncertain ← Op.completions
      Op.ofExcept (check uncertain)
      m) Q X fs .checking := by
  have hrest : ∀ (f : ℕ → Bool) (g : Phase),
      (∀ u, r.check f = .ok u → (asyncLogic r).wpx m Q X fs g) →
      (∀ e, r.check f = .error e → X e fs g) →
      (asyncLogic r).wpx (Op.ofExcept (check f) >>= fun _ => m) Q X fs g := by
    intro f g hok herror
    rw [Logic.wpx_bind, wpx_ofExcept, hcheck]
    exact ⟨hok, herror⟩
  rw [Logic.wpx_bind]
  refine ⟨rfl, fun f => ⟨fun hok => ⟨trivial, ?_⟩, fun e he => ⟨trivial, ?_⟩⟩⟩
  · exact hrest f .checking (fun _ _ => hm) fun e he => nomatch he.symm.trans hok
  · exact hrest f .failing (fun u hok => nomatch he.symm.trans hok) fun e _ => hX e

/-- The part of a call before its future is handed out, and the future. -/
theorem async_lazy {β γ : Type} {m : Op α β} {n : Op α γ}
    {Q : γ → Frames Name Atom → Phase → Prop}
    (hm : (asyncLogic r).wpx m (fun _ _ g => g = .admitted) X fs g)
    (hn : ∀ fs, (asyncLogic r).wpx n Q X fs .running) :
    (asyncLogic r).wpx (m >>= fun _ => Op.lazy (α := α) >>= fun _ => n) Q X fs g := by
  rw [Logic.wpx_bind]
  refine Logic.wpx_mono ?_ (fun _ _ _ he => he) hm
  rintro b fs g rfl
  rw [Logic.wpx_bind]
  exact ⟨rfl, trivial, hn fs⟩

end Primitives

section Calls

variable {r : Request P α} {fs : Frames Name Atom} {X : Error → Frames Name Atom → Phase → Prop}

theorem async_stepIntoAsync {session : Session} {source : HaloGrid2D P} {rhs output : Field2D P}
    {params : JacobiParams α} (hr : r = .stepIntoAsync session source rhs output params)
    (hkept : source.Kept) (hX : ∀ e fs, X e fs .failing)
    {Q : StepBuffers P → Frames Name Atom → Phase → Prop} (hQ : ∀ b fs, Q b fs .running) :
    (asyncLogic r).wpx (Gpu.stepIntoAsync session source rhs output params) Q X fs .checking := by
  subst hr
  rw [Gpu.stepIntoAsync]
  refine async_lazy (async_scope ?_) fun fs => async_scope ?_
  · refine async_check (fun _ => rfl) (fun e => hX e _) ?_
    exact async_operation rfl (fun e => hX e _) fun _ _ => rfl
  · rw [Logic.wpx_bind, Logic.wpx_rebind]
    refine ⟨trivial, ?_⟩
    rw [Logic.wpx_bind]
    refine async_bind (fun e => hX e _) ?_
    rw [Logic.wpx_bind, Gpu.views, Logic.wpx_bind]
    refine async_attempt (fun e => hX e _) ?_
    rw [wpx_ofFallible (directionalViews_eq hkept.rowMajor), Logic.wpx_bind]
    exact async_execute (fun e => hX e _) (hQ _ _)

theorem async_stepsAsync {session : Session} {params : JacobiParams α} {n : ℕ}
    {self : DoubleGrid P} (hle : self.completed + n ≤ P.usizeMax) (hX : ∀ e fs, X e fs .failing)
    {Q : DoubleGrid P → Frames Name Atom → Phase → Prop} (hQ : ∀ d fs, Q d fs .running) :
    (asyncLogic r).wpx (DoubleGrid.stepsAsync session params n self) Q X fs .running := by
  induction n generalizing self fs with
  | zero => exact hQ self fs
  | succ n ih =>
    have hadd : P.checkedAdd self.completed 1 = some (self.completed + 1) :=
      checkedAdd_eq rfl (by omega)
    rw [DoubleGrid.stepsAsync, Logic.wpx_bind]
    refine async_bind (fun e => hX e fs) ?_
    rw [Logic.wpx_bind]
    refine async_execute (fun e => hX e fs) ?_
    rw [Logic.wpx_bind, DoubleGrid.swapCompleted, Logic.wpx_bind, Logic.wpx_rebind]
    refine ⟨trivial, ?_⟩
    rw [Logic.wpx_bind, wpx_checked hadd]
    exact ih (by simp only; omega)

theorem async_advanceAsync {grid : DoubleGrid P} {count : ℕ} {params : JacobiParams α}
    (hr : r = .advanceAsync grid count params) (hX : ∀ e fs, X e fs .failing)
    (hcheck : ∀ e fs, grid.checkCount count = .error e → X e fs .checking)
    {Q : DoubleGrid P → Frames Name Atom → Phase → Prop} (hQ : ∀ d fs, Q d fs .running) :
    (asyncLogic r).wpx (grid.advanceAsync count params) Q X fs .checking := by
  subst hr
  rw [DoubleGrid.advanceAsync]
  cases hc : grid.checkCount count with
  | error e => exact ⟨trivial, async_dropAll, hcheck e _ hc⟩
  | ok u =>
    refine async_lazy (async_scope ?_) fun fs => async_scope ?_
    · exact async_operation rfl (fun e => hX e _) fun _ _ => rfl
    · rw [Logic.wpx_bind, Logic.wpx_rebind]
      refine ⟨trivial, async_stepsAsync (checkCount_eq_ok.mp hc) (fun e _ => hX e _) ?_⟩
      exact fun d _ => hQ d _

theorem async_code [Scalar α] (hasync : r.isAsync = true) (hkept : ∀ o ∈ r.named, o.Kept) :
    (asyncLogic r).wp r.code r.settled fs .checking := by
  have hcode : ∀ {β : Type} {m : Op α β} {f : β → Outcome P α},
      (asyncLogic r).wpx m (fun _ _ g => g = .running)
        (fun e _ g => g = .failing ∨ g = .checking ∧ ∀ u, r.check u = .error e) fs .checking →
      r.code = (do return f (← m) : Op α (Outcome P α)).run →
      (asyncLogic r).wp r.code r.settled fs .checking := by
    intro β m f hm hcode
    have hbind : (asyncLogic r).wpx (do return f (← m)) (fun _ _ g => g = .running)
        (fun e _ g => g = .failing ∨ g = .checking ∧ ∀ u, r.check u = .error e) fs .checking :=
      Logic.wpx_bind.mpr hm
    rw [hcode]
    refine Logic.wp_mono ?_ hbind
    intro result fs g h
    cases result with
    | ok o => exact h
    | error e => exact h
  cases r with
  | stepIntoAsync session source rhs output params =>
    refine hcode (async_stepIntoAsync rfl (hkept (.halo source) List.mem_cons_self)
      (fun _ _ => .inl rfl) fun _ _ => rfl) rfl
  | advanceAsync grid count params =>
    refine hcode (async_advanceAsync rfl (fun _ _ => .inl rfl)
      (fun e fs he => .inr ⟨rfl, fun _ => he⟩) fun _ _ => rfl) rfl
  | _ => cases hasync

end Calls
end Gudra
