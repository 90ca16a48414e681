import Gudra.Progress

/-! What one step of a run does to the tasks. -/
namespace Gudra

open Scope Interleave

variable {P : Platform} {α : Type}

/-- By the input, task `i` of `w` leaves the state `t` and records events, newest first. -/
inductive Task.Moves (w : World P α) (i : ℕ) (t : Task P α) :
    Input P α → Task P α → List (Event P α) → Prop where
  | internal {choice : Choice α} {c c' : Script α (Except Error (Outcome P α))} {d : Option Atom}
      {frames : Frames Name Atom} (control : t.control = .active c)
      (moves : c.internal t.frames = some (d, c', frames)) :
      t.Moves w i (.tick i choice) { t with frames, control := .active c' } []
  | reply {choice : Choice α} {e : Effect α} {k : e.Rep → Script α (Except Error (Outcome P α))}
      {rep : e.Rep} {w' : World P α} {es : List (Event P α)}
      (control : t.control = .active (.eff e k)) (performs : w.perform i choice e = some (rep, w'))
      (log : w'.log = es ++ w.log) : t.Moves w i (.tick i choice)
        { t with frames := Frames.push (e.gain rep) t.frames, control := .active (k rep) } es
  | panic {choice : Choice α} {e : Effect α} {k : e.Rep → Script α (Except Error (Outcome P α))}
      (control : t.control = .active (.eff e k)) (stops : ¬ Stops (.eff e k))
      (performs : w.perform i choice e = none) :
      t.Moves w i (.tick i choice) { t with control := .unwinding } []
  | hand {choice : Choice α} {k : Unit → Script α (Except Error (Outcome P α))}
      (control : t.control = .active (.eff .lazy k)) :
      t.Moves w i (.tick i choice) { t with control := .suspended (k ()) } [.created i]
  | submit {s : ℕ} {l : Launch α} {k : Except String Unit → Script α (Except Error (Outcome P α))}
      (control : t.control = .active (.eff (.execute s l) k)) (pending : t.pending = none) :
      t.Moves w i (.tick i .ok) { t with pending := some w.flights.length }
        [.submitted i l, .device i true]
  | suspend {n s : ℕ} {l : Launch α}
      {k : Except String Unit → Script α (Except Error (Outcome P α))}
      (control : t.control = .active (.eff (.execute s l) k)) (pending : t.pending = some n)
      (isAsync : t.request.any Call.isAsync = true) :
      t.Moves w i (.tick i .ok) { t with control := .suspended (.eff (.execute s l) k) } []
  | resume {n s : ℕ} {l : Launch α}
      {k : Except String Unit → Script α (Except Error (Outcome P α))}
      (control : t.control = .active (.eff (.execute s l) k)) (pending : t.pending = some n) :
      t.Moves w i (.tick i .ok) { t with pending := none, control := .active (k (.ok ())) } []
  | fail {operation message : String} {garbage : ℕ → α} {s : ℕ} {l : Launch α}
      {k : Except String Unit → Script α (Except Error (Outcome P α))} {es : List (Event P α)}
      (control : t.control = .active (.eff (.execute s l) k))
      (events : es = [.failed i l] ∨ es = [.failed i l, .device i true]) :
      t.Moves w i (.tick i (.fail operation message garbage))
        { t with pending := none, control := .active (k (.error message)) } es
  | crash {garbage : ℕ → α} {s : ℕ} {l : Launch α}
      {k : Except String Unit → Script α (Except Error (Outcome P α))} {es : List (Event P α)}
      (control : t.control = .active (.eff (.execute s l) k))
      (events : es = [.failed i l] ∨ es = [.failed i l, .device i true]) :
      t.Moves w i (.tick i (.unwind garbage)) { t with pending := none, control := .unwinding } es
  | settle {choice : Choice α} {n : ℕ} {es : List (Event P α)} (control : t.control = .unwinding)
      (pending : t.pending = some n) (events : es = [] ∨ ∃ l, es = [.failed i l]) :
      t.Moves w i (.tick i choice) { t with pending := none } es
  | drop {choice : Choice α} {d : Option Atom} {frames : Frames Name Atom}
      (control : t.control = .unwinding) (pending : t.pending = none)
      (unwinds : t.frames.unwind = some (d, frames)) :
      t.Moves w i (.tick i choice) { t with frames } []
  | finish {choice : Choice α} (control : t.control = .unwinding) (pending : t.pending = none)
      (unwinds : t.frames.unwind = none) :
      t.Moves w i (.tick i choice) { t with control := .finished, shared := [], lent := [] } []
  | «return» {choice : Choice α} {result : Except Error (Outcome P α)}
      {args : List (Bool × List α)} {stored : List (List α)}
      (control : t.control = .active (.ret result)) : t.Moves w i (.tick i choice)
        { t with frames := [], control := .finished, shared := [], lent := [] }
        (t.request.toList.map fun r => .returned i r result args stored)
  | poll {c : Script α (Except Error (Outcome P α))} (control : t.control = .suspended c) :
      t.Moves w i (.poll i) { t with control := .active c } [.polled i]
  | cancel {c : Script α (Except Error (Outcome P α))} (control : t.control = .suspended c) :
      t.Moves w i (.cancel i) { t with control := .unwinding } [.cancelled i]
  | forget {c : Script α (Except Error (Outcome P α))} (control : t.control = .suspended c) :
      t.Moves w i (.forget i) { t with control := .forgotten c } [.forgotten i]

/-- A call starts, or an owner goes out of scope. -/
inductive Task.Starts [Scalar α] (w : World P α) : Input P α → Task P α → Prop where
  | call {c : Invocation P α} {r : Request P α} (resolves : w.resolve c = some r)
      (permitted : w.Permitted c) : Starts w (.call c)
        { request := some r, frames := [r.entries], control := .active r.code, pending := none,
          shared := w.borrow c.shared, lent := w.borrow c.lent }
  | drop {n : ℕ} {o : Owner P} (owner : w.owner? n = some o) :
      Starts w (.dropOwner n) ⟨none, [o.entries], .unwinding, none, [], []⟩

namespace World

variable {w : World P α} {i : ℕ} {t t' : Task P α} {x : Input P α}

/-- The input moves no task, moves one or starts one. -/
inductive Steps [Scalar α] (w : World P α) (x : Input P α) (w' : World P α) : Prop where
  | rest (es : List (Event P α)) (tasks : w'.tasks = w.tasks) (log : w'.log = es ++ w.log)
  | move {i : ℕ} {t t' : Task P α} {es : List (Event P α)} (task : w.tasks[i]? = some t)
      (moves : t.Moves w i x t' es) (tasks : w'.tasks = w.tasks.set i t')
      (log : w'.log = es ++ w.log)
  | start {t : Task P α} (es : List (Event P α)) (starts : t.Starts w x)
      (tasks : w'.tasks = w.tasks ++ [t]) (log : w'.log = es ++ w.log)

variable [Scalar α]

theorem steps_resumeFailed {s : ℕ} {l : Launch α} (es : List (Event P α))
    {k : Except String Unit → Script α (Except Error (Outcome P α))} {choice : Choice α}
    {w₁ : World P α} (hi : w.tasks[i]? = some t)
    (hc : t.control = .active (.eff (.execute s l) k)) (htasks : w₁.tasks = w.tasks)
    (hlog : w₁.log = es ++ w.log) (hes : es = [] ∨ es = [.device i true]) :
    Steps w (.tick i choice) (w₁.resumeFailed i t l k choice) := by
  have hevents : .failed i l :: es = [.failed i l] ∨
      .failed i l :: es = [.failed i l, .device i true] := by
    rcases hes with rfl | rfl
    · exact .inl rfl
    · exact .inr rfl
  have hset := fun t' : Task P α => congrArg (fun ts : List (Task P α) => ts.set i t') htasks
  cases choice with
  | ok => exact .rest es htasks hlog
  | fail => exact .move hi (.fail hc hevents) (hset _) (congrArg _ hlog)
  | unwind => exact .move hi (.crash hc hevents) (hset _) (congrArg _ hlog)

theorem steps_perform (hi : w.tasks[i]? = some t) {choice : Choice α} {e : Effect α}
    {k : e.Rep → Script α (Except Error (Outcome P α))} (hc : t.control = .active (.eff e k))
    (hstops : ¬ Stops (.eff e k)) : Steps w (.tick i choice)
      (match w.perform i choice e with
        | none => w.setTask i { t with control := .unwinding }
        | some (rep, w) => w.setTask i
          { t with frames := Frames.push (e.gain rep) t.frames, control := .active (k rep) }) := by
  cases hp : w.perform i choice e with
  | none => exact .move hi (.panic hc hstops hp) rfl rfl
  | some x =>
    obtain ⟨rep, w'⟩ := x
    obtain ⟨htasks, es, hes, -⟩ := perform_grows hp
    exact .move hi (.reply hc hp hes) (congrArg (fun ts : List (Task P α) => ts.set i _) htasks) hes

theorem steps_await {n s : ℕ} {l : Launch α}
    {k : Except String Unit → Script α (Except Error (Outcome P α))} (hi : w.tasks[i]? = some t)
    (hc : t.control = .active (.eff (.execute s l) k)) (hp : t.pending = some n)
    (choice : Choice α) : Steps w (.tick i choice) (w.await i t n s l k choice) := by
  simp only [await]
  cases w.flights[n]? with
  | none => exact .rest [] rfl rfl
  | some f =>
    cases choice with
    | ok =>
      simp only
      split
      · exact .move hi (.resume hc hp) rfl rfl
      · split
        · rename_i hasync
          exact .move hi (.suspend hc hp hasync) rfl rfl
        · exact .rest [] rfl rfl
    | fail | unwind => exact steps_resumeFailed [] hi hc rfl rfl (.inl rfl)

theorem steps_effect (hi : w.tasks[i]? = some t) {choice : Choice α} {e : Effect α}
    {k : e.Rep → Script α (Except Error (Outcome P α))} (hc : t.control = .active (.eff e k)) :
    Steps w (.tick i choice) (w.effect i t choice e k) := by
  cases e with
  | «lazy» => exact .move hi (.hand hc) rfl rfl
  | execute s l =>
    simp only [effect]
    cases hp : t.pending with
    | none =>
      cases choice with
      | ok => exact .move hi (.submit hc hp) rfl rfl
      | fail | unwind => exact steps_resumeFailed [.device i true] hi hc rfl rfl (.inr rfl)
    | some n => exact steps_await hi hc hp choice
  | _ => exact steps_perform hi hc (by rintro ⟨⟩)

theorem steps_unwindTask (hi : w.tasks[i]? = some t) (hc : t.control = .unwinding)
    (choice : Choice α) : Steps w (.tick i choice) (w.unwindTask i t choice) := by
  cases hp : t.pending with
  | none =>
    cases hu : t.frames.unwind with
    | none =>
      have heq : w.unwindTask i t choice =
          w.setTask i { t with control := .finished, shared := [], lent := [] } := by
        simp only [unwindTask, hp, hu]
      rw [heq]
      exact .move hi (.finish hc hp hu) rfl rfl
    | some x =>
      obtain ⟨d, frames⟩ := x
      have heq : w.unwindTask i t choice = (w.release d).setTask i { t with frames } := by
        simp only [unwindTask, hp, hu]
      have htasks := congrArg (fun ts : List (Task P α) => ts.set i { t with frames })
        (release_tasks w d)
      rw [heq]
      exact .move hi (.drop hc hp hu) htasks (release_log w d)
  | some n =>
    simp only [unwindTask, hp]
    cases w.flights[n]? with
    | none => exact .rest [] rfl rfl
    | some f =>
      cases choice with
      | ok =>
        simp only
        split
        · exact .move hi (.settle hc hp (.inl rfl)) rfl rfl
        · exact .rest [] rfl rfl
      | fail operation message garbage | unwind garbage =>
        exact .move hi (.settle hc hp (.inr ⟨f.launch, rfl⟩)) rfl rfl

theorem steps_tick (i : ℕ) (choice : Choice α) : Steps w (.tick i choice) (w.tick i choice) := by
  simp only [tick]
  cases hi : w.tasks[i]? with
  | none => exact .rest [] rfl rfl
  | some t =>
    cases hc : t.control with
    | active c =>
      cases hint : c.internal t.frames with
      | some x =>
        obtain ⟨d, c', frames⟩ := x
        have htasks := congrArg (fun ts : List (Task P α) => ts.set i
          { t with frames, control := .active c' }) (release_tasks w d)
        simp only [hc, hint]
        exact .move hi (.internal hc hint) htasks (release_log w d)
      | none =>
        simp only [hc, hint]
        cases c with
        | ret result =>
          simp only [complete]
          split
          · rename_i r hr
            have hmoves := @Task.Moves.return P α w i t choice result (w.snapshot r.borrowed)
              ((w.snapshot (result.toOption.elim [] Outcome.stored)).map Prod.snd) hc
            refine .move hi hmoves rfl ?_
            simp only [hr]
            rfl
          · rename_i hr
            refine .move hi (@Task.Moves.return P α w i t choice result [] [] hc) rfl ?_
            simp only [hr]
            rfl
        | eff e k => exact steps_effect hi hc
        | own | enter | yield | exit => exact .rest [] rfl rfl
    | unwinding =>
      simp only [hc]
      exact steps_unwindTask hi hc choice
    | suspended | forgotten | finished =>
      simp only [hc]
      exact .rest [] rfl rfl

theorem steps_resume (event : Event P α)
    {control : Script α (Except Error (Outcome P α)) → Control P α}
    (hmoves : ∀ (t : Task P α) c, t.control = .suspended c →
      t.Moves w i x { t with control := control c } [event]) :
    Steps w x (w.resume i event control) := by
  simp only [resume]
  cases hi : w.tasks[i]? with
  | none => exact .rest [] rfl rfl
  | some t =>
    cases hc : t.control with
    | suspended c =>
      simp only [hc]
      exact .move hi (hmoves t c hc) rfl rfl
    | active | forgotten | unwinding | finished =>
      simp only [hc]
      exact .rest [] rfl rfl

/-- Every step is one of these. -/
theorem steps (w : World P α) (x : Input P α) : Steps w x (w.step x) := by
  cases x with
  | newGpu device limits => exact .rest [] rfl rfl
  | call c =>
    simp only [step, call]
    cases hr : w.resolve c with
    | none => exact .rest [] rfl rfl
    | some r =>
      simp only
      split
      · rename_i hpermitted
        exact .start [_] (.call hr hpermitted) rfl rfl
      · exact .rest [] rfl rfl
  | tick i choice => exact steps_tick i choice
  | poll i => exact steps_resume _ fun t c hc => .poll hc
  | cancel i => exact steps_resume _ fun t c hc => .cancel hc
  | forget i => exact steps_resume _ fun t c hc => .forget hc
  | dropOwner n =>
    simp only [step, dropOwner]
    cases ho : w.owner? n with
    | none => exact .rest [] rfl rfl
    | some o =>
      simp only
      split
      · exact .start [] (.drop ho) rfl rfl
      · exact .rest [] rfl rfl
  | forgetOwner n =>
    simp only [step, forgetOwner]
    cases w.owner? n with
    | none => exact .rest [] rfl rfl
    | some o =>
      simp only
      split <;> exact .rest [] rfl rfl
  | access n b =>
    simp only [step, access]
    split
    · exact .rest [] rfl rfl
    · split <;> exact .rest [] rfl rfl
  | finish n =>
    simp only [step, finish]
    split
    · exact .rest [] rfl rfl
    · split
      · exact .rest [_] rfl rfl
      · exact .rest [] rfl rfl

/-- After a step a task is as it was, or it has moved, or it is new. -/
theorem step_task (hi : (w.step x).tasks[i]? = some t') :
    ∃ es, (w.step x).log = es ++ w.log ∧ (w.tasks[i]? = some t' ∨
      (∃ t, w.tasks[i]? = some t ∧ t.Moves w i x t' es) ∨ t'.Starts w x) := by
  cases steps w x with
  | rest es htasks hlog => exact ⟨es, hlog, .inl (htasks ▸ hi)⟩
  | @move j t t₁ es hj hm htasks hlog =>
    refine ⟨es, hlog, ?_⟩
    rw [htasks] at hi
    by_cases hij : i = j
    · subst hij
      rw [List.getElem?_set_self (List.getElem?_eq_some_iff.mp hj).1] at hi
      obtain rfl := Option.some.inj hi
      exact .inr (.inl ⟨t, hj, hm⟩)
    · rw [List.getElem?_set_ne (Ne.symm hij)] at hi
      exact .inl hi
  | start es hstarts htasks hlog =>
    refine ⟨es, hlog, ?_⟩
    rw [htasks] at hi
    by_cases hlt : i < w.tasks.length
    · rw [List.getElem?_append_left hlt] at hi
      exact .inl hi
    · rw [List.getElem?_append_right (not_lt.mp hlt)] at hi
      obtain rfl := List.mem_singleton.mp (List.mem_of_getElem? hi)
      exact .inr (.inr hstarts)

/-- A run only adds to the log. -/
theorem run_log (xs : List (Input P α)) : ∃ es, (w.run xs).log = es ++ w.log := by
  induction xs generalizing w with
  | nil => exact ⟨[], rfl⟩
  | cons x xs ih =>
    obtain ⟨es, hes⟩ := ih (w := w.step x)
    have hstep : ∃ es, (w.step x).log = es ++ w.log := by
      cases steps w x with
      | rest es htasks hlog => exact ⟨es, hlog⟩
      | move hi hm htasks hlog => exact ⟨_, hlog⟩
      | start es hstarts htasks hlog => exact ⟨es, hlog⟩
    obtain ⟨es', hes'⟩ := hstep
    exact ⟨es ++ es', by rw [List.append_assoc, ← hes', ← hes]; rfl⟩

end World
end Gudra
