import Gudra.Resolution

/-! Every step of a run keeps the invariant. -/
namespace Gudra

open Scope Interleave

variable {P : Platform} {α : Type} [Scalar α]

namespace World

variable {w : World P α} {i : ℕ} {t : Task P α} {c : Script α (Except Error (Outcome P α))}

theorem Inv.idle (h : w.Inv) (hi : w.tasks[i]? = some t) (hc : t.control = .active c)
    (hne : ∀ s l k, c ≠ .eff (.execute s l) k) : t.pending = none :=
  (Goes.idle (h.active hi hc).1 hne).1

/-- The backend is reached and answers. -/
theorem inv_device (h : w.Inv) (hi : w.tasks[i]? = some t) (hc : t.control = .active c)
    (hne : ∀ s l k, c ≠ .eff (.execute s l) k) (b : Bool)
    {c' : Script α (Except Error (Outcome P α))}
    (hspec : ∀ r before u m g, Runs w i t r before u m → Knows w i t.reach g →
      ((r.terms (Ghost.start before u)).logic P).wp c (r.post (Ghost.start before u)) t.frames g →
      r.check u = .ok () ∧ ∃ g', (g' = g ∧ b = true ∨ g' = g.stop ∧ b = false) ∧ r.inv t.frames g' ∧
        ((r.terms (Ghost.start before u)).logic P).wp c' (r.post (Ghost.start before u))
          t.frames g') :
    ((w.record (.device i b)).setTask i { t with control := .active c' }).Inv := by
  have hes : ∀ e ∈ [(Event.device i b : Event P α)], ∃ b, e = .device i b := by
    intro e he
    exact ⟨b, List.mem_singleton.mp he⟩
  refine inv_reply h hi hc hne hes fun r before u m g hr hk hwp => ?_
  obtain ⟨hcheck, g', hg', hinv, hwp'⟩ := hspec r before u m g hr hk hwp
  refine ⟨fun _ _ => hcheck, g', hg'.imp ?_ ?_, hinv, hwp'⟩
  · rintro ⟨rfl, rfl⟩
    exact ⟨rfl, fun hmem => nomatch List.mem_singleton.mp hmem⟩
  · rintro ⟨rfl, rfl⟩
    exact ⟨rfl, List.mem_cons_self⟩

/-- An answer that nobody records. -/
theorem inv_answer (h : w.Inv) (hi : w.tasks[i]? = some t) (hc : t.control = .active c)
    (hne : ∀ s l k, c ≠ .eff (.execute s l) k) {c' : Script α (Except Error (Outcome P α))}
    (hspec : ∀ r before u m g, Runs w i t r before u m → Knows w i t.reach g →
      ((r.terms (Ghost.start before u)).logic P).wp c (r.post (Ghost.start before u)) t.frames g →
      r.inv t.frames g ∧ ((r.terms (Ghost.start before u)).logic P).wp c'
        (r.post (Ghost.start before u)) t.frames g) :
    (w.setTask i { t with control := .active c' }).Inv := by
  have hes : ∀ e ∈ ([] : List (Event P α)), ∃ b, e = .device i b :=
    fun _ he => absurd he List.not_mem_nil
  refine inv_reply h hi hc hne hes fun r before u m g hr hk hwp => ?_
  exact ⟨fun _ he => absurd he List.not_mem_nil, g, .inl ⟨rfl, List.not_mem_nil⟩,
    hspec r before u m g hr hk hwp⟩

/-- The next effect of a task. -/
theorem inv_effect (h : w.Inv) (hi : w.tasks[i]? = some t) (choice : Choice α) (e : Effect α)
    (k : e.Rep → Script α (Except Error (Outcome P α))) (hc : t.control = .active (.eff e k)) :
    (w.effect i t choice e k).Inv := by
  cases e with
  | buffer x s bytes =>
    have hpending := h.idle hi hc nofun
    simp only [effect, perform]
    cases hp : w.reserve i s (fun b => Budget.buffer b.limits s bytes) with
    | none => exact inv_panic h hi hpending
    | some x' =>
      obtain ⟨rep, w₁⟩ := x'
      refine inv_admit (x := x) h hi hc nofun (admits_buffer hp) ?_ ?_ ?_
      · rintro rfl
        rfl
      · rintro e rfl
        rfl
      · rintro C Q g ⟨hs, he, hinv, hwp⟩
        exact ⟨hs, he, hinv, hwp⟩
  | operation x s =>
    have hpending := h.idle hi hc nofun
    simp only [effect, perform]
    cases hp : w.reserve i s (fun b => Budget.operation b.limits s) with
    | none => exact inv_panic h hi hpending
    | some x' =>
      obtain ⟨rep, w₁⟩ := x'
      refine inv_admit (x := x) h hi hc nofun (admits_operation hp) ?_ ?_ ?_
      · rintro rfl
        rfl
      · rintro e rfl
        rfl
      · rintro C Q g ⟨hs, he, hinv, hwp⟩
        exact ⟨hs, he, hinv, hwp⟩
  | bind s =>
    cases choice with
    | ok =>
      refine inv_device h hi hc nofun true ?_
      rintro r before u m g hr hk ⟨hwork, herr, hinv, hwp⟩
      exact ⟨hwork, g, .inl ⟨rfl, rfl⟩, hinv, hwp⟩
    | fail operation message garbage =>
      refine inv_device h hi hc nofun false ?_
      rintro r before u m g hr hk ⟨hwork, herr, hinv, hwp⟩
      exact ⟨hwork, g.stop, .inr ⟨rfl, rfl⟩, herr message⟩
    | unwind garbage => exact inv_panic h hi (h.idle hi hc nofun)
  | attempt =>
    cases choice with
    | ok =>
      refine inv_answer h hi hc nofun ?_
      intro r before u m g hr hk hspec
      exact hspec (.ok ())
    | fail operation message garbage =>
      refine inv_answer h hi hc nofun ?_
      intro r before u m g hr hk hspec
      exact hspec _
    | unwind garbage => exact inv_panic h hi (h.idle hi hc nofun)
  | upload x session data =>
    cases choice with
    | ok => exact inv_upload h hi hc rfl
    | fail operation message garbage =>
      refine inv_device h hi hc nofun false ?_
      rintro r before u m g hr hk ⟨hwork, herr, -⟩
      exact ⟨hwork, g.stop, .inr ⟨rfl, rfl⟩, herr message⟩
    | unwind garbage => exact inv_panic h hi (h.idle hi hc nofun)
  | completions =>
    refine inv_answer h hi hc nofun ?_
    intro r before u m g hr hk hspec
    refine hspec w.uncertain fun id hid => (hk.uncertain_eq id ?_).symm
    rwa [reach_eq hr] at hid
  | setCompletion id uncertain => exact inv_setCompletion h hi hc
  | execute s l =>
    cases hpending : t.pending with
    | none =>
      simp only [effect, hpending]
      cases choice with
      | ok => exact inv_submit h hi hc hpending
      | fail operation message garbage =>
        have hne : Choice.fail operation message garbage ≠ .ok := nofun
        exact inv_submitFailed h hi hc hpending hne
      | unwind garbage =>
        have hne : Choice.unwind garbage ≠ .ok := nofun
        exact inv_submitFailed h hi hc hpending hne
    | some n =>
      simp only [effect, hpending]
      exact inv_await h hi hc hpending choice
  | copy session s =>
    cases choice with
    | ok =>
      refine inv_device h hi hc nofun true ?_
      rintro r before u m g hr hk ⟨hwork, hreach, hready, herr, hinv, hwp⟩
      rw [reach_eq hr] at hreach
      refine ⟨hwork, g, .inl ⟨rfl, rfl⟩, hinv, ?_⟩
      rw [Knows.contents_eq h hk hreach hready]
      exact hwp
    | fail operation message garbage =>
      refine inv_device h hi hc nofun false ?_
      rintro r before u m g hr hk ⟨hwork, -, -, herr, -⟩
      exact ⟨hwork, g.stop, .inr ⟨rfl, rfl⟩, herr message⟩
    | unwind garbage => exact inv_panic h hi (h.idle hi hc nofun)
  | «lazy» => exact inv_lazy h hi hc
  | panic => exact inv_panic h hi (h.idle hi hc nofun)

/-- The next move of a task. -/
theorem inv_tick (h : w.Inv) (i : ℕ) (choice : Choice α) : (w.tick i choice).Inv := by
  simp only [tick]
  cases hi : w.tasks[i]? with
  | none => exact h
  | some t =>
    cases hc : t.control with
    | active c =>
      cases hint : c.internal t.frames with
      | some x =>
        obtain ⟨d, c', frames⟩ := x
        simp only [hc, hint]
        exact inv_internal h hi hc hint
      | none =>
        simp only [hc, hint]
        cases c with
        | ret result =>
          obtain ⟨⟨r, before, u, m, g, hr, -⟩, -⟩ := h.active hi hc
          have hcomplete : w.complete i t result = w.returned i t r result := by
            simp only [complete, returned, hr.request_eq]
          simp only [hcomplete]
          exact inv_returned h hi hc hr.request_eq
        | eff e k => exact inv_effect h hi choice e k hc
        | own | enter | yield | exit => exact h
    | unwinding =>
      simp only [hc]
      exact inv_unwind h hi hc choice
    | suspended | forgotten | finished =>
      simp only [hc]
      exact h

/-- A future is polled, dropped or forgotten. -/
theorem inv_resume (h : w.Inv) (i : ℕ) (event : Event P α)
    (control : Script α (Except Error (Outcome P α)) → Control P α)
    (hstep : ∀ t c, w.tasks[i]? = some t → t.control = .suspended c →
      ((w.record event).setTask i { t with control := control c }).Inv) :
    (w.resume i event control).Inv := by
  simp only [resume]
  cases hi : w.tasks[i]? with
  | none => exact h
  | some t =>
    cases hc : t.control with
    | suspended c =>
      simp only [hc]
      exact hstep t c hi hc
    | active | forgotten | unwinding | finished =>
      simp only [hc]
      exact h

/-- One access of a running kernel. -/
theorem inv_accessed (h : w.Inv) (n b : ℕ) : (w.access n b).Inv := by
  simp only [access]
  cases hf : w.flights[n]? with
  | none => exact h
  | some f =>
    cases hrun : f.state with
    | running =>
      cases hp : f.progs[b]? with
      | none =>
        simp only [hrun, hp]
        exact h
      | some p =>
        cases hstep : p.step w.memory with
        | none =>
          simp only [hrun, hp, Option.bind_some, hstep]
          exact h
        | some x =>
          obtain ⟨acc, memory, p'⟩ := x
          have haccess := inv_access h hf hrun hp hstep
          simp only [hrun] at haccess
          simp only [hrun, hp, Option.bind_some, hstep]
          exact haccess
    | completed | failed =>
      simp only [hrun]
      exact h

/-- A kernel ends. -/
theorem inv_finished (h : w.Inv) (n : ℕ) : (w.finish n).Inv := by
  simp only [finish]
  cases hf : w.flights[n]? with
  | none => exact h
  | some f =>
    by_cases hdone : f.state = .running ∧ f.progs.all Prog.finished = true
    · simp only [hdone]
      exact inv_finish h hf hdone.1 (List.all_eq_true.mp hdone.2)
    · simp only [hdone, if_false]
      exact h

/-- One step keeps the invariant. -/
theorem inv_step (h : w.Inv) (input : Input P α) : (w.step input).Inv := by
  cases input with
  | newGpu device limits => exact inv_newGpu h device limits
  | call c => exact inv_call h c
  | tick i choice => exact inv_tick h i choice
  | poll i => exact inv_resume h i _ _ fun t c hi hc => inv_poll h hi hc
  | cancel i => exact inv_resume h i _ _ fun t c hi hc => inv_cancel h hi hc
  | forget i => exact inv_resume h i _ _ fun t c hi hc => inv_forget h hi hc
  | dropOwner n => exact inv_dropOwner h n
  | forgetOwner n => exact inv_forgetOwner h n
  | access n b => exact inv_accessed h n b
  | finish n => exact inv_finished h n

theorem inv_init (memory : Addr → α) : (init P memory).Inv where
  good := trivial
  logged _ he := absurd he List.not_mem_nil
  accounts _ := ⟨nofun, fun _ => rfl⟩
  nodup := List.nodup_nil
  fresh _ hid := absurd hid List.not_mem_nil
  absent _ _ := rfl
  holds _ _ := nofun
  names := List.nodup_nil
  named _ hx := absurd hx List.not_mem_nil
  owners _ hx := absurd hx List.not_mem_nil
  leaked _ ho := absurd ho List.not_mem_nil
  borrows _ ht := absurd ht List.not_mem_nil
  lent := List.nodup_nil
  apart _ hn := absurd hn List.not_mem_nil
  tasks _ _ := nofun
  flights _ _ := nofun

/-- Every run keeps the invariant. -/
theorem inv_run (h : w.Inv) (inputs : List (Input P α)) : (w.run inputs).Inv := by
  induction inputs generalizing w with
  | nil => exact h
  | cons input inputs ih => exact ih (inv_step h input)

end World
end Gudra
