import Gudra.Runs

/-! A call that moves on comes to its end or to a point at which it waits for others. -/
namespace Gudra

open Scope Interleave

variable {P : Platform} {α : Type}

/-- The code returns, hands out a future or executes a kernel. -/
inductive Stops : Script α (Except Error (Outcome P α)) → Prop where
  | returns (result : Except Error (Outcome P α)) : Stops (.ret result)
  | hands (k : Unit → Script α (Except Error (Outcome P α))) : Stops (.eff .lazy k)
  | executes (s : ℕ) (l : Launch α)
      (k : Except String Unit → Script α (Except Error (Outcome P α))) :
      Stops (.eff (.execute s l) k)

/-- The events between two stops of a call. -/
def Event.Silent : Event P α → Prop
  | reserved .. | device .. | uploaded .. => True
  | _ => False

namespace World

variable {w w' : World P α} {i : ℕ} {t t' : Task P α}
  {c c' : Script α (Except Error (Outcome P α))}

/-- The log grew by silent events of task `i`. -/
def Grows (w w' : World P α) (i : ℕ) : Prop :=
  ∃ es, w'.log = es ++ w.log ∧ ∀ e ∈ es, e.task = i ∧ e.Silent

theorem Grows.of_eq (h : w'.log = w.log) : Grows w w' i :=
  ⟨[], h, fun _ he => absurd he List.not_mem_nil⟩

theorem Grows.trans {w'' : World P α} (h : Grows w w' i) (h' : Grows w' w'' i) :
    Grows w w'' i := by
  obtain ⟨es, hes, hsilent⟩ := h
  obtain ⟨es', hes', hsilent'⟩ := h'
  refine ⟨es' ++ es, by rw [hes', hes, List.append_assoc], fun e he => ?_⟩
  rcases List.mem_append.mp he with he | he
  · exact hsilent' e he
  · exact hsilent e he

theorem Grows.cons {e : Event P α} (hlog : w'.log = e :: w.log) (he : e.task = i)
    (hs : e.Silent) : Grows w w' i := by
  refine ⟨[e], hlog, fun x hx => ?_⟩
  obtain rfl := List.mem_singleton.mp hx
  exact ⟨he, hs⟩

theorem Grows.kernelsOf_eq (h : Grows w w' i) : kernelsOf i w'.log = kernelsOf i w.log := by
  obtain ⟨es, hes, hsilent⟩ := h
  rw [hes]
  clear hes
  induction es with
  | nil => rfl
  | cons e es ih =>
    have hrest := ih fun e he => hsilent e (List.mem_cons_of_mem _ he)
    have hs := (hsilent e List.mem_cons_self).2
    rw [List.cons_append, kernelsOf_of_none, hrest]
    cases e with
    | submitted | completed | failed => exact hs.elim
    | _ => rfl

/-- Events of the other kinds are old. -/
theorem Grows.mem_iff (h : Grows w w' i) {e : Event P α} (he : ¬ e.Silent) :
    e ∈ w'.log ↔ e ∈ w.log := by
  obtain ⟨es, hes, hsilent⟩ := h
  rw [hes, List.mem_append, or_iff_right]
  exact fun hmem => he (hsilent e hmem).2

theorem tasks_setTask (hi : w.tasks[i]? = some t) : (w.setTask i t').tasks[i]? = some t' := by
  obtain ⟨hlt, -⟩ := List.getElem?_eq_some_iff.mp hi
  exact List.getElem?_set_self hlt

/-- An answer of admission is the answer of the critical section on the budget. -/
theorem reserve_eq_some {s : ℕ} {section_ : Budget P → Locked Reservation}
    {rep : Except Error Reservation} (h : w.reserve i s section_ = some (rep, w')) :
    ∃ b b', w.budget? s = some b ∧ b.reserve (section_ b) = some (rep, b') ∧
      w' = (w.setBudget s b').record (.reserved i s rep) := by
  simp only [reserve, Option.bind_eq_bind, Option.bind_eq_some_iff, Option.pure_def,
    Option.some.injEq, Prod.mk.injEq] at h
  obtain ⟨b, hb, x, hx, rfl, rfl⟩ := h
  exact ⟨b, x.2, hb, hx, rfl⟩

theorem perform_grows {choice : Choice α} {e : Effect α} {rep : e.Rep}
    (h : w.perform i choice e = some (rep, w')) : w'.tasks = w.tasks ∧ Grows w w' i := by
  have hreserve : ∀ {s : ℕ} {section_ : Budget P → Locked Reservation}
      {r : Except Error Reservation}, w.reserve i s section_ = some (r, w') →
      w'.tasks = w.tasks ∧ Grows w w' i := by
    intro s section_ r hr
    obtain ⟨b, b', -, -, rfl⟩ := reserve_eq_some hr
    exact ⟨rfl, .cons (e := .reserved i s r) rfl rfl trivial⟩
  have hdevice : ∀ {b : Bool}, w' = w.record (.device i b) → w'.tasks = w.tasks ∧ Grows w w' i := by
    rintro b rfl
    exact ⟨rfl, .cons (e := .device i b) rfl rfl trivial⟩
  cases e with
  | buffer x s bytes => exact hreserve h
  | operation x s => exact hreserve h
  | bind s | copy session s =>
    cases choice <;> cases h
    all_goals exact hdevice rfl
  | attempt =>
    cases choice <;> cases h
    all_goals exact ⟨rfl, .of_eq rfl⟩
  | upload x session data =>
    cases choice <;> cases h
    · refine ⟨rfl, [.uploaded i _ data, .device i true], rfl, fun e he => ?_⟩
      rcases List.mem_cons.mp he with rfl | he
      · exact ⟨rfl, trivial⟩
      · obtain rfl := List.mem_singleton.mp he
        exact ⟨rfl, trivial⟩
    · exact hdevice rfl
  | completions | setCompletion id uncertain =>
    cases h
    exact ⟨rfl, .of_eq rfl⟩
  | execute | «lazy» | panic => cases h

variable [Scalar α]

theorem tick_internal (hi : w.tasks[i]? = some t) (hc : t.control = .active c) (choice : Choice α)
    {d : Option Atom} {frames : Frames Name Atom}
    (hint : c.internal t.frames = some (d, c', frames)) :
    w.tick i choice = (w.release d).setTask i { t with frames, control := .active c' } := by
  simp only [tick, hi, hc, hint]

theorem tick_effect {e : Effect α} {k : e.Rep → Script α (Except Error (Outcome P α))}
    (hi : w.tasks[i]? = some t) (hc : t.control = .active (.eff e k)) (choice : Choice α) :
    w.tick i choice = w.effect i t choice e k := by
  simp only [tick, hi, hc, Code.internal]

/-- An effect that has an answer. -/
theorem tick_perform {e : Effect α} {k : e.Rep → Script α (Except Error (Outcome P α))} {rep : e.Rep}
    (hi : w.tasks[i]? = some t) (hc : t.control = .active (.eff e k)) (choice : Choice α)
    (hp : w.perform i choice e = some (rep, w')) :
    w.tick i choice = w'.setTask i
      { t with frames := Frames.push (e.gain rep) t.frames, control := .active (k rep) } := by
  rw [tick_effect hi hc]
  cases e with
  | execute | «lazy» | panic => cases hp
  | _ => simp only [effect, hp]

/-- A call that returns says so. -/
theorem tick_returns {r : Request P α} {result : Except Error (Outcome P α)}
    (hi : w.tasks[i]? = some t) (hr : t.request = some r) (hc : t.control = .active (.ret result))
    (choice : Choice α) : ∃ args stored, (w.tick i choice).tasks[i]? =
      some { t with frames := [], control := .finished, shared := [], lent := [] } ∧
      (w.tick i choice).log = .returned i r result args stored :: w.log := by
  refine ⟨w.snapshot r.borrowed,
    (w.snapshot (result.toOption.elim [] Outcome.stored)).map Prod.snd, ?_, ?_⟩
  · simp only [tick, hi, hc, Code.internal, complete, hr]
    exact tasks_setTask hi
  · simp only [tick, hi, hc, Code.internal, complete, hr]
    rfl

theorem run_append (xs ys : List (Input P α)) :
    w.run (xs ++ ys) = (w.run xs).run ys := List.foldl_append

/-- Task `i`, moved on with answers that are all good, comes to a stop. -/
def Reaches (w : World P α) (i : ℕ) (t : Task P α) : Prop :=
  ∃ n t' c', (w.run (List.replicate n (.tick i .ok))).tasks[i]? = some t' ∧
    t'.request = t.request ∧ t'.control = .active c' ∧ t'.pending = none ∧ Stops c' ∧
    Grows w (w.run (List.replicate n (.tick i .ok))) i

theorem Reaches.step (h : Reaches (w.tick i .ok) i t') (hrequest : t'.request = t.request)
    (hgrows : Grows w (w.tick i .ok) i) : Reaches w i t := by
  obtain ⟨n, t'', c', hi, hr, hc, hp, hstops, hlog⟩ := h
  exact ⟨n + 1, t'', c', hi, hr.trans hrequest, hc, hp, hstops, hgrows.trans hlog⟩

/-- An effect at which a call does not stop has an answer. -/
theorem Inv.exists_reply (h : w.Inv) (hi : w.tasks[i]? = some t) {e : Effect α}
    {k : e.Rep → Script α (Except Error (Outcome P α))} (hc : t.control = .active (.eff e k))
    (hstops : ¬ Stops (.eff e k)) : ∃ rep w', w.perform i .ok e = some (rep, w') := by
  obtain ⟨⟨r, before, u, m, g, hr, hwp, -⟩, -⟩ := h.active hi hc
  have hbudget : ∃ b, w.budget? r.session.id = some b := by
    have hknown := hr.known _ (.inl rfl)
    simp only [session?, Option.map_eq_some_iff] at hknown
    obtain ⟨x, hx, -⟩ := hknown
    exact ⟨x.2, by simp [budget?, hx]⟩
  obtain ⟨b, hb⟩ := hbudget
  have hreserve : ∀ {s : ℕ} {section_ : Budget P → Locked Reservation}, s = r.session.id →
      (∃ x, b.reserve (section_ b) = some x) → ∃ rep w', w.reserve i s section_ = some (rep, w') := by
    rintro s section_ rfl ⟨x, hx⟩
    exact ⟨x.1, (w.setBudget r.session.id x.2).record (.reserved i r.session.id x.1),
      by simp [reserve, hb, hx]⟩
  cases e with
  | buffer x s bytes =>
    refine hreserve hwp.1 ?_
    by_cases hf : b.BufferFits bytes
    · exact ⟨_, Budget.buffer_ok hf⟩
    · obtain ⟨resource, maximum, he⟩ := Budget.buffer_error s hf
      exact ⟨_, he⟩
  | operation x s =>
    refine hreserve hwp.1 ?_
    by_cases hf : b.OperationFits
    · exact ⟨_, Budget.operation_ok hf⟩
    · exact ⟨_, Budget.operation_error hf⟩
  | execute s l => exact absurd (.executes s l k) hstops
  | «lazy» => exact absurd (.hands k) hstops
  | panic => exact hwp.elim
  | _ => exact ⟨_, _, rfl⟩

/-- A call that waits for nobody comes to a stop. -/
theorem Inv.exists_stop (h : w.Inv) (hi : w.tasks[i]? = some t) (hc : t.control = .active c)
    (hp : t.pending = none) : Reaches w i t := by
  have hinternal : ∀ {w : World P α} {t : Task P α} {c c' : Script α (Except Error (Outcome P α))}
      {d : Option Atom} {frames : Frames Name Atom}, w.Inv → w.tasks[i]? = some t →
      t.control = .active c → t.pending = none → c.internal t.frames = some (d, c', frames) →
      (∀ {w : World P α} {t' : Task P α}, w.Inv → w.tasks[i]? = some t' →
        t'.control = .active c' → t'.pending = none → t'.frames = frames → Reaches w i t') →
      Reaches w i t := by
    intro w t c c' d frames h hi hc hp hint ih
    have htick := tick_internal hi hc .ok hint
    have hinv := inv_tick h i .ok
    have hi' : (w.tick i .ok).tasks[i]? = some { t with frames, control := .active c' } := by
      rw [htick]
      exact tasks_setTask ((congrArg (·[i]?) (release_tasks w d)).trans hi)
    refine (ih hinv hi' rfl hp rfl).step rfl (.of_eq ?_)
    rw [htick]
    exact release_log w d
  induction c generalizing w t with
  | ret result => exact ⟨0, t, _, hi, rfl, hc, hp, .returns result, .of_eq rfl⟩
  | eff e k ih =>
    by_cases hstops : Stops (.eff e k)
    · exact ⟨0, t, _, hi, rfl, hc, hp, hstops, .of_eq rfl⟩
    · obtain ⟨rep, w', hperform⟩ := h.exists_reply hi hc hstops
      obtain ⟨htasks, hgrows⟩ := perform_grows hperform
      have htick := tick_perform hi hc .ok hperform
      have hi' : (w.tick i .ok).tasks[i]? = some
          { t with frames := Frames.push (e.gain rep) t.frames, control := .active (k rep) } := by
        rw [htick]
        exact tasks_setTask ((congrArg (·[i]?) htasks).trans hi)
      refine (ih rep (inv_tick h i .ok) hi' rfl hp).step rfl ?_
      rw [htick]
      exact hgrows
  | own moves k ih =>
    exact hinternal h hi hc hp rfl fun h hi hc hp _ => ih h hi hc hp
  | enter moves k ih =>
    exact hinternal h hi hc hp rfl fun h hi hc hp _ => ih h hi hc hp
  | yield moves k ih =>
    exact hinternal h hi hc hp rfl fun h hi hc hp _ => ih h hi hc hp
  | exit k ih =>
    -- The scope is dropped entry by entry.
    cases hframes : t.frames with
    | nil =>
      have hint : (Code.exit k).internal t.frames = some (none, k, []) := by rw [hframes]; rfl
      exact hinternal h hi hc hp hint fun h hi hc hp _ => ih h hi hc hp
    | cons f fs =>
      induction f generalizing w t with
      | nil =>
        have hint : (Code.exit k).internal t.frames = some (none, k, fs) := by rw [hframes]; rfl
        exact hinternal h hi hc hp hint fun h hi hc hp _ => ih h hi hc hp
      | cons x f ihf =>
        have hint : (Code.exit k).internal t.frames = some (some x.2, .exit k, f :: fs) := by
          rw [hframes]
          rfl
        exact hinternal h hi hc hp hint fun h hi hc hp hframes => ihf h hi hc hp hframes

end World
end Gudra
