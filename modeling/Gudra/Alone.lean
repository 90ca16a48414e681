import Gudra.Futures
import Gudra.Progress

/-! A future that moves on alone comes to its result. -/
namespace Gudra

open Scope Interleave

variable {P : Platform} {α : Type}

theorem Budget.OperationFits.release {b : Budget P} (h : b.OperationFits) (r : Reservation) :
    ((b.release r).getD b).OperationFits := by
  simp only [Budget.OperationFits] at h
  simp only [Budget.OperationFits, Budget.release, Budget.drop, Budget.drop_get_bind]
  cases r.buffer with
  | true =>
    simp only [if_true, checkedSub]
    split_ifs <;> exact h
  | false =>
    simp only [Bool.false_eq_true, if_false, checkedSub]
    split_ifs
    · change b.usage.operations - 1 + 1 ≤ b.limits.operations
      omega
    · exact h

namespace World

variable {w : World P α} {i n : ℕ} {t : Task P α} {r : Request P α} {l : Launch α}
  {progs : List (Prog Addr α Unit)} {c : Script α (Except Error (Outcome P α))}

/-- A move of task `i` that succeeds, or of a kernel of its own. -/
def Own (w : World P α) (i : ℕ) : Input P α → Prop
  | .tick j choice => j = i ∧ choice = .ok
  | .poll j => j = i
  | .access n _ | .finish n => ∃ f, w.flights[n]? = some f ∧ f.task = i
  | _ => False

/-- The arguments of the call pass its check, and its session has a free operation. -/
def Accepts (w : World P α) (r : Request P α) : Prop :=
  r.check w.uncertain = .ok () ∧ ∃ b, w.budget? r.session.id = some b ∧ b.OperationFits

variable [Scalar α]

/-- Nothing but task `i` moves. -/
def Alone (w : World P α) (i : ℕ) : List (Input P α) → Prop
  | [] => True
  | x :: xs => w.Own i x ∧ (w.step x).Alone i xs

/-- Task `i`, the call `r`, returns with success when it moves alone. -/
def Completes (w : World P α) (i : ℕ) (r : Request P α) : Prop :=
  ∃ xs, w.Alone i xs ∧ ∃ o args stored, .returned i r (.ok o) args stored ∈ (w.run xs).log

theorem Completes.step {x : Input P α} (hx : w.Own i x) (h : (w.step x).Completes i r) :
    w.Completes i r := by
  obtain ⟨xs, hxs, hreturned⟩ := h
  exact ⟨x :: xs, ⟨hx, hxs⟩, hreturned⟩

theorem Completes.run {xs : List (Input P α)} (hxs : w.Alone i xs)
    (h : (w.run xs).Completes i r) : w.Completes i r := by
  induction xs generalizing w with
  | nil => exact h
  | cons x xs ih => exact (ih hxs.2 h).step hxs.1

theorem Alone.append {xs ys : List (Input P α)} (hxs : w.Alone i xs)
    (hys : (w.run xs).Alone i ys) : w.Alone i (xs ++ ys) := by
  induction xs generalizing w with
  | nil => exact hys
  | cons x xs ih => exact ⟨hxs.1, ih hxs.2 hys⟩

omit [Scalar α] in
/-- The blocks of a running kernel move as a closed system. -/
theorem access_system (hf : w.flights[n]? = some ⟨i, l, progs, .running⟩) (b : ℕ)
    (trace : List (Access Addr α)) :
    let s := (System.mk w.memory progs trace).step b
    (w.access n b).tasks = w.tasks ∧ (w.access n b).memory = s.memory ∧
      (w.access n b).flights[n]? = some ⟨i, l, s.progs, .running⟩ := by
  simp only [access, hf, System.step]
  cases hb : progs[b]? with
  | none => exact ⟨rfl, rfl, hf⟩
  | some p =>
    simp only [Option.bind_some]
    cases hp : p.step w.memory with
    | none => exact ⟨rfl, rfl, hf⟩
    | some x =>
      obtain ⟨acc, memory, p'⟩ := x
      obtain ⟨hlt, -⟩ := List.getElem?_eq_some_iff.mp hf
      exact ⟨rfl, rfl, List.getElem?_set_self hlt⟩

theorem run_system (hf : w.flights[n]? = some ⟨i, l, progs, .running⟩)
    (trace : List (Access Addr α)) (schedule : List ℕ) :
    w.Alone i (schedule.map (.access n)) ∧ (w.run (schedule.map (.access n))).tasks = w.tasks ∧
      (w.run (schedule.map (.access n))).flights[n]? =
        some ⟨i, l, ((System.mk w.memory progs trace).run schedule).progs, .running⟩ := by
  induction schedule generalizing w progs trace with
  | nil => exact ⟨trivial, rfl, hf⟩
  | cons b schedule ih =>
    obtain ⟨htasks, hmemory, hflight⟩ := access_system hf b trace
    obtain ⟨halone, htasks', hflight'⟩ := ih hflight
      ((System.mk w.memory progs trace).step b).trace
    rw [hmemory] at hflight'
    exact ⟨⟨⟨_, hf, rfl⟩, halone⟩, htasks'.trans htasks, hflight'⟩

/-- A running kernel ends when its blocks move on. -/
theorem exists_finished (hf : w.flights[n]? = some ⟨i, l, progs, .running⟩) :
    ∃ xs, w.Alone i xs ∧ (w.run xs).tasks = w.tasks ∧
      ∃ progs', (w.run xs).flights[n]? = some ⟨i, l, progs', .completed⟩ := by
  obtain ⟨schedule, hdone⟩ := System.exists_complete (s := System.mk w.memory progs [])
  obtain ⟨halone, htasks, hflight⟩ := run_system hf [] schedule
  obtain ⟨hlt, -⟩ := List.getElem?_eq_some_iff.mp hflight
  have hfinish : (w.run (schedule.map (.access n) ++ [.finish n])) =
      ((w.run (schedule.map (.access n))).setFlight n
        ⟨i, l, ((System.mk w.memory progs []).run schedule).progs, .completed⟩).record
          (.completed i l) := by
    rw [run_append]
    have hdone' : ((System.mk w.memory progs []).run schedule).progs.all Prog.finished = true :=
      hdone
    generalize w.run (schedule.map (.access n)) = w' at hflight ⊢
    simp only [run, List.foldl_cons, List.foldl_nil, World.step, finish, hflight, hdone', and_self,
      if_true]
  have halone' : w.Alone i (schedule.map (.access n) ++ [.finish n]) :=
    halone.append ⟨⟨_, hflight, rfl⟩, trivial⟩
  refine ⟨_, halone', ?_, ((System.mk w.memory progs []).run schedule).progs, ?_⟩
  · rw [hfinish]
    exact htasks
  · rw [hfinish]
    exact List.getElem?_set_self hlt

omit [Scalar α] in
theorem Accepts.release (h : w.Accepts r) (d : Option Atom) : (w.release d).Accepts r := by
  obtain ⟨hcheck, b, hb, hfits⟩ := h
  refine ⟨by rwa [release_uncertain], ?_⟩
  match d with
  | none | some (.storage s) => exact ⟨b, hb, hfits⟩
  | some (.reservation o) =>
    simp only [World.release]
    cases ho : w.budget? o.budget with
    | none => exact ⟨b, hb, hfits⟩
    | some b' =>
      by_cases hid : r.session.id = o.budget
      · rw [hid] at hb ⊢
        obtain rfl := Option.some.inj (hb.symm.trans ho)
        exact ⟨_, budget?_setBudget_self hb, hfits.release o⟩
      · exact ⟨b, (budget?_setBudget_of_ne (Ne.symm hid)).trans hb, hfits⟩

/-- A task that waits for its kernel goes on when the kernel has ended. -/
theorem completes_awaits {s : ℕ} {k : Except String Unit → Script α (Except Error (Outcome P α))}
    {state : FlightState} (hi : w.tasks[i]? = some t)
    (hc : t.control = .active (.eff (.execute s l) k)) (hp : t.pending = some n)
    (hf : w.flights[n]? = some ⟨i, l, progs, state⟩) (hstate : state ≠ .failed)
    (hnext : ∀ w' : World P α, w'.tasks[i]? = some
      { t with pending := none, control := .active (k (.ok ())) } → w'.Completes i r) :
    w.Completes i r := by
  have hcompleted : ∀ {w : World P α} {progs : List (Prog Addr α Unit)}, w.tasks[i]? = some t →
      w.flights[n]? = some ⟨i, l, progs, .completed⟩ → w.Completes i r := by
    intro w progs hi hf
    refine Completes.step (x := .tick i .ok) ⟨rfl, rfl⟩ (hnext _ ?_)
    change (w.tick i .ok).tasks[i]? = _
    simp only [tick_effect hi hc, effect, hp, await, hf]
    exact tasks_setTask hi
  cases state with
  | running =>
    obtain ⟨xs, halone, htasks, progs', hf'⟩ := exists_finished hf
    exact .run halone (hcompleted ((congrArg (·[i]?) htasks).trans hi) hf')
  | completed => exact hcompleted hi hf
  | failed => exact absurd rfl hstate

/-- An asynchronous call that meets no failure returns with success. -/
theorem completes {g : Phase} (hi : w.tasks[i]? = some t) (hr : t.request = some r)
    (hc : t.control = .active c) (hp : t.pending = none)
    (hwp : (asyncLogic r).wp c r.settled t.frames g) (hg : g ≠ .failing)
    (haccepts : g = .checking → w.Accepts r) : w.Completes i r := by
  have hinternal : ∀ {w : World P α} {t : Task P α} {c c' : Script α (Except Error (Outcome P α))}
      {d : Option Atom} {frames : Frames Name Atom} {g : Phase}, w.tasks[i]? = some t →
      t.request = some r → t.control = .active c → t.pending = none →
      (asyncLogic r).wp c r.settled t.frames g → (g = .checking → w.Accepts r) →
      c.internal t.frames = some (d, c', frames) →
      (∀ {w : World P α} {t' : Task P α}, w.tasks[i]? = some t' → t'.request = some r →
        t'.control = .active c' → t'.pending = none → (asyncLogic r).wp c' r.settled t'.frames g →
        (g = .checking → w.Accepts r) → t'.frames = frames → w.Completes i r) →
      w.Completes i r := by
    intro w t c c' d frames g hi hr hc hp hwp haccepts hint ih
    have htick := tick_internal hi hc .ok hint
    refine Completes.step (x := .tick i .ok) ⟨rfl, rfl⟩ ?_
    change (w.tick i .ok).Completes i r
    rw [htick]
    have hi' : (w.release d).tasks[i]? = some t := (congrArg (·[i]?) (release_tasks w d)).trans hi
    exact ih (tasks_setTask hi') hr rfl hp (Logic.wp_internal hwp hint).1
      (fun hg => (haccepts hg).release d) rfl
  induction c generalizing w t g with
  | ret result =>
    cases result with
    | error e =>
      rcases hwp with hfailing | ⟨hchecking, hcheck⟩
      · exact absurd hfailing hg
      · cases (hcheck w.uncertain).symm.trans (haccepts hchecking).1
    | ok o =>
      obtain ⟨args, stored, -, hlog⟩ := tick_returns hi hr hc .ok
      have hmem : .returned i r (.ok o) args stored ∈ (w.tick i .ok).log :=
        hlog ▸ List.mem_cons_self
      exact ⟨[.tick i .ok], ⟨⟨rfl, rfl⟩, trivial⟩, o, args, stored, hmem⟩
  | eff e k ih =>
    have hreply : ∀ {rep : e.Rep} {w' : World P α} {g' : Phase}, w.perform i .ok e = some (rep, w') →
        (asyncLogic r).wp (k rep) r.settled (Frames.push (e.gain rep) t.frames) g' →
        g' ≠ .failing → (g' = .checking → w'.Accepts r) → w.Completes i r := by
      intro rep w' g' hperform hwp hg haccepts
      have htick := tick_perform hi hc .ok hperform
      refine Completes.step (x := .tick i .ok) ⟨rfl, rfl⟩ ?_
      change (w.tick i .ok).Completes i r
      rw [htick]
      have hi' : w'.tasks[i]? = some t := (congrArg (·[i]?) (perform_grows hperform).1).trans hi
      exact ih rep (tasks_setTask hi') hr rfl hp hwp hg haccepts
    cases e with
    | completions =>
      obtain ⟨rfl, hf⟩ := hwp
      have haccepts := haccepts rfl
      exact hreply rfl ((hf w.uncertain).1 haccepts.1).2 (by simp) fun _ => haccepts
    | operation x s =>
      obtain ⟨rfl, rfl, -, -, hwp⟩ := hwp
      obtain ⟨-, b, hb, hfits⟩ := haccepts rfl
      have hperform : w.perform i .ok (.operation x r.session.id) =
          some (.ok ⟨r.session.id, 0, false⟩, (w.setBudget r.session.id b.started).record
            (.reserved i r.session.id (.ok ⟨r.session.id, 0, false⟩))) := by
        simp only [perform, reserve, hb, Option.bind_eq_bind, Option.bind_some,
          Budget.operation_ok hfits, Option.pure_def]
        rfl
      exact hreply hperform hwp (by simp) (by simp)
    | bind s | attempt =>
      obtain ⟨rfl, -, -, hwp⟩ := hwp
      exact hreply rfl hwp (by simp) (by simp)
    | «lazy» =>
      obtain ⟨rfl, -, hwp⟩ := hwp
      refine Completes.step (x := .tick i .ok) ⟨rfl, rfl⟩ ?_
      change (w.tick i .ok).Completes i r
      rw [tick_effect hi hc]
      have hi' : (w.effect i t .ok .lazy k).tasks[i]? =
          some { t with control := .suspended (k ()) } := tasks_setTask hi
      generalize w.effect i t .ok .lazy k = w' at hi' ⊢
      refine Completes.step (x := .poll i) rfl ?_
      have hpoll : w'.step (.poll i) =
          (w'.record (.polled i)).setTask i { t with control := .active (k ()) } := by
        simp only [World.step, resume, hi']
      rw [hpoll]
      exact ih () (tasks_setTask hi') hr rfl hp hwp (by simp) (by simp)
    | execute s l =>
      obtain ⟨rfl, -, -, hwp⟩ := hwp
      refine Completes.step (x := .tick i .ok) ⟨rfl, rfl⟩ ?_
      change (w.tick i .ok).Completes i r
      have htick : w.tick i .ok = w.submit i t l k .ok := by
        simp only [tick_effect hi hc, effect, hp]
      rw [htick]
      have hf : (w.submit i t l k .ok).flights[w.flights.length]? =
          some ⟨i, l, l.blocks, .running⟩ := by
        simp [submit]
      refine completes_awaits (tasks_setTask hi) hc rfl hf (by simp) fun w' hi' => ?_
      exact ih (.ok ()) hi' hr rfl rfl hwp (by simp) (by simp)
    | _ => exact hwp.elim
  | own moves k ih =>
    exact hinternal hi hr hc hp hwp haccepts rfl fun hi hr hc hp hwp h _ => ih hi hr hc hp hwp hg h
  | enter moves k ih =>
    exact hinternal hi hr hc hp hwp haccepts rfl fun hi hr hc hp hwp h _ => ih hi hr hc hp hwp hg h
  | yield moves k ih =>
    exact hinternal hi hr hc hp hwp haccepts rfl fun hi hr hc hp hwp h _ => ih hi hr hc hp hwp hg h
  | exit k ih =>
    cases hframes : t.frames with
    | nil =>
      have hint : (Code.exit k).internal t.frames = some (none, k, []) := by rw [hframes]; rfl
      exact hinternal hi hr hc hp hwp haccepts hint fun hi hr hc hp hwp h _ => ih hi hr hc hp hwp hg h
    | cons f fs =>
      induction f generalizing w t with
      | nil =>
        have hint : (Code.exit k).internal t.frames = some (none, k, fs) := by rw [hframes]; rfl
        exact hinternal hi hr hc hp hwp haccepts hint fun hi hr hc hp hwp h _ => ih hi hr hc hp hwp hg h
      | cons x f ihf =>
        have hint : (Code.exit k).internal t.frames = some (some x.2, .exit k, f :: fs) := by
          rw [hframes]
          rfl
        exact hinternal hi hr hc hp hwp haccepts hint fun hi hr hc hp hwp h hframes =>
          ihf hi hr hc hp hwp h hframes

end World
end Gudra
