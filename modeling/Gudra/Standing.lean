import Gudra.Alone
import Gudra.Moves

/-! Every asynchronous call of a run is refused, or accepted and then never stuck. -/
namespace Gudra

open Scope Interleave

variable {P : Platform} {α : Type} {log : List (Event P α)} {i : ℕ} {r : Request P α}

/-- The session of the call admitted it, and its future was handed out. -/
structure Issued (log : List (Event P α)) (i : ℕ) (r : Request P α) : Prop where
  reserved : .reserved i r.session.id (.ok ⟨r.session.id, 0, false⟩) ∈ log
  created : .created i ∈ log

/-- What the log says of an asynchronous call that has come so far. -/
def Phase.Logged (g : Phase) (log : List (Event P α)) (i : ℕ) (r : Request P α) : Prop :=
  match g with
  | .admitted => .reserved i r.session.id (.ok ⟨r.session.id, 0, false⟩) ∈ log
  | .running => Issued log i r
  | .checking | .failing => True

/-- Where task `i` stands, if it is an asynchronous call. -/
def Task.Stands (log : List (Event P α)) (i : ℕ) (t : Task P α) : Prop :=
  ∀ r, t.request = some r → r.isAsync = true →
    match t.control with
    | .active c => ∃ g, (asyncLogic r).wp c r.settled t.frames g ∧ g.Logged log i r
    | .suspended c | .forgotten c =>
      (asyncLogic r).wp c r.settled t.frames .running ∧ Issued log i r
    | .unwinding => Issued log i r
    | .finished => Issued log i r ∨
      ∃ e args stored, .returned i r (.error e) args stored ∈ log

section Growth

variable {es : List (Event P α)} {t : Task P α}

theorem Issued.append (h : Issued log i r) (es : List (Event P α)) :
    Issued (es ++ log) i r :=
  ⟨List.mem_append_right es h.reserved, List.mem_append_right es h.created⟩

theorem Phase.Logged.append {g : Phase} (h : g.Logged log i r) (es : List (Event P α)) :
    g.Logged (es ++ log) i r := by
  cases g with
  | admitted => exact List.mem_append_right es h
  | running => exact Issued.append h es
  | checking | failing => trivial

theorem Task.Stands.append (h : t.Stands log i) (es : List (Event P α)) :
    t.Stands (es ++ log) i := by
  intro r hr hasync
  have hstands := h r hr hasync
  cases hc : t.control with
  | active c =>
    simp only [hc] at hstands ⊢
    obtain ⟨g, hwp, hlogged⟩ := hstands
    exact ⟨g, hwp, hlogged.append es⟩
  | suspended c | forgotten c =>
    simp only [hc] at hstands ⊢
    exact ⟨hstands.1, hstands.2.append es⟩
  | unwinding =>
    simp only [hc] at hstands ⊢
    exact hstands.append es
  | finished =>
    simp only [hc] at hstands ⊢
    rcases hstands with hissued | ⟨e, args, stored, hmem⟩
    · exact .inl (hissued.append es)
    · exact .inr ⟨e, args, stored, List.mem_append_right es hmem⟩

end Growth

namespace World

variable {w w' : World P α} {t t' : Task P α} {x : Input P α} {es : List (Event P α)}

/-- Every answer moves an asynchronous call to its next phase. -/
theorem async_reply {g : Phase} {e : Effect α} {choice : Choice α} {rep : e.Rep}
    {fs : Frames Name Atom} {post : e.Rep → Frames Name Atom → Phase → Prop}
    (hspec : asyncSpec r e fs g post) (hlogged : g.Logged w.log i r)
    (hp : w.perform i choice e = some (rep, w')) :
    ∃ g', post rep (Frames.push (e.gain rep) fs) g' ∧ g'.Logged w'.log i r := by
  cases e with
  | completions =>
    cases hp
    obtain ⟨rfl, hf⟩ := hspec
    cases hcheck : r.check w.uncertain with
    | ok u => exact ⟨.checking, (hf _).1 hcheck, trivial⟩
    | error e => exact ⟨.failing, (hf _).2 e hcheck, trivial⟩
  | operation x s =>
    obtain ⟨rfl, rfl, herror, hok⟩ := hspec
    obtain ⟨⟨b, rfl⟩, ⟨⟨e, rfl⟩, -⟩ | ⟨rfl, -⟩⟩ := admits_operation hp
    · exact ⟨.failing, herror e, trivial⟩
    · exact ⟨.admitted, hok, List.mem_cons_self⟩
  | bind s =>
    obtain ⟨rfl, herror, hok⟩ := hspec
    cases choice <;> cases hp
    · exact ⟨.running, hok, Issued.append hlogged [_]⟩
    · exact ⟨.failing, herror _, trivial⟩
  | attempt =>
    obtain ⟨rfl, herror, hok⟩ := hspec
    cases choice <;> cases hp
    · exact ⟨.running, hok, hlogged⟩
    · exact ⟨.failing, herror _, trivial⟩
  | execute | «lazy» => cases hp
  | _ => exact hspec.elim

variable [Scalar α]

/-- An asynchronous call panics only after its future was handed out. -/
theorem stands_panic {e : Effect α} {k : e.Rep → Script α (Except Error (Outcome P α))}
    {choice : Choice α} (h : w.Inv) (hi : w.tasks[i]? = some t)
    (hc : t.control = .active (.eff e k)) (ht : t.Stands w.log i) (hr : t.request = some r)
    (hasync : r.isAsync = true) (hstops : ¬ Stops (.eff e k))
    (hp : w.perform i choice e = none) : Issued w.log i r := by
  have hstands := ht r hr hasync
  simp only [hc] at hstands
  obtain ⟨g, hspec, hlogged⟩ := hstands
  cases e with
  | completions => cases hp
  | operation x s =>
    obtain ⟨rep, w', hreply⟩ := h.exists_reply hi hc hstops
    cases hreply.symm.trans hp
  | bind s | attempt =>
    obtain ⟨rfl, -⟩ := hspec
    exact hlogged
  | execute s l => exact absurd (.executes s l k) hstops
  | «lazy» => exact absurd (.hands k) hstops
  | _ => exact hspec.elim

theorem stands_moves (h : w.Inv) (hi : w.tasks[i]? = some t) (ht : t.Stands w.log i)
    (hm : t.Moves w i x t' es) : t'.Stands (es ++ w.log) i := by
  intro r hr hasync
  cases hm with
  | internal hc hint =>
    have hstands := ht r hr hasync
    simp only [hc] at hstands
    obtain ⟨g, hwp, hlogged⟩ := hstands
    exact ⟨g, (Logic.wp_internal hwp hint).1, hlogged⟩
  | reply hc hp hlog =>
    have hstands := ht r hr hasync
    simp only [hc] at hstands
    obtain ⟨g, hspec, hlogged⟩ := hstands
    obtain ⟨g', hwp, hlogged'⟩ := async_reply hspec hlogged hp
    exact ⟨g', hwp.2, hlog ▸ hlogged'⟩
  | panic hc hstops hp => exact stands_panic h hi hc ht hr hasync hstops hp
  | hand hc =>
    have hstands := ht r hr hasync
    simp only [hc] at hstands
    obtain ⟨g, ⟨rfl, -, hwp⟩, hreserved⟩ := hstands
    exact ⟨hwp, List.mem_cons_of_mem _ hreserved, List.mem_cons_self⟩
  | @submit s l k hc hp =>
    have hstands := ht.append [.submitted i l, .device i true] r hr hasync
    simp only [hc] at hstands ⊢
    exact hstands
  | suspend hc hp hsuspend =>
    have hstands := ht r hr hasync
    simp only [hc] at hstands
    obtain ⟨g, ⟨rfl, hspec⟩, hissued⟩ := hstands
    exact ⟨⟨rfl, hspec⟩, hissued⟩
  | resume hc hp =>
    have hstands := ht r hr hasync
    simp only [hc] at hstands
    obtain ⟨g, ⟨rfl, -, -, hwp⟩, hissued⟩ := hstands
    exact ⟨.running, hwp, hissued⟩
  | fail hc hes =>
    have hstands := ht r hr hasync
    simp only [hc] at hstands
    obtain ⟨g, ⟨rfl, hwp, -⟩, hissued⟩ := hstands
    exact ⟨.failing, (hwp _).2, trivial⟩
  | crash hc hes =>
    have hstands := ht r hr hasync
    simp only [hc] at hstands
    obtain ⟨g, ⟨rfl, -⟩, hissued⟩ := hstands
    exact Issued.append hissued es
  | settle hc hp hes =>
    have hstands := ht.append es r hr hasync
    simp only [hc] at hstands ⊢
    exact hstands
  | drop hc hp hu =>
    have hstands := ht r hr hasync
    simp only [hc] at hstands ⊢
    exact hstands
  | finish hc hp hu =>
    have hstands := ht r hr hasync
    simp only [hc] at hstands
    exact .inl hstands
  | @«return» choice result args stored hc =>
    have hr : t.request = some r := hr
    have hstands := ht r hr hasync
    simp only [hc] at hstands
    obtain ⟨g, hsettled, hlogged⟩ := hstands
    simp only [hr]
    cases result with
    | ok o =>
      obtain rfl : g = .running := hsettled
      exact .inl (Issued.append hlogged [_])
    | error e => exact .inr ⟨e, args, stored, List.mem_cons_self⟩
  | poll hc =>
    have hstands := ht.append [.polled i] r hr hasync
    simp only [hc] at hstands
    exact ⟨.running, hstands⟩
  | cancel hc =>
    have hstands := ht.append [.cancelled i] r hr hasync
    simp only [hc] at hstands
    exact hstands.2
  | forget hc =>
    have hstands := ht.append [.forgotten i] r hr hasync
    simp only [hc] at hstands
    exact hstands

theorem stands_starts (h : w.Inv) (hs : t.Starts w x) : t.Stands log i := by
  intro r hr hasync
  cases hs with
  | call hresolve hpermitted =>
    obtain rfl := Option.some.inj hr
    have hpre := h.pre (resolved hresolve) hpermitted
    exact ⟨.checking, async_code hasync hpre.kept, trivial⟩
  | drop ho => cases hr

/-- Every asynchronous call stands somewhere on its way. -/
def Standing (w : World P α) : Prop := ∀ (i : ℕ) (t : Task P α), w.tasks[i]? = some t → t.Stands w.log i

theorem standing_step (h : w.Inv) (hs : w.Standing) (x : Input P α) : (w.step x).Standing := by
  intro i t' hi'
  obtain ⟨es, hlog, hi | ⟨t, hi, hm⟩ | hstarts⟩ := step_task hi'
  · rw [hlog]
    exact (hs i t' hi).append es
  · rw [hlog]
    exact stands_moves h hi (hs i t hi) hm
  · exact stands_starts h hstarts

theorem standing_run (h : w.Inv) (hs : w.Standing) (xs : List (Input P α)) :
    (w.run xs).Standing := by
  induction xs generalizing w with
  | nil => exact hs
  | cons x xs ih => exact ih (inv_step h x) (standing_step h hs x)

/-- An unfinished future can be finished with success by its own moves. -/
theorem completes_suspended {c : Script α (Except Error (Outcome P α))} (h : w.Inv)
    (hs : w.Standing) (hi : w.tasks[i]? = some t) (hr : t.request = some r)
    (hc : t.control = .suspended c) : w.Completes i r := by
  have hgood := h.tasks i t hi
  simp only [Task.Good, hc] at hgood
  obtain ⟨⟨-, -, -, -, g, -, -, -, hpending⟩, -, r', hr', hasync, -⟩ := hgood
  obtain rfl := Option.some.inj (hr.symm.trans hr')
  have hstands := hs i t hi r hr hasync
  simp only [hc] at hstands
  have hwp := hstands.1
  refine Completes.step (x := .poll i) rfl ?_
  have hpoll : w.step (.poll i) =
      (w.record (.polled i)).setTask i { t with control := .active c } := by
    simp only [World.step, resume, hi, hc]
  rw [hpoll]
  have hi' : ((w.record (.polled i)).setTask i { t with control := .active c }).tasks[i]? =
      some { t with control := .active c } := tasks_setTask hi
  have hflights : ((w.record (.polled i)).setTask i { t with control := .active c }).flights =
      w.flights := rfl
  generalize (w.record (.polled i)).setTask i { t with control := .active c } = w₁ at hi' hflights ⊢
  cases hp : t.pending with
  | none => exact completes hi' hr rfl hp hwp (by simp) (by simp)
  | some n =>
    rw [hp] at hpending
    obtain ⟨s, l, k, rfl, hwaits⟩ := hpending
    have hfinish : ∀ {progs state}, w.flights[n]? = some ⟨i, l, progs, state⟩ → state ≠ .failed →
        w₁.Completes i r := by
      intro progs state hf hstate
      refine completes_awaits hi' rfl hp (hflights ▸ hf) hstate fun w' hi' => ?_
      exact completes hi' hr rfl rfl hwp.2.2.2 (by simp) (by simp)
    cases hwaits.aloft with
    | running progs m₀ done hf => exact hfinish hf (by simp)
    | completed progs hf => exact hfinish hf (by simp)

end World
end Gudra
