import Gudra.Runs

/-! A move of a call touches only what it owns or borrows uniquely. -/
namespace Gudra

open Scope Interleave

variable {P : Platform} {α : Type}

/-- The flag and the contents of allocation `id` are the same in both worlds. -/
structure Untouched (w w' : World P α) (id : ℕ) : Prop where
  uncertain_eq : w'.uncertain id = w.uncertain id
  memory_eq : ∀ n, w'.memory (id, n) = w.memory (id, n)

section Untouched

variable {w w' : World P α} {i id : ℕ} {t : Task P α} {l : Launch α}

theorem Untouched.refl (w : World P α) (id : ℕ) : Untouched w w id := ⟨rfl, fun _ => rfl⟩

theorem untouched_release (w : World P α) (d : Option Atom) (id : ℕ) :
    Untouched w (w.release d) id := by
  rw [World.release_eq]
  exact ⟨rfl, fun _ => rfl⟩

theorem untouched_reserve {s : ℕ} {section_ : Budget P → Locked Reservation}
    {rep : Except Error Reservation} (h : w.reserve i s section_ = some (rep, w')) :
    Untouched w w' id := by
  simp only [World.reserve, Option.bind_eq_bind, Option.bind_eq_some_iff, Option.pure_def,
    Option.some.injEq, Prod.mk.injEq] at h
  obtain ⟨b, -, x, -, -, rfl⟩ := h
  exact ⟨rfl, fun _ => rfl⟩

/-- What a failed execution leaves in its output stays there. -/
theorem Untouched.scribble (h : Untouched w w' id) (hid : id ≠ l.output.storage.id)
    (garbage : ℕ → α) : Untouched w (w'.scribble l.output.storage.id garbage) id :=
  ⟨h.uncertain_eq, fun n => (if_neg hid).trans (h.memory_eq n)⟩

theorem Untouched.resumeFailed (h : Untouched w w' id) (hid : id ≠ l.output.storage.id)
    (t : Task P α) (k : Except String Unit → Script α (Except Error (Outcome P α)))
    (choice : Choice α) : Untouched w (w'.resumeFailed i t l k choice) id := by
  cases choice with
  | ok => exact h
  | fail operation message garbage =>
    have hs := h.scribble hid garbage
    exact ⟨hs.uncertain_eq, hs.memory_eq⟩
  | unwind garbage =>
    have hs := h.scribble hid garbage
    exact ⟨hs.uncertain_eq, hs.memory_eq⟩

theorem untouched_await {n s : ℕ}
    {k : Except String Unit → Script α (Except Error (Outcome P α))} {choice : Choice α}
    (hid : id ≠ l.output.storage.id) : Untouched w (w.await i t n s l k choice) id := by
  have hrefl := Untouched.refl w id
  have hflight : ∀ f, Untouched w (w.setFlight n f) id := fun f => ⟨rfl, fun _ => rfl⟩
  simp only [World.await]
  cases w.flights[n]? with
  | none => exact hrefl
  | some f =>
    cases choice with
    | ok =>
      simp only
      split
      · exact ⟨rfl, fun _ => rfl⟩
      · split
        · exact ⟨rfl, fun _ => rfl⟩
        · exact hrefl
    | fail operation message garbage => exact (hflight _).resumeFailed hid t k _
    | unwind garbage => exact (hflight _).resumeFailed hid t k _

variable [Scalar α]

theorem untouched_submit {k : Except String Unit → Script α (Except Error (Outcome P α))}
    {choice : Choice α} (hid : id ≠ l.output.storage.id) :
    Untouched w (w.submit i t l k choice) id := by
  have hdevice : Untouched w (w.record (.device i true)) id := ⟨rfl, fun _ => rfl⟩
  cases choice with
  | ok => exact ⟨rfl, fun _ => rfl⟩
  | fail operation message garbage =>
    exact hdevice.resumeFailed hid t k (.fail operation message garbage)
  | unwind garbage => exact hdevice.resumeFailed hid t k (.unwind garbage)

/-- What an effect may touch beside new allocations. -/
def Effect.target? : Effect α → Option ℕ
  | .setCompletion id _ => some id
  | .execute _ l => some l.output.storage.id
  | _ => none

omit [Scalar α] in
theorem untouched_perform {choice : Choice α} {e : Effect α} {rep : e.Rep}
    (h : w.perform i choice e = some (rep, w')) (hid : e.target? ≠ some id)
    (hlt : id < w.nextStorage) : Untouched w w' id := by
  have hrefl := Untouched.refl w id
  cases e with
  | buffer x s bytes => exact untouched_reserve h
  | operation x s => exact untouched_reserve h
  | bind s | copy session s =>
    cases choice <;> cases h
    all_goals exact ⟨rfl, fun _ => rfl⟩
  | attempt =>
    cases choice <;> cases h
    all_goals exact hrefl
  | upload x session data =>
    cases choice <;> cases h
    · exact ⟨Function.update_of_ne (Nat.ne_of_lt hlt) _ _, fun n => if_neg (Nat.ne_of_lt hlt)⟩
    · exact ⟨rfl, fun _ => rfl⟩
  | completions =>
    cases h
    exact hrefl
  | setCompletion id' uncertain =>
    cases h
    exact ⟨Function.update_of_ne (fun he => hid (congrArg some he.symm)) _ _, fun _ => rfl⟩
  | execute | «lazy» | panic => cases h

omit [Scalar α] in
theorem untouched_reply (choice : Choice α) (e : Effect α)
    (k : e.Rep → Script α (Except Error (Outcome P α))) (hid : e.target? ≠ some id)
    (hlt : id < w.nextStorage) : Untouched w (match w.perform i choice e with
      | none => w.setTask i { t with control := .unwinding }
      | some (rep, w') => w'.setTask i
          { t with frames := Frames.push (e.gain rep) t.frames, control := .active (k rep) })
      id := by
  cases hp : w.perform i choice e with
  | none => exact ⟨rfl, fun _ => rfl⟩
  | some x =>
    have hs := untouched_perform hp hid hlt
    exact ⟨hs.uncertain_eq, hs.memory_eq⟩

theorem untouched_effect (choice : Choice α) (e : Effect α)
    (k : e.Rep → Script α (Except Error (Outcome P α))) (hid : e.target? ≠ some id)
    (hlt : id < w.nextStorage) : Untouched w (w.effect i t choice e k) id := by
  cases e with
  | «lazy» => exact ⟨rfl, fun _ => rfl⟩
  | execute s l =>
    have hne : id ≠ l.output.storage.id := fun he => hid (congrArg some he.symm)
    simp only [World.effect]
    cases t.pending with
    | none => exact untouched_submit hne
    | some n => exact untouched_await hne
  | _ => exact untouched_reply choice _ k hid hlt

namespace World

/-- What an effect of a task may touch is its own. -/
theorem Inv.target (h : w.Inv) (hi : w.tasks[i]? = some t) {e : Effect α}
    {k : e.Rep → Script α (Except Error (Outcome P α))} (hc : t.control = .active (.eff e k))
    (hid : e.target? = some id) : id ∈ t.exclusive := by
  obtain ⟨⟨r, before, u, m, g, hr, hwp, -, -⟩, -⟩ := h.active hi hc
  cases e with
  | setCompletion id' uncertain =>
    obtain rfl := Option.some.inj hid
    rw [← exclusive_eq hr (Ghost.start before u)]
    exact hwp.1
  | execute s l =>
    obtain rfl := Option.some.inj hid
    rw [← exclusive_eq hr (Ghost.start before u)]
    exact hwp.1.output_mem
  | _ => cases hid

/-- A move of a task leaves every other allocation as it is. -/
theorem Inv.tick_untouched (h : w.Inv) (hi : w.tasks[i]? = some t) (choice : Choice α)
    (hid : id ∉ t.exclusive) (hlt : id < w.nextStorage) : Untouched w (w.tick i choice) id := by
  have hrefl := Untouched.refl w id
  simp only [World.tick, hi]
  cases hc : t.control with
  | active c =>
    cases hint : c.internal t.frames with
    | some x =>
      simp only [hint]
      have hs := untouched_release w x.1 id
      exact ⟨hs.uncertain_eq, hs.memory_eq⟩
    | none =>
      simp only [hint]
      cases c with
      | ret result =>
        simp only [World.complete]
        split <;> exact ⟨rfl, fun _ => rfl⟩
      | eff e k =>
        exact untouched_effect choice e k (fun he => hid (h.target hi hc he)) hlt
      | own | enter | yield | exit => exact hrefl
  | unwinding =>
    simp only
    cases hpending : t.pending with
    | none =>
      simp only [unwindTask, hpending]
      cases t.frames.unwind with
      | none => exact ⟨rfl, fun _ => rfl⟩
      | some x =>
        have hs := untouched_release w x.1 id
        exact ⟨hs.uncertain_eq, hs.memory_eq⟩
    | some n =>
      have hgood := h.tasks i t hi
      simp only [Task.Good, hc] at hgood
      obtain ⟨-, -, -, g, l, hw⟩ := hgood n hpending
      obtain ⟨f, -, hf, -, rfl, -⟩ := waits_cases hw
      have hne : id ≠ f.launch.output.storage.id := fun he => hid (he ▸ hw.output)
      have hflight : Untouched w (w.setFlight n { f with state := .failed }) id :=
        ⟨rfl, fun _ => rfl⟩
      simp only [unwindTask, hpending, hf]
      cases choice with
      | ok =>
        simp only
        split
        · exact ⟨rfl, fun _ => rfl⟩
        · exact hrefl
      | fail operation message garbage | unwind garbage =>
        have hs := hflight.scribble hne garbage
        exact ⟨hs.uncertain_eq, hs.memory_eq⟩
  | suspended | forgotten | finished =>
    simp only
    exact hrefl

/-- A kernel writes its output only. -/
theorem Inv.access_memory_eq (h : w.Inv) {n : ℕ} {f : Flight α} (hf : w.flights[n]? = some f)
    (b : ℕ) {a : Addr} (ha : a.1 ≠ f.launch.output.storage.id) :
    (w.access n b).memory a = w.memory a := by
  simp only [access, hf]
  cases hstate : f.state with
  | completed | failed => rfl
  | running =>
    cases hmove : f.progs[b]?.bind fun p => p.step w.memory with
    | none => rfl
    | some x =>
      obtain ⟨acc, memory, p'⟩ := x
      obtain ⟨p, hp, hstep⟩ := Option.bind_eq_some_iff.mp hmove
      obtain ⟨t, hi, hpending⟩ := h.flights n f hf hstate
      obtain ⟨g, l, hw, -⟩ := h.waits hi hpending
      obtain ⟨shape, hwf⟩ := hw.wellFormed
      obtain ⟨j, launch, progs, state⟩ := f
      cases hw.aloft with
      | completed progs' hf' =>
        cases Option.some.inj (hf.symm.trans hf')
        cases hstate
      | running progs' m₀ done hf' hk hinputs hprogress =>
        cases Option.some.inj (hf.symm.trans hf')
        obtain ⟨-, hacc⟩ := hprogress.step (hwf.separate m₀) hp hstep
        exact access_memory hwf hacc hstep ha

end World
end Untouched
end Gudra
