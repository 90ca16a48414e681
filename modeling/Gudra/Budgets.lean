import Gudra.Separation

/-! What admission and drops do to the budgets of a world. -/
namespace Gudra

open Scope

variable {P : Platform} {α : Type}

namespace World

section Budgets

variable {w w' : World P α} {i s : ℕ} {b b' : Budget P} {d : Option Atom} {xs : List Atom}

@[simp] theorem session?_setBudget {s' : ℕ} : (w.setBudget s b).session? s' = w.session? s' := by
  simp only [session?, setBudget, List.getElem?_modify]
  cases w.sessions[s']? with
  | none => rfl
  | some x => by_cases hs : s = s' <;> simp [hs]

theorem budget?_setBudget_self (h : w.budget? s = some b) :
    (w.setBudget s b').budget? s = some b' := by
  simp only [budget?, Option.map_eq_some_iff] at h
  obtain ⟨x, hx, -⟩ := h
  simp [budget?, setBudget, hx]

theorem budget?_setBudget_of_ne {s' : ℕ} (hne : s ≠ s') :
    (w.setBudget s b).budget? s' = w.budget? s' := by
  simp only [budget?, setBudget, List.getElem?_modify, hne, if_false]
  rw [id_map']

theorem Accounted.congr (h : w.Accounted xs) (hs : w'.sessions = w.sessions) : w'.Accounted xs := by
  intro s
  rw [budget?, hs]
  exact h s

theorem Accounted.setBudget (h : w.Accounted xs) {ys : List Atom} (hw : w.budget? s = some b')
    (hb : b.Accounts (reservations s ys))
    (hne : ∀ s' ≠ s, reservations s' ys = reservations s' xs) : (w.setBudget s b).Accounted ys := by
  intro s'
  by_cases hs : s = s'
  · subst hs
    rw [budget?_setBudget_self hw]
    exact ⟨fun b' hb' => Option.some.inj hb' ▸ hb, nofun⟩
  · rw [budget?_setBudget_of_ne hs, hne s' (Ne.symm hs)]
    exact h s'

/-- A drop changes budgets only. -/
theorem release_eq (d : Option Atom) : w.release d = { w with sessions := (w.release d).sessions } := by
  match d with
  | none => rfl
  | some (.storage _) => rfl
  | some (.reservation r) =>
    simp only [release]
    cases w.budget? r.budget <;> rfl

section Release

variable (w : World P α) (d : Option Atom)

@[simp] theorem release_tasks : (w.release d).tasks = w.tasks := by rw [release_eq]

@[simp] theorem release_owners : (w.release d).owners = w.owners := by rw [release_eq]

@[simp] theorem release_leaked : (w.release d).leaked = w.leaked := by rw [release_eq]

@[simp] theorem release_nextOwner : (w.release d).nextOwner = w.nextOwner := by rw [release_eq]

@[simp] theorem release_memory : (w.release d).memory = w.memory := by rw [release_eq]

@[simp] theorem release_uncertain : (w.release d).uncertain = w.uncertain := by rw [release_eq]

@[simp] theorem release_flights : (w.release d).flights = w.flights := by rw [release_eq]

@[simp] theorem release_nextStorage : (w.release d).nextStorage = w.nextStorage := by
  rw [release_eq]

@[simp] theorem release_log : (w.release d).log = w.log := by rw [release_eq]

end Release

@[simp] theorem session?_release (d : Option Atom) : (w.release d).session? s = w.session? s := by
  match d with
  | none => rfl
  | some (.storage _) => rfl
  | some (.reservation r) =>
    simp only [release]
    cases w.budget? r.budget with
    | none => rfl
    | some b => exact session?_setBudget

theorem reservations_cons_of_ne {r : Reservation} (hne : s ≠ r.budget) :
    reservations s (.reservation r :: xs) = reservations s xs := by
  simp [reservations, Atom.reservation?, Ne.symm hne]

theorem reservations_cons_self {r : Reservation} :
    reservations r.budget (.reservation r :: xs) = r :: reservations r.budget xs := by
  simp [reservations, Atom.reservation?]

theorem Accounted.release (h : w.Accounted (d.toList ++ xs)) : (w.release d).Accounted xs := by
  match d with
  | none => exact h
  | some (.storage _) => exact h
  | some (.reservation r) =>
    simp only [World.release]
    cases hb : w.budget? r.budget with
    | none =>
      have hnil := (h r.budget).2 hb
      rw [Option.toList_some, List.singleton_append, reservations_cons_self] at hnil
      cases hnil
    | some b =>
      have haccounts := (h r.budget).1 b hb
      rw [Option.toList_some, List.singleton_append, reservations_cons_self] at haccounts
      simp only [haccounts.release, Option.getD_some]
      exact h.setBudget hb haccounts.released fun s hs => (reservations_cons_of_ne hs).symm

/-- The answer of admission to task `i`: the reservation `r` is charged, or nothing changes. -/
structure Admits (w w' : World P α) (i s : ℕ) (rep : Except Error Reservation) (r : Reservation) :
    Prop where
  world_eq : ∃ b, w' = (w.setBudget s b).record (.reserved i s rep)
  answer : (∃ e, rep = .error e) ∧ (∀ xs, w.Accounted xs → w'.Accounted xs) ∨
    rep = .ok r ∧ ∀ xs, w.Accounted xs → w'.Accounted (.reservation r :: xs)

theorem Accounted.charge {r : Reservation}
    (hb : ∀ rs, b.Accounts rs → b'.Accounts (r :: rs)) (hw : w.budget? r.budget = some b)
    (h : w.Accounted xs) : (w.setBudget r.budget b').Accounted (.reservation r :: xs) := by
  refine h.setBudget hw ?_ fun s hs => reservations_cons_of_ne hs
  rw [reservations_cons_self]
  exact hb _ ((h r.budget).1 b hw)

theorem Accounted.refuse (hw : w.budget? s = some b) (h : w.Accounted xs) :
    (w.setBudget s b).Accounted xs := h.setBudget hw ((h s).1 b hw) fun _ _ => rfl

theorem admits_buffer {bytes : ℕ} {rep : Except Error Reservation}
    (h : w.reserve i s (fun b => Budget.buffer b.limits s bytes) = some (rep, w')) :
    Admits w w' i s rep ⟨s, bytes, true⟩ := by
  simp only [World.reserve, Option.bind_eq_bind, Option.bind_eq_some_iff, Option.pure_def,
    Option.some.injEq, Prod.mk.injEq] at h
  obtain ⟨b, hb, ⟨rep', b'⟩, hreserve, rfl, rfl⟩ := h
  by_cases hf : b.BufferFits bytes
  · rw [Budget.buffer_ok hf, Option.some.injEq, Prod.mk.injEq] at hreserve
    obtain ⟨rfl, rfl⟩ := hreserve
    refine ⟨⟨_, rfl⟩, .inr ⟨rfl, fun xs hxs => ?_⟩⟩
    exact hxs.charge (r := ⟨s, bytes, true⟩) (fun _ hrs => hrs.charged hf) hb
  · obtain ⟨resource, maximum, he⟩ := Budget.buffer_error s hf
    rw [he, Option.some.injEq, Prod.mk.injEq] at hreserve
    obtain ⟨rfl, rfl⟩ := hreserve
    exact ⟨⟨_, rfl⟩, .inl ⟨⟨_, rfl⟩, fun xs hxs => hxs.refuse hb⟩⟩

theorem admits_operation {rep : Except Error Reservation}
    (h : w.reserve i s (fun b => Budget.operation b.limits s) = some (rep, w')) :
    Admits w w' i s rep ⟨s, 0, false⟩ := by
  simp only [World.reserve, Option.bind_eq_bind, Option.bind_eq_some_iff, Option.pure_def,
    Option.some.injEq, Prod.mk.injEq] at h
  obtain ⟨b, hb, ⟨rep', b'⟩, hreserve, rfl, rfl⟩ := h
  by_cases hf : b.OperationFits
  · rw [Budget.operation_ok hf, Option.some.injEq, Prod.mk.injEq] at hreserve
    obtain ⟨rfl, rfl⟩ := hreserve
    refine ⟨⟨_, rfl⟩, .inr ⟨rfl, fun xs hxs => ?_⟩⟩
    exact hxs.charge (r := ⟨s, 0, false⟩) (fun _ hrs => hrs.started hf) hb
  · rw [Budget.operation_error hf, Option.some.injEq, Prod.mk.injEq] at hreserve
    obtain ⟨rfl, rfl⟩ := hreserve
    exact ⟨⟨_, rfl⟩, .inl ⟨⟨_, rfl⟩, fun xs hxs => hxs.refuse hb⟩⟩

end Budgets

end World
end Gudra
