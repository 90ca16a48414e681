import Mathlib.Tactic

/-! Iterations over cells with a fixed boundary: relations between runs and what a cell depends on. -/
namespace Relaxation

variable {X A B Q : Type}

/-- The cells `inside` are updated from the old values and a forcing; all others keep theirs. -/
structure Scheme (X A B Q : Type) where
  inside : X → Prop
  dec : DecidablePred inside
  update : Q → (X → A) → (X → B) → X → A

namespace Scheme

variable (S : Scheme X A B Q)

def step (f : X → B) (u : X → A) (q : Q) : X → A := fun x =>
  match S.dec x with
  | isTrue _ => S.update q u f x
  | isFalse _ => u x

def run (f : X → B) (qs : List Q) (u : X → A) : X → A := qs.foldl (S.step f) u

variable {S} {f g : X → B} {u v : X → A} {q : Q} {qs : List Q} {x : X}

theorem step_inside (h : S.inside x) : S.step f u q x = S.update q u f x := by
  cases hd : S.dec x with
  | isTrue _ => simp only [step, hd]
  | isFalse hn => exact absurd h hn

theorem step_outside (h : ¬ S.inside x) : S.step f u q x = u x := by
  cases hd : S.dec x with
  | isTrue hi => exact absurd hi h
  | isFalse _ => simp only [step, hd]

theorem run_cons : S.run f (q :: qs) u = S.run f qs (S.step f u q) := rfl

theorem run_append {qs' : List Q} : S.run f (qs ++ qs') u = S.run f qs' (S.run f qs u) :=
  List.foldl_append ..

theorem run_snoc : S.run f (qs ++ [q]) u = S.step f (S.run f qs u) q := by
  rw [run_append]
  rfl

theorem run_outside (h : ¬ S.inside x) : S.run f qs u x = u x := by
  induction qs generalizing u with
  | nil => rfl
  | cons q qs ih =>
    rw [run_cons, ih]
    exact step_outside h

/-- A relation between the cells of two runs that every update keeps. -/
theorem run_rel {R : X → A → A → Prop} {V : X → Prop}
    (hupdate : ∀ q ∈ qs, ∀ u v : X → A, (∀ y, V y → R y (u y) (v y)) →
      ∀ x, S.inside x → R x (S.update q u f x) (S.update q v g x))
    (h : ∀ x, V x → R x (u x) (v x)) :
    ∀ x, V x → R x (S.run f qs u x) (S.run g qs v x) := by
  induction qs generalizing u v with
  | nil => exact h
  | cons q qs ih =>
    rw [run_cons, run_cons]
    refine ih (fun q hq => hupdate q (List.mem_cons_of_mem _ hq)) fun x hx => ?_
    by_cases hi : S.inside x
    · rw [step_inside hi, step_inside hi]
      exact hupdate q List.mem_cons_self u v h x hi
    · rw [step_outside hi, step_outside hi]
      exact h x hx

/-- Every update reads visible cells within distance one, and the forcing of its own cell. -/
def Local (S : Scheme X A B Q) (visible : X → Prop) (d : X → X → ℕ) : Prop :=
  ∀ (q : Q) (u v : X → A) (f g : X → B) (x : X), S.inside x →
    (∀ y, visible y → d x y ≤ 1 → u y = v y) → f x = g x → S.update q u f x = S.update q v g x

/-- A run of `n` steps depends on the visible cells within distance `n` and on the forcing within a
smaller distance. -/
theorem run_dependence {visible : X → Prop} {d : X → X → ℕ} (hlocal : S.Local visible d)
    (hself : ∀ x, d x x = 0) (htriangle : ∀ x y z, d x z ≤ d x y + d y z) (hx : visible x)
    (hu : ∀ y, visible y → d x y ≤ qs.length → u y = v y)
    (hf : ∀ y, S.inside y → d x y < qs.length → f y = g y) :
    S.run f qs u x = S.run g qs v x := by
  induction qs generalizing u v with
  | nil => exact hu x hx (hself x).le
  | cons q qs ih =>
    rw [run_cons, run_cons]
    rw [List.length_cons] at hu hf
    -- After the first step the values agree within a radius that is smaller by one.
    refine ih (fun y hy hd => ?_) fun y hy hd => hf y hy (by omega)
    by_cases hi : S.inside y
    · rw [step_inside hi, step_inside hi]
      refine hlocal q u v f g y hi (fun z hz hdz => hu z hz ?_) (hf y hi (by omega))
      have hxz := htriangle x y z
      omega
    · rw [step_outside hi, step_outside hi]
      exact hu y hy (by omega)

/-- Cells outside have an effect only through the cells inside whose updates read them: if these
evolve alike in two runs, so does everything else. -/
theorem run_shielded {N : X → X → Prop}
    (hlocal : ∀ (q : Q) (u v : X → A) (x : X), S.inside x → (∀ y, N x y → u y = v y) →
      S.update q u f x = S.update q v f x)
    (hshield : ∀ init, init <+: qs → ∀ x y, S.inside x → N x y → u y ≠ v y →
      S.run f init u x = S.run f init v x) (hx : u x = v x) :
    S.run f qs u x = S.run f qs v x := by
  induction qs using List.reverseRecOn generalizing x with
  | nil => exact hx
  | append_singleton qs q ih =>
    have hprefix : qs <+: qs ++ [q] := List.prefix_append _ _
    have hih : ∀ y, u y = v y → S.run f qs u y = S.run f qs v y :=
      fun y hy => ih (fun init hinit => hshield init (hinit.trans hprefix)) hy
    by_cases hi : S.inside x
    · by_cases hread : ∃ y, N x y ∧ u y ≠ v y
      · obtain ⟨y, hy, hne⟩ := hread
        exact hshield _ (List.prefix_refl _) x y hi hy hne
      · rw [run_snoc, run_snoc, step_inside hi, step_inside hi]
        refine hlocal q _ _ x hi fun y hy => hih y ?_
        by_contra hne
        exact hread ⟨y, hy, hne⟩
    · rw [run_outside hi, run_outside hi, hx]

end Scheme
end Relaxation
