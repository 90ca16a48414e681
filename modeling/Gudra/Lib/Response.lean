import Mathlib.Tactic

/-! Bounded response: what happens within `n` turns of a party, whatever others do meanwhile. -/
namespace Response

variable {σ ι : Type} {step : σ → ι → σ} {turn : σ → ι → Bool} {Inv Done : σ → Prop}
  {Within : σ → ℕ → Prop} {s : σ} {x : ι} {n : ℕ}

/-- How many of the steps are turns. -/
def turns (step : σ → ι → σ) (turn : σ → ι → Bool) : σ → List ι → ℕ
  | _, [] => 0
  | s, x :: xs => (if turn s x then 1 else 0) + turns step turn (step s x) xs

/-- A turn lowers the rank until it is done, and no other step raises it. -/
structure Rule (step : σ → ι → σ) (turn : σ → ι → Bool) (Inv Done : σ → Prop)
    (Within : σ → ℕ → Prop) : Prop where
  inv : ∀ s x, Inv s → Inv (step s x)
  done : ∀ s x, Inv s → Done s → Done (step s x)
  lowers : ∀ s x n, Inv s → Within s n → turn s x = true →
    Done (step s x) ∨ ∃ m < n, Within (step s x) m
  keeps : ∀ s x n, Inv s → Within s n → turn s x = false → Within (step s x) n

theorem Rule.stays (rule : Rule step turn Inv Done Within) (hs : Inv s) (h : Done s)
    (xs : List ι) : Done (xs.foldl step s) := by
  induction xs generalizing s with
  | nil => exact h
  | cons x xs ih => exact ih (rule.inv s x hs) (rule.done s x hs h)

/-- More turns than the rank are enough, in whatever order the steps come. -/
theorem Rule.responds (rule : Rule step turn Inv Done Within) (hs : Inv s) (h : Within s n)
    (xs : List ι) (hn : n < turns step turn s xs) : Done (xs.foldl step s) := by
  induction xs generalizing s n with
  | nil => cases hn
  | cons x xs ih =>
    have hs' := rule.inv s x hs
    cases hturn : turn s x with
    | true =>
      rw [turns, hturn, if_pos rfl] at hn
      rcases rule.lowers s x n hs h hturn with hdone | ⟨m, hm, hm'⟩
      · exact rule.stays hs' hdone xs
      · exact ih hs' hm' (by omega)
    | false =>
      rw [turns, hturn, if_neg Bool.false_ne_true, Nat.zero_add] at hn
      exact ih hs' (rule.keeps s x n hs h hturn) hn

theorem turns_replicate (hturn : ∀ s, Inv s → turn s x = true ∧ Inv (step s x)) (hs : Inv s)
    (k : ℕ) : turns step turn s (List.replicate k x) = k := by
  induction k generalizing s with
  | zero => rfl
  | succ k ih =>
    obtain ⟨htrue, hs'⟩ := hturn s hs
    rw [List.replicate_succ, turns, htrue, if_pos rfl, ih hs', Nat.add_comm]

end Response
