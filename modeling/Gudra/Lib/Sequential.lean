import Gudra.Lib.Scope

/-! Scoped code run to its end by one machine, and the logic of scopes on such runs. -/
namespace Scope

variable {E : Type} {Rep : E → Type} {N R ρ σ G : Type}

/-- An environment that answers one effect after another; no answer ends the run. -/
structure Machine (Rep : E → Type) (N R σ : Type) where
  perform : (e : E) → σ → Option (Rep e × σ)
  /-- The resources that a reply hands to the innermost scope. -/
  gain : (e : E) → Rep e → Frame N R
  drop : R → σ → σ

namespace Machine

variable (M : Machine Rep N R σ)

/-- The entries of a scope are dropped, newest first. -/
def dropFrame (f : Frame N R) (s : σ) : σ := f.foldl (fun s x => M.drop x.2 s) s

def exec [DecidableEq N] : Code Rep N ρ → Frames N R → σ → Option (ρ × Frames N R × σ)
  | .ret r, fs, s => some (r, fs, s)
  | .eff e k, fs, s => (M.perform e s).bind fun x => exec (k x.1) (fs.push (M.gain e x.1)) x.2
  | .own moves k, fs, s => exec k (fs.own moves) s
  | .enter moves k, fs, s => exec k (fs.enter moves) s
  | .yield moves k, fs, s => exec k (fs.yield moves) s
  | .exit k, fs, s => exec k fs.tail (M.dropFrame (fs.headD []) s)

/-- The states of a machine that fit the live resources and a ghost state. `stops` is what holds
when an effect has no answer. -/
structure Sound (L : Logic Rep N R G) (rel : List R → G → σ → Prop) (stops : Prop) : Prop where
  perm : ∀ {rs qs g s}, rs.Perm qs → rel rs g s → rel qs g s
  drop : ∀ {r rs g s}, rel (r :: rs) g s → rel rs g (M.drop r s)
  perform : ∀ {e fs g s post}, rel fs.resources g s → L.spec e fs g post →
    M.perform e s = none ∧ stops ∨ ∃ rep s' g', M.perform e s = some (rep, s') ∧
      rel (fs.push (M.gain e rep)).resources g' s' ∧ post rep (fs.push (M.gain e rep)) g'

namespace Sound

variable {M} {L : Logic Rep N R G} {rel : List R → G → σ → Prop} {stops : Prop}

theorem dropFrame (h : M.Sound L rel stops) (f : Frame N R) {rs : List R} {g : G} {s : σ}
    (hrel : rel (f.map Prod.snd ++ rs) g s) : rel rs g (M.dropFrame f s) := by
  induction f generalizing s with
  | nil => exact hrel
  | cons x f ih => exact ih (h.drop hrel)

/-- The precondition of code holds of its run. -/
theorem exec [DecidableEq N] (h : M.Sound L rel stops) {c : Code Rep N ρ}
    {Q : ρ → Frames N R → G → Prop} {fs : Frames N R} {g : G} {s : σ} (hc : L.wp c Q fs g)
    (hrel : rel fs.resources g s) : M.exec c fs s = none ∧ stops ∨
      ∃ r fs' s' g', M.exec c fs s = some (r, fs', s') ∧ Q r fs' g' ∧ rel fs'.resources g' s' := by
  induction c generalizing fs g s with
  | ret r => exact .inr ⟨r, fs, s, g, rfl, hc, hrel⟩
  | eff e k ih =>
    rcases h.perform hrel hc with ⟨hp, hstops⟩ | ⟨rep, s', g', hp, hrel', -, hpost⟩
    · exact .inl ⟨by simp only [Machine.exec, hp, Option.bind_none], hstops⟩
    · simpa only [Machine.exec, hp, Option.bind_some] using ih rep hpost hrel'
  | own moves k ih => exact ih hc.2 (h.perm (own_perm moves fs).symm hrel)
  | enter moves k ih => exact ih hc.2 (h.perm (enter_perm moves fs).symm hrel)
  | yield moves k ih => exact ih hc.2 (h.perm (yield_perm moves fs).symm hrel)
  | exit k ih =>
    refine ih hc.2 ?_
    cases fs with
    | nil => exact hrel
    | cons f fs =>
      apply h.dropFrame f
      rwa [resources_cons] at hrel

end Sound
end Machine
end Scope
