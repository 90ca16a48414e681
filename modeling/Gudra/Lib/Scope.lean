import Mathlib.Tactic

/-! Scoped ownership: code whose locals own resources, dropped newest first when a scope ends. -/
namespace Scope

variable {E : Type} {Rep : E → Type} {N R ρ σ β ε : Type}

/-- The locals of one scope, newest first. An entry is a resource under the name that owns it. -/
abbrev Frame (N R : Type) := List (N × R)

/-- The scopes that are open, innermost first. -/
abbrev Frames (N R : Type) := List (Frame N R)

/-- Code as the effects it asks of its environment and the moves between its scopes. -/
inductive Code (Rep : E → Type) (N ρ : Type) where
  | ret (r : ρ)
  | eff (e : E) (k : Rep e → Code Rep N ρ)
  /-- Moves entries to new names, the first of them the newest. -/
  | own (moves : List (N × N)) (k : Code Rep N ρ)
  /-- Opens a scope whose parameters take entries of the caller. -/
  | enter (moves : List (N × N)) (k : Code Rep N ρ)
  /-- Moves entries out to the caller. -/
  | yield (moves : List (N × N)) (k : Code Rep N ρ)
  /-- Drops what is left of the scope. -/
  | exit (k : Code Rep N ρ)

namespace Code

def bind : Code Rep N ρ → (ρ → Code Rep N σ) → Code Rep N σ
  | ret r, f => f r
  | eff e k, f => eff e fun rep => (k rep).bind f
  | own moves k, f => own moves (k.bind f)
  | enter moves k, f => enter moves (k.bind f)
  | yield moves k, f => yield moves (k.bind f)
  | exit k, f => exit (k.bind f)

instance : Monad (Code Rep N) where
  pure := ret
  bind := bind

end Code

namespace Frames

variable [DecidableEq N]

/-- The entries that the moves name, under their new names, and the rest of the frame. -/
def relocate : List (N × N) → Frame N R → Frame N R × Frame N R
  | [], f => ([], f)
  | (a, b) :: moves, f =>
    let (moved, rest) := relocate moves (f.filter fun x => x.1 ≠ a)
    ((f.filter fun x => x.1 = a).map (fun x => (b, x.2)) ++ moved, rest)

def own (moves : List (N × N)) : Frames N R → Frames N R
  | [] => []
  | f :: fs => ((relocate moves f).1 ++ (relocate moves f).2) :: fs

def enter (moves : List (N × N)) : Frames N R → Frames N R
  | [] => [[]]
  | f :: fs => (relocate moves f).1 :: (relocate moves f).2 :: fs

def yield (moves : List (N × N)) : Frames N R → Frames N R
  | f :: g :: fs => (relocate moves f).2 :: ((relocate moves f).1 ++ g) :: fs
  | fs => fs

/-- New resources belong to the innermost scope. -/
def push : Frame N R → Frames N R → Frames N R
  | [], fs => fs
  | x :: xs, [] => [x :: xs]
  | x :: xs, f :: fs => (x :: xs ++ f) :: fs

/-- One resource of the innermost scope is dropped, or the empty scope is closed. -/
def unwind : Frames N R → Option (Option R × Frames N R)
  | [] => none
  | [] :: fs => some (none, fs)
  | (x :: f) :: fs => some (some x.2, f :: fs)

def resources (fs : Frames N R) : List R := fs.flatten.map Prod.snd

end Frames

/-- The next move of code that asks for no effect, with the resource that it drops. -/
def Code.internal [DecidableEq N] :
    Code Rep N ρ → Frames N R → Option (Option R × Code Rep N ρ × Frames N R)
  | .ret _, _ => none
  | .eff _ _, _ => none
  | .own moves k, fs => some (none, k, fs.own moves)
  | .enter moves k, fs => some (none, k, fs.enter moves)
  | .yield moves k, fs => some (none, k, fs.yield moves)
  | .exit k, [] => some (none, k, [])
  | .exit k, [] :: fs => some (none, k, fs)
  | .exit k, (x :: f) :: fs => some (some x.2, .exit k, f :: fs)

section Conservation

variable [DecidableEq N] {moves : List (N × N)} {f g : Frame N R} {fs : Frames N R}

theorem relocate_perm (moves : List (N × N)) (f : Frame N R) :
    (((Frames.relocate moves f).1 ++ (Frames.relocate moves f).2).map Prod.snd).Perm
      (f.map Prod.snd) := by
  induction moves generalizing f with
  | nil => exact List.Perm.refl _
  | cons m moves ih =>
    obtain ⟨a, b⟩ := m
    simp only [Frames.relocate, List.append_assoc, List.map_append, List.map_map]
    have hrest := ih (f.filter fun x => x.1 ≠ a)
    rw [List.map_append] at hrest
    refine (List.Perm.append_left _ hrest).trans ?_
    have hsplit := (List.filter_append_perm (fun x : N × R => decide (x.1 = a)) f).map Prod.snd
    rw [List.map_append] at hsplit
    refine List.Perm.trans (List.Perm.of_eq ?_) hsplit
    congr 2
    exact List.filter_congr fun x _ => by simp

omit [DecidableEq N] in
@[simp] theorem resources_nil : Frames.resources ([] : Frames N R) = [] := rfl

omit [DecidableEq N] in
@[simp] theorem resources_cons :
    Frames.resources (f :: fs) = f.map Prod.snd ++ Frames.resources fs := by
  simp [Frames.resources]

theorem own_perm (moves : List (N × N)) (fs : Frames N R) :
    (fs.own moves).resources.Perm fs.resources := by
  cases fs with
  | nil => exact List.Perm.refl _
  | cons f fs =>
    simp only [Frames.own, resources_cons]
    exact (relocate_perm moves f).append_right _

theorem enter_perm (moves : List (N × N)) (fs : Frames N R) :
    (fs.enter moves).resources.Perm fs.resources := by
  cases fs with
  | nil => exact List.Perm.refl _
  | cons f fs =>
    simp only [Frames.enter, resources_cons, ← List.append_assoc, ← List.map_append]
    exact (relocate_perm moves f).append_right _

theorem yield_perm (moves : List (N × N)) (fs : Frames N R) :
    (fs.yield moves).resources.Perm fs.resources := by
  match fs with
  | [] => exact List.Perm.refl _
  | [f] => exact List.Perm.refl _
  | f :: g :: fs =>
    simp only [Frames.yield, resources_cons, List.map_append, ← List.append_assoc]
    refine List.Perm.append_right _ (List.Perm.append_right _ ?_)
    refine List.perm_append_comm.trans ?_
    rw [← List.map_append]
    exact relocate_perm moves f

omit [DecidableEq N] in
theorem push_perm (xs : Frame N R) (fs : Frames N R) :
    (fs.push xs).resources.Perm (xs.map Prod.snd ++ fs.resources) := by
  cases xs <;> cases fs <;> simp [Frames.push, Frames.resources]

omit [DecidableEq N] in
theorem unwind_perm {d : Option R} {fs' : Frames N R} (h : fs.unwind = some (d, fs')) :
    fs.resources.Perm (d.toList ++ fs'.resources) := by
  match fs with
  | [] => cases h
  | [] :: fs =>
    obtain ⟨rfl, rfl⟩ := Prod.mk.inj (Option.some.inj h)
    simp
  | (x :: f) :: fs =>
    obtain ⟨rfl, rfl⟩ := Prod.mk.inj (Option.some.inj h)
    simp

/-- Internal moves neither lose nor copy a resource. -/
theorem internal_perm {c c' : Code Rep N ρ} {d : Option R} {fs' : Frames N R}
    (h : c.internal fs = some (d, c', fs')) : fs.resources.Perm (d.toList ++ fs'.resources) := by
  cases c with
  | ret r => cases h
  | eff e k => cases h
  | own moves k =>
    simp only [Code.internal, Option.some.injEq, Prod.mk.injEq] at h
    obtain ⟨rfl, rfl, rfl⟩ := h
    exact (own_perm moves fs).symm
  | enter moves k =>
    simp only [Code.internal, Option.some.injEq, Prod.mk.injEq] at h
    obtain ⟨rfl, rfl, rfl⟩ := h
    exact (enter_perm moves fs).symm
  | yield moves k =>
    simp only [Code.internal, Option.some.injEq, Prod.mk.injEq] at h
    obtain ⟨rfl, rfl, rfl⟩ := h
    exact (yield_perm moves fs).symm
  | exit k =>
    match fs with
    | [] =>
      simp only [Code.internal, Option.some.injEq, Prod.mk.injEq] at h
      obtain ⟨rfl, rfl, rfl⟩ := h
      exact List.Perm.refl _
    | [] :: fs =>
      simp only [Code.internal, Option.some.injEq, Prod.mk.injEq] at h
      obtain ⟨rfl, rfl, rfl⟩ := h
      simp
    | (x :: f) :: fs =>
      simp only [Code.internal, Option.some.injEq, Prod.mk.injEq] at h
      obtain ⟨rfl, rfl, rfl⟩ := h
      simp

end Conservation

/-! ### Functions with early return -/

/-- The body of a function: its parameters take entries of the caller, `kept` names what a result
moves out, and every return drops the rest. -/
def scope (params kept : List (N × N)) (body : ExceptT ε (Code Rep N) β) :
    ExceptT ε (Code Rep N) β :=
  ExceptT.mk <| .enter params <| body.run.bind fun r =>
    match r with
    | .ok b => .yield kept (.exit (.ret (.ok b)))
    | .error e => .exit (.ret (.error e))

/-- Renames locals of the current scope. -/
def rebind (moves : List (N × N)) : ExceptT ε (Code Rep N) Unit :=
  ExceptT.mk (.own moves (.ret (.ok ())))

/-- `drop(x)` -/
def discard (moves : List (N × N)) : ExceptT ε (Code Rep N) Unit :=
  ExceptT.mk (.enter moves (.exit (.ret (.ok ()))))

/-! ### Weakest preconditions -/

/-- What an effect may assume and what each reply guarantees, over frames and a ghost state; `inv`
is to hold at every instant. -/
structure Logic (Rep : E → Type) (N R G : Type) where
  inv : Frames N R → G → Prop
  spec : (e : E) → Frames N R → G → (Rep e → Frames N R → G → Prop) → Prop
  mono : ∀ {e fs g} {p q : Rep e → Frames N R → G → Prop},
    (∀ r fs g, p r fs g → q r fs g) → spec e fs g p → spec e fs g q

namespace Logic

variable {G : Type} [DecidableEq N] (L : Logic Rep N R G)

/-- The innermost scope is dropped entry by entry. -/
def dropAll (fs : Frames N R) (g : G) : Prop :=
  (∀ rest, rest <:+ fs.headD [] → L.inv (rest :: fs.tail) g) ∧ L.inv fs.tail g

def wp : Code Rep N ρ → (ρ → Frames N R → G → Prop) → Frames N R → G → Prop
  | .ret r, Q, fs, g => Q r fs g
  | .eff e k, Q, fs, g => L.spec e fs g fun rep fs g => L.inv fs g ∧ wp (k rep) Q fs g
  | .own moves k, Q, fs, g => L.inv (fs.own moves) g ∧ wp k Q (fs.own moves) g
  | .enter moves k, Q, fs, g => L.inv (fs.enter moves) g ∧ wp k Q (fs.enter moves) g
  | .yield moves k, Q, fs, g => L.inv (fs.yield moves) g ∧ wp k Q (fs.yield moves) g
  | .exit k, Q, fs, g => L.dropAll fs g ∧ wp k Q fs.tail g

variable {L} {c : Code Rep N ρ} {f : ρ → Code Rep N σ} {fs : Frames N R} {g : G}

theorem wp_mono {P Q : ρ → Frames N R → G → Prop} (h : ∀ r fs g, P r fs g → Q r fs g)
    (hc : L.wp c P fs g) : L.wp c Q fs g := by
  induction c generalizing fs g with
  | ret r => exact h r fs g hc
  | eff e k ih => exact L.mono (fun rep fs g hp => ⟨hp.1, ih rep hp.2⟩) hc
  | own moves k ih => exact ⟨hc.1, ih hc.2⟩
  | enter moves k ih => exact ⟨hc.1, ih hc.2⟩
  | yield moves k ih => exact ⟨hc.1, ih hc.2⟩
  | exit k ih => exact ⟨hc.1, ih hc.2⟩

theorem wp_bind {Q : σ → Frames N R → G → Prop} :
    L.wp (c.bind f) Q fs g ↔ L.wp c (fun r fs g => L.wp (f r) Q fs g) fs g := by
  induction c generalizing fs g with
  | ret r => exact Iff.rfl
  | eff e k ih =>
    constructor
    · exact L.mono fun rep fs g hp => ⟨hp.1, (ih rep).mp hp.2⟩
    · exact L.mono fun rep fs g hp => ⟨hp.1, (ih rep).mpr hp.2⟩
  | own moves k ih => exact and_congr_right fun _ => ih
  | enter moves k ih => exact and_congr_right fun _ => ih
  | yield moves k ih => exact and_congr_right fun _ => ih
  | exit k ih => exact and_congr_right fun _ => ih

/-- One internal move keeps the precondition, and the instant invariant holds after it. -/
theorem wp_internal {Q : ρ → Frames N R → G → Prop} {c' : Code Rep N ρ} {d : Option R}
    {fs' : Frames N R} (hc : L.wp c Q fs g) (h : c.internal fs = some (d, c', fs')) :
    L.wp c' Q fs' g ∧ L.inv fs' g := by
  cases c with
  | ret r => cases h
  | eff e k => cases h
  | own moves k =>
    simp only [Code.internal, Option.some.injEq, Prod.mk.injEq] at h
    obtain ⟨-, rfl, rfl⟩ := h
    exact ⟨hc.2, hc.1⟩
  | enter moves k =>
    simp only [Code.internal, Option.some.injEq, Prod.mk.injEq] at h
    obtain ⟨-, rfl, rfl⟩ := h
    exact ⟨hc.2, hc.1⟩
  | yield moves k =>
    simp only [Code.internal, Option.some.injEq, Prod.mk.injEq] at h
    obtain ⟨-, rfl, rfl⟩ := h
    exact ⟨hc.2, hc.1⟩
  | exit k =>
    obtain ⟨hdrop, hk⟩ := hc
    match fs with
    | [] =>
      simp only [Code.internal, Option.some.injEq, Prod.mk.injEq] at h
      obtain ⟨-, rfl, rfl⟩ := h
      exact ⟨hk, hdrop.2⟩
    | [] :: fs =>
      simp only [Code.internal, Option.some.injEq, Prod.mk.injEq] at h
      obtain ⟨-, rfl, rfl⟩ := h
      exact ⟨hk, hdrop.2⟩
    | (x :: f) :: fs =>
      simp only [Code.internal, Option.some.injEq, Prod.mk.injEq] at h
      obtain ⟨-, rfl, rfl⟩ := h
      have hsuffix : f <:+ x :: f := List.suffix_cons x f
      exact ⟨⟨⟨fun rest hrest => hdrop.1 rest (hrest.trans hsuffix), hdrop.2⟩, hk⟩,
        hdrop.1 f hsuffix⟩

/-- The precondition of code with an early return. -/
def wpx (L : Logic Rep N R G) (m : ExceptT ε (Code Rep N) β) (Q : β → Frames N R → G → Prop)
    (X : ε → Frames N R → G → Prop) (fs : Frames N R) (g : G) : Prop :=
  L.wp m.run (fun r fs g =>
    match r with
    | .ok b => Q b fs g
    | .error e => X e fs g) fs g

section Early

variable {m : ExceptT ε (Code Rep N) β} {γ : Type} {h : β → ExceptT ε (Code Rep N) γ}
  {Q : β → Frames N R → G → Prop} {X : ε → Frames N R → G → Prop}

@[simp] theorem wpx_pure {b : β} : L.wpx (pure b) Q X fs g ↔ Q b fs g := Iff.rfl

@[simp] theorem wpx_throw {e : ε} :
    L.wpx (throw e : ExceptT ε (Code Rep N) β) Q X fs g ↔ X e fs g := Iff.rfl

@[simp] theorem wpx_bind {Q : γ → Frames N R → G → Prop} : L.wpx (m >>= h) Q X fs g ↔
    L.wpx m (fun b fs g => L.wpx (h b) Q X fs g) X fs g := by
  have hrun : (m >>= h).run = m.run.bind fun r =>
      match r with
      | .ok b => (h b).run
      | .error e => .ret (.error e) := by
    refine congrArg (Code.bind m.run) ?_
    funext r
    cases r <;> rfl
  simp only [wpx, hrun]
  rw [wp_bind]
  constructor
  · refine wp_mono ?_
    intro r fs g hr
    cases r <;> exact hr
  · refine wp_mono ?_
    intro r fs g hr
    cases r <;> exact hr

@[simp] theorem wpx_rebind {moves : List (N × N)} {Q : Unit → Frames N R → G → Prop} :
    L.wpx (rebind moves) Q X fs g ↔ L.inv (fs.own moves) g ∧ Q () (fs.own moves) g := Iff.rfl

theorem wpx_discard {moves : List (N × N)} {Q : Unit → Frames N R → G → Prop} :
    L.wpx (discard moves) Q X fs g ↔ L.inv (fs.enter moves) g ∧ L.dropAll (fs.enter moves) g ∧
      Q () (fs.enter moves).tail g := Iff.rfl

theorem wpx_mono {Q' : β → Frames N R → G → Prop} {X' : ε → Frames N R → G → Prop}
    (hQ : ∀ b fs g, Q b fs g → Q' b fs g) (hX : ∀ e fs g, X e fs g → X' e fs g)
    (hm : L.wpx m Q X fs g) : L.wpx m Q' X' fs g := by
  refine wp_mono ?_ hm
  intro r fs g hr
  cases r with
  | ok b => exact hQ b fs g hr
  | error e => exact hX e fs g hr

/-- A call: what the body ends with is moved out or dropped. -/
theorem wpx_scope {params kept : List (N × N)} : L.wpx (scope params kept m) Q X fs g ↔
    L.inv (fs.enter params) g ∧ L.wpx m
      (fun b fs g => L.inv (fs.yield kept) g ∧ L.dropAll (fs.yield kept) g ∧
        Q b (fs.yield kept).tail g)
      (fun e fs g => L.dropAll fs g ∧ X e fs.tail g) (fs.enter params) g := by
  simp only [wpx, scope, ExceptT.run_mk, wp]
  rw [wp_bind]
  refine and_congr_right fun _ => ?_
  constructor
  · refine wp_mono ?_
    intro r fs g hr
    cases r <;> exact hr
  · refine wp_mono ?_
    intro r fs g hr
    cases r <;> exact hr

end Early
end Logic
end Scope
