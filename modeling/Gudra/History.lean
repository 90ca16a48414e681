import Gudra.Requests

/-! What the log of a run may contain: every event in the light of those before it. -/
namespace Gudra

open Scope

variable {P : Platform} {α : Type}

/-- The execution that an event reports. -/
def Event.kernel? : Event P α → Option (KernelEvent α)
  | submitted _ l => some (.submitted l)
  | completed _ l => some (.completed l)
  | failed _ l => some (.failed l)
  | _ => none

/-- The executions of task `i`, newest first. -/
def kernelsOf (i : ℕ) (log : List (Event P α)) : List (KernelEvent α) :=
  (log.filter fun e => e.task = i).filterMap Event.kernel?

@[simp] theorem kernelsOf_nil {i : ℕ} : kernelsOf i ([] : List (Event P α)) = [] := rfl

theorem kernelsOf_cons {i : ℕ} {e : Event P α} {log : List (Event P α)} (h : e.task = i) :
    kernelsOf i (e :: log) = e.kernel?.toList ++ kernelsOf i log := by
  cases hk : e.kernel? <;> simp [kernelsOf, h, hk]

theorem kernelsOf_cons_of_ne {i : ℕ} {e : Event P α} {log : List (Event P α)} (h : e.task ≠ i) :
    kernelsOf i (e :: log) = kernelsOf i log := by
  simp [kernelsOf, h]

theorem kernelsOf_of_none {i : ℕ} {e : Event P α} {log : List (Event P α)} (h : e.kernel? = none) :
    kernelsOf i (e :: log) = kernelsOf i log := by
  by_cases hi : e.task = i
  · rw [kernelsOf_cons hi, h]
    rfl
  · exact kernelsOf_cons_of_ne hi

theorem kernelsOf_append {i : ℕ} {es log : List (Event P α)} (h : ∀ e ∈ es, e.task ≠ i) :
    kernelsOf i (es ++ log) = kernelsOf i log := by
  induction es with
  | nil => rfl
  | cons e es ih =>
    rw [List.cons_append, kernelsOf_cons_of_ne (h e List.mem_cons_self)]
    exact ih fun e he => h e (List.mem_cons_of_mem _ he)

theorem kernelsOf_of_fresh {i : ℕ} {log : List (Event P α)} (h : ∀ e ∈ log, e.task ≠ i) :
    kernelsOf i log = [] := by
  have happend : kernelsOf i (log ++ []) = kernelsOf i [] := kernelsOf_append h
  rwa [List.append_nil] at happend

/-- The flags and contents of the buffers of a call. -/
def arguments (uncertain : ℕ → Bool) (m : Addr → α) (bs : List (Buffer P)) :
    List (Bool × List α) :=
  bs.map fun b => (uncertain b.id, contents m b.tensor.storage)

/-- A batch that a grid completed. -/
structure GridRecord (P : Platform) (α : Type) where
  shape : Shape2D P
  initial : List α
  rhs : List α
  batches : List (ℕ × JacobiParams α)

section Scalars

variable [Scalar α]

/-- The contents of both halves after the recorded batches. -/
def GridRecord.contents (r : GridRecord P α) : List α × List α :=
  r.batches.foldl (fun c batch => (r.shape.advanced batch.2 r.rhs)^[batch.1] c)
    (r.initial, r.initial)

end Scalars

def GridRecord.completed (r : GridRecord P α) : ℕ := (r.batches.map Prod.fst).sum

def GridRecord.append (r : GridRecord P α) (count : ℕ) (params : JacobiParams α) :
    GridRecord P α :=
  { r with batches := r.batches ++ [(count, params)] }

/-- A grid keeps its RHS for life, so that its record is kept under the identity of the RHS. -/
def Event.recordGrid (e : Event P α) (h : ℕ → Option (GridRecord P α)) :
    ℕ → Option (GridRecord P α) :=
  match e with
  | returned _ (.doubleGrid _ shape initial rhs) (.ok (.grid g)) _ _ =>
    Function.update h g.rhs.storage.id (some ⟨shape, initial, rhs, []⟩)
  | returned _ (.advance _ count params) (.ok (.grid g)) _ _
  | returned _ (.advanceAsync _ count params) (.ok (.grid g)) _ _ =>
    Function.update h g.rhs.storage.id ((h g.rhs.storage.id).map fun r => r.append count params)
  | _ => h

/-- The record of each grid after a log. -/
def gridRecord : List (Event P α) → ℕ → Option (GridRecord P α)
  | [] => fun _ => none
  | e :: log => e.recordGrid (gridRecord log)

variable [Scalar α]

/-- What a call knows when it starts. -/
def Ghost.start (log : List (Event P α)) (uncertain : ℕ → Bool) : Ghost α :=
  ⟨Gudra.status log, uncertain, [], false, false, none⟩

/-- The grid holds what its record says. -/
def Recorded (log : List (Event P α)) (g : DoubleGrid P) : Prop :=
  ∃ r, gridRecord log g.rhs.storage.id = some r ∧ g.shape = r.shape ∧ g.completed = r.completed ∧
    g.At (Ghost.start log fun _ => false) r.contents r.rhs

/-- Task `i` is the call `r`, which started after `before` on the flags `u` and the memory `m`. -/
structure Told (log : List (Event P α)) (i : ℕ) (r : Request P α) (before : List (Event P α))
    (u : ℕ → Bool) (m : Addr → α) : Prop where
  called : ∃ after, log = after ++ .called i r (arguments u m r.buffers) :: before
  fresh : ∀ e ∈ before, e.task ≠ i
  pre : r.Pre (Ghost.start before u)
  holds : ∀ id data, status before id = .settled data → Holds m id data
  recorded : ∀ g, .grid g ∈ r.named → Recorded before g

theorem Told.append {log before : List (Event P α)} {i : ℕ} {r : Request P α} {u : ℕ → Bool}
    {m : Addr → α} (h : Told log i r before u m) (es : List (Event P α)) :
    Told (es ++ log) i r before u m := by
  obtain ⟨⟨after, rfl⟩, hfresh, hpre, hholds, hrecorded⟩ := h
  exact ⟨⟨es ++ after, (List.append_assoc ..).symm⟩, hfresh, hpre, hholds, hrecorded⟩

/-- The launches of a call, in their order. -/
def Request.Next (r : Request P α) (g₀ : Ghost α) (st : ℕ → Status α)
    (ks : List (KernelEvent α)) (l : Launch α) : Prop :=
  match r with
  | .stepIntoAsync .. => ks = []
  | .advanceAsync grid count params => ∃ k < count, ks = grid.history params k ∧
    l = (grid.after k).operation params ∧
    st (grid.after k).current.storage.id = .settled ((grid.shape.advanced params
      (g₀.data grid.rhs.storage.tensor.storage))^[k]
      (g₀.data grid.current.storage.tensor.storage,
        g₀.data grid.next.storage.tensor.storage)).1
  | _ => True

/-- The execution `l` of task `i` begins. -/
structure Begins (log : List (Event P α)) (i : ℕ) (l : Launch α) (r : Request P α)
    (before : List (Event P α)) (u : ℕ → Bool) : Prop where
  check : r.check u = .ok ()
  wellFormed : ∃ shape : Shape2D P, l.WellFormed shape
  operands : ∀ t ∈ l.output :: l.inputs, t.storage.session = r.session.id ∧
    ∃ data, status log t.storage.id = .settled data ∧ data.length = t.storage.len
  next : r.Next (Ghost.start before u) (status log) (kernelsOf i log) l
  polled : r.isAsync = true → .polled i ∈ log ∧ .device i false ∉ log
  alive : .cancelled i ∉ log

/-- After the events `log` the buffers `bs` hold `contents`. -/
def Settled (log : List (Event P α)) (bs : List (Buffer P)) (contents : List (List α)) : Prop :=
  List.Forall₂ (fun b data => status log b.id = .settled data) bs contents

/-- How task `i` ends, after the events `log`. -/
def Ends (log : List (Event P α)) (i : ℕ) (r : Request P α) (before : List (Event P α))
    (u : ℕ → Bool) (m : Addr → α) (args : List (Bool × List α)) (stored : List (List α)) :
    Except Error (Outcome P α) → Prop
  | .ok o => r.check u = .ok () ∧ (∀ x ∈ args, x.1 = false) ∧
    r.Result ((arguments u m r.buffers).map Prod.snd) o stored (args.map Prod.snd) ∧
    r.final (kernelsOf i log) ∧ (r.isAsync = true → .polled i ∈ log ∧ .device i false ∉ log) ∧
    (∀ g, .grid g ∈ r.named →
      gridRecord log g.rhs.storage.id = gridRecord before g.rhs.storage.id) ∧
    Settled log o.stored stored ∧ Settled log r.borrowed (args.map Prod.snd)
  | .error e => (kernelsOf i log = [] → args = arguments u m r.borrowed) ∧
    (r.isAsync = true → .created i ∉ log →
      r.check u = .error e ∨ ∃ s, .reserved i s (.error e) ∈ log) ∧
    (.created i ∈ log → r.unfinished (kernelsOf i log))

/-- What an event means after the events `log`. -/
def Event.Good (log : List (Event P α)) : Event P α → Prop
  | called i r args => (∀ e ∈ log, e.task ≠ i) ∧ ∃ u m, args = arguments u m r.buffers ∧
    r.Pre (Ghost.start log u) ∧ (∀ id data, status log id = .settled data → Holds m id data) ∧
    ∀ g, .grid g ∈ r.named → Recorded log g
  | reserved i s _ => ∃ r before u m, Told log i r before u m ∧ s = r.session.id
  | created i => ∃ r before u m, Told log i r before u m ∧ r.isAsync = true ∧ r.check u = .ok ()
  | device i _ => ∃ r before u m, Told log i r before u m ∧ r.check u = .ok ()
  | uploaded i s data => status log s.id = .absent ∧ data.length = s.len ∧
    ∃ r before u m, Told log i r before u m ∧ r.check u = .ok ()
  | submitted i l => ∃ r before u m, Told log i r before u m ∧ Begins log i l r before u
  | completed i l => status log l.output.storage.id = .busy ∧
    (∃ ks, kernelsOf i log = .submitted l :: ks) ∧
    ∀ t ∈ l.inputs, ∃ data, status log t.storage.id = .settled data
  | failed i l => (∃ r before u m, Told log i r before u m ∧ Begins log i l r before u) ∨
    (∃ ks, kernelsOf i log = .submitted l :: ks) ∨
    ∃ ks, kernelsOf i log = .completed l :: .submitted l :: ks
  | polled i | cancelled i | forgotten i => .created i ∈ log
  | returned i r result args stored => ∃ before u m, Told log i r before u m ∧
    .cancelled i ∉ log ∧ Ends log i r before u m args stored result

/-- Every event is good after those before it. -/
def GoodLog : List (Event P α) → Prop
  | [] => True
  | e :: log => e.Good log ∧ GoodLog log

section Logs

variable {log es before after : List (Event P α)} {e : Event P α} {id : ℕ}

theorem GoodLog.of_append (h : GoodLog (es ++ log)) : GoodLog log := by
  induction es with
  | nil => exact h
  | cons e es ih => exact ih h.2

theorem GoodLog.good (h : GoodLog (after ++ e :: before)) : e.Good before := by
  have hrest : GoodLog (e :: before) := h.of_append
  exact hrest.1

/-- Nothing repairs a broken allocation. -/
theorem broken_cons (h : e.Good log) (hid : status log id = .broken) :
    status (e :: log) id = .broken := by
  have hne : ∀ x, status log x ≠ .broken → ∀ s : Status α,
      Function.update (status log) x s id = .broken := by
    intro x hx s
    have hne : id ≠ x := fun he => hx (he ▸ hid)
    rw [Function.update_of_ne hne, hid]
  cases e with
  | uploaded i s data => exact hne _ (by simp [h.1]) _
  | submitted i l =>
    obtain ⟨r, before, u, m, -, hb⟩ := h
    obtain ⟨-, data, hdata, -⟩ := hb.operands l.output List.mem_cons_self
    exact hne _ (by simp [hdata]) _
  | completed i l => exact hne _ (by simp [h.1]) _
  | failed i l =>
    by_cases hl : id = l.output.storage.id
    · exact hl ▸ Function.update_self ..
    · exact (Function.update_of_ne hl _ _).trans hid
  | _ => exact hid

theorem broken_append (h : GoodLog (es ++ log)) (hid : status log id = .broken) :
    status (es ++ log) id = .broken := by
  induction es with
  | nil => exact hid
  | cons e es ih => exact broken_cons h.1 (ih h.2)

/-- A failed execution breaks its output for good. -/
theorem broken_of_failed {i : ℕ} {l : Launch α} (h : GoodLog log) (hmem : .failed i l ∈ log) :
    status log l.output.storage.id = .broken := by
  obtain ⟨after, before, rfl⟩ := List.append_of_mem hmem
  exact broken_append h (Function.update_self ..)

end Logs
end Gudra
