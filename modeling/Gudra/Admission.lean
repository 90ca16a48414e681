import Gudra.Limits

/-! Every interleaving of reservations and drops keeps the budget exact. -/
namespace Gudra

variable {P : Platform}

def bufferBytes (rs : List Reservation) : ℕ := ((rs.filter (·.buffer)).map (·.bytes)).sum

def bufferCount (rs : List Reservation) : ℕ := rs.countP (·.buffer)

def operationCount (rs : List Reservation) : ℕ := rs.countP (! ·.buffer)

section Totals

variable {r : Reservation} {rs qs : List Reservation}

@[simp] theorem bufferBytes_nil : bufferBytes [] = 0 := rfl

@[simp] theorem bufferCount_nil : bufferCount [] = 0 := rfl

@[simp] theorem operationCount_nil : operationCount [] = 0 := rfl

@[simp] theorem bufferBytes_cons :
    bufferBytes (r :: rs) = (if r.buffer then r.bytes else 0) + bufferBytes rs := by
  cases h : r.buffer <;> simp [bufferBytes, h]

@[simp] theorem bufferCount_cons :
    bufferCount (r :: rs) = (if r.buffer then 1 else 0) + bufferCount rs := by
  cases h : r.buffer <;> simp [bufferCount, h, Nat.add_comm]

@[simp] theorem operationCount_cons :
    operationCount (r :: rs) = (if r.buffer then 0 else 1) + operationCount rs := by
  cases h : r.buffer <;> simp [operationCount, h, Nat.add_comm]

@[simp] theorem bufferBytes_append :
    bufferBytes (rs ++ qs) = bufferBytes rs + bufferBytes qs := by
  simp [bufferBytes]

@[simp] theorem bufferCount_append :
    bufferCount (rs ++ qs) = bufferCount rs + bufferCount qs := by
  simp [bufferCount]

@[simp] theorem operationCount_append :
    operationCount (rs ++ qs) = operationCount rs + operationCount qs := by
  simp [operationCount]

theorem bufferBytes_perm (h : rs.Perm qs) : bufferBytes rs = bufferBytes qs :=
  ((h.filter _).map _).sum_eq

theorem bufferCount_perm (h : rs.Perm qs) : bufferCount rs = bufferCount qs := h.countP_eq _

theorem operationCount_perm (h : rs.Perm qs) : operationCount rs = operationCount qs :=
  h.countP_eq _

end Totals

namespace Budget

/-- The counters are exactly the totals of the outstanding reservations and keep their limits. -/
structure Accounts (b : Budget P) (rs : List Reservation) : Prop where
  bytes_eq : b.usage.bytes = Gudra.bufferBytes rs
  buffers_eq : b.usage.buffers = bufferCount rs
  operations_eq : b.usage.operations = operationCount rs
  bytes_le : b.usage.bytes ≤ b.limits.totalBytes
  buffers_le : b.usage.buffers ≤ b.limits.buffers
  operations_le : b.usage.operations ≤ b.limits.operations
  each_le : ∀ r ∈ rs, r.buffer = true → r.bytes ≤ b.limits.bufferBytes

variable {b : Budget P} {r : Reservation} {rs qs : List Reservation}

@[simp] theorem released_limits : (b.released r).limits = b.limits := by
  unfold released
  split <;> rfl

theorem accounts_new (limits : ResourceLimits P) : (Budget.new limits).Accounts [] := by
  constructor <;> simp [Budget.new]

theorem Accounts.perm (h : b.Accounts rs) (hp : rs.Perm qs) : b.Accounts qs where
  bytes_eq := h.bytes_eq.trans (bufferBytes_perm hp)
  buffers_eq := h.buffers_eq.trans (bufferCount_perm hp)
  operations_eq := h.operations_eq.trans (operationCount_perm hp)
  bytes_le := h.bytes_le
  buffers_le := h.buffers_le
  operations_le := h.operations_le
  each_le := fun q hq => h.each_le q (hp.mem_iff.mpr hq)

theorem Accounts.charged {id bytes : ℕ} (h : b.Accounts rs) (hf : b.BufferFits bytes) :
    (b.charged bytes).Accounts (⟨id, bytes, true⟩ :: rs) := by
  obtain ⟨hb, ht, hn⟩ := hf
  refine ⟨?_, ?_, ?_, ht, hn, h.operations_le, ?_⟩
  · simp [Budget.charged, h.bytes_eq, Nat.add_comm]
  · simp [Budget.charged, h.buffers_eq, Nat.add_comm]
  · simp [Budget.charged, h.operations_eq]
  · intro q hq hbuf
    rcases List.mem_cons.mp hq with rfl | hq
    · exact hb
    · exact h.each_le q hq hbuf

theorem Accounts.started {id : ℕ} (h : b.Accounts rs) (hf : b.OperationFits) :
    b.started.Accounts (⟨id, 0, false⟩ :: rs) := by
  refine ⟨?_, ?_, ?_, h.bytes_le, h.buffers_le, hf, ?_⟩
  · simp [Budget.started, h.bytes_eq]
  · simp [Budget.started, h.buffers_eq]
  · simp [Budget.started, h.operations_eq, Nat.add_comm]
  · intro q hq hbuf
    rcases List.mem_cons.mp hq with rfl | hq
    · simp at hbuf
    · exact h.each_le q hq hbuf

/-- Dropping an outstanding reservation never underflows. -/
theorem Accounts.release (h : b.Accounts (r :: rs)) : b.release r = some (b.released r) := by
  have hbytes := h.bytes_eq
  have hbuffers := h.buffers_eq
  have hoperations := h.operations_eq
  cases hr : r.buffer with
  | true =>
    simp only [bufferBytes_cons, bufferCount_cons, hr, if_true] at hbytes hbuffers
    exact release_buffer hr (by omega) (by omega)
  | false =>
    simp only [operationCount_cons, hr, Bool.false_eq_true, if_false] at hoperations
    exact release_operation hr (by omega)

theorem Accounts.released (h : b.Accounts (r :: rs)) : (b.released r).Accounts rs := by
  have hbytes := h.bytes_eq
  have hbuffers := h.buffers_eq
  have hoperations := h.operations_eq
  have hle := h.bytes_le
  have hle' := h.buffers_le
  have hle'' := h.operations_le
  have heach := fun q hq => h.each_le q (List.mem_cons_of_mem r hq)
  cases hr : r.buffer <;>
    simp only [bufferBytes_cons, bufferCount_cons, operationCount_cons, hr, Bool.false_eq_true,
      if_true, if_false, Nat.zero_add] at hbytes hbuffers hoperations
  · constructor <;> simp only [Budget.released, hr, Bool.false_eq_true, if_false]
    all_goals first | exact heach | omega
  · constructor <;> simp only [Budget.released, hr, if_true]
    all_goals first | exact heach | omega

end Budget

/-! ### Calls on one shared budget -/

/-- One atomic call. Each critical section holds the mutex throughout, so an interleaving of any
number of threads is a list of these. -/
inductive Action (P : Platform) where
  | buffer (bytes : P.Usize)
  | operation
  | drop (i : ℕ)
  | forget (i : ℕ)

/-- The budget with the guards that are still live and those leaked by `mem::forget`. -/
structure Ledger (P : Platform) where
  budget : Budget P
  live : List Reservation
  forgotten : List Reservation

namespace Ledger

def start (limits : ResourceLimits P) : Ledger P := ⟨Budget.new limits, [], []⟩

def outstanding (l : Ledger P) : List Reservation := l.live ++ l.forgotten

def callBuffer (l : Ledger P) (bytes : ℕ) : Option (Except Error Reservation × Budget P) :=
  l.budget.reserve (Budget.buffer l.budget.limits 0 bytes)

def callOperation (l : Ledger P) : Option (Except Error Reservation × Budget P) :=
  l.budget.reserve (Budget.operation l.budget.limits 0)

def receive (l : Ledger P) : Except Error Reservation × Budget P → Ledger P
  | (.ok r, b) => { l with budget := b, live := r :: l.live }
  | (.error _, b) => { l with budget := b }

/-- `none` is a panicking addition or subtraction; an index that names no live guard does
nothing. -/
def step (l : Ledger P) : Action P → Option (Ledger P)
  | .buffer bytes => (l.callBuffer bytes.val).map l.receive
  | .operation => l.callOperation.map l.receive
  | .drop i =>
    match l.live[i]? with
    | some r => (l.budget.release r).map fun b => { l with budget := b, live := l.live.eraseIdx i }
    | none => some l
  | .forget i =>
    match l.live[i]? with
    | some r => some { l with live := l.live.eraseIdx i, forgotten := r :: l.forgotten }
    | none => some l

def run (l : Ledger P) (actions : List (Action P)) : Option (Ledger P) := actions.foldlM step l

/-- What holds of the ledger between two calls, and of whichever call comes next. -/
structure Exact (limits : ResourceLimits P) (l : Ledger P) : Prop where
  limits_eq : l.budget.limits = limits
  accounts : l.budget.Accounts l.outstanding
  buffer_refused : ∀ bytes, (∃ e b, l.callBuffer bytes = some (.error e, b)) ↔
    ¬ (bytes ≤ limits.bufferBytes ∧ bufferBytes l.outstanding + bytes ≤ limits.totalBytes ∧
      bufferCount l.outstanding + 1 ≤ limits.buffers)
  operation_refused : (∃ e b, l.callOperation = some (.error e, b)) ↔
    ¬ operationCount l.outstanding + 1 ≤ limits.operations
  /-- A guard is for exactly what was asked, and exactly that is added. -/
  buffer_granted : ∀ bytes r b, l.callBuffer bytes = some (.ok r, b) →
    r = ⟨0, bytes, true⟩ ∧ b.limits = limits ∧ b.usage = { l.budget.usage with
      bytes := l.budget.usage.bytes + bytes, buffers := l.budget.usage.buffers + 1 }
  operation_granted : ∀ r b, l.callOperation = some (.ok r, b) →
    r = ⟨0, 0, false⟩ ∧ b.limits = limits ∧ b.usage = { l.budget.usage with
      operations := l.budget.usage.operations + 1 }
  buffer_unchanged : ∀ bytes e b, l.callBuffer bytes = some (.error e, b) →
    b.usage = l.budget.usage
  operation_unchanged : ∀ e b, l.callOperation = some (.error e, b) → b.usage = l.budget.usage

variable {l : Ledger P} {limits : ResourceLimits P}

theorem outstanding_eraseIdx {i : ℕ} {r : Reservation} (h : l.live[i]? = some r) :
    l.outstanding.Perm (r :: (l.live.eraseIdx i ++ l.forgotten)) := by
  obtain ⟨hi, rfl⟩ := List.getElem?_eq_some_iff.mp h
  exact ((List.getElem_cons_eraseIdx_perm hi).append_right l.forgotten).symm

/-- One call never panics and keeps the ledger accounted. -/
theorem step_accounts (h : l.budget.Accounts l.outstanding) (a : Action P) :
    ∃ l', l.step a = some l' ∧ l'.budget.limits = l.budget.limits ∧
      l'.budget.Accounts l'.outstanding := by
  cases a with
  | buffer bytes =>
    by_cases hf : l.budget.BufferFits bytes.val
    · simp only [step, callBuffer, Budget.buffer_ok hf, Option.map_some]
      exact ⟨_, rfl, rfl, h.charged hf⟩
    · obtain ⟨resource, maximum, he⟩ := Budget.buffer_error 0 hf
      simp only [step, callBuffer, he, Option.map_some]
      exact ⟨_, rfl, rfl, h⟩
  | operation =>
    by_cases hf : l.budget.OperationFits
    · simp only [step, callOperation, Budget.operation_ok hf, Option.map_some]
      exact ⟨_, rfl, rfl, h.started hf⟩
    · simp only [step, callOperation, Budget.operation_error hf, Option.map_some]
      exact ⟨_, rfl, rfl, h⟩
  | drop i =>
    cases hi : l.live[i]? with
    | none => exact ⟨l, by simp [step, hi], rfl, h⟩
    | some r =>
      have hr := h.perm (outstanding_eraseIdx hi)
      simp only [step, hi, hr.release, Option.map_some]
      exact ⟨_, rfl, Budget.released_limits, hr.released⟩
  | forget i =>
    cases hi : l.live[i]? with
    | none => exact ⟨l, by simp [step, hi], rfl, h⟩
    | some r =>
      simp only [step, hi]
      exact ⟨_, rfl, rfl, h.perm ((outstanding_eraseIdx hi).trans List.perm_middle.symm)⟩

theorem run_accounts (h : l.budget.Accounts l.outstanding) (actions : List (Action P)) :
    ∃ l', l.run actions = some l' ∧ l'.budget.limits = l.budget.limits ∧
      l'.budget.Accounts l'.outstanding := by
  induction actions generalizing l with
  | nil => exact ⟨l, rfl, rfl, h⟩
  | cons a actions ih =>
    obtain ⟨m, hm, hlim, hacc⟩ := step_accounts h a
    obtain ⟨l', hl', hlim', hacc'⟩ := ih hacc
    exact ⟨l', by simpa [run, hm] using hl', hlim'.trans hlim, hacc'⟩

theorem exact_of_accounts (h : l.budget.Accounts l.outstanding) : Exact l.budget.limits l := by
  have hbuffer : ∀ bytes, l.budget.BufferFits bytes ↔
      (bytes ≤ l.budget.limits.bufferBytes ∧
        bufferBytes l.outstanding + bytes ≤ l.budget.limits.totalBytes ∧
        bufferCount l.outstanding + 1 ≤ l.budget.limits.buffers) := by
    intro bytes
    rw [Budget.BufferFits, h.bytes_eq, h.buffers_eq]
  have hoperation : l.budget.OperationFits ↔
      operationCount l.outstanding + 1 ≤ l.budget.limits.operations := by
    rw [Budget.OperationFits, h.operations_eq]
  refine ⟨rfl, h, ?_, ?_, ?_, ?_, ?_, ?_⟩
  · intro bytes
    rw [← hbuffer]
    constructor
    · rintro ⟨e, b, he⟩ hf
      simp [callBuffer, Budget.buffer_ok hf] at he
    · intro hf
      obtain ⟨resource, maximum, he⟩ := Budget.buffer_error 0 hf
      exact ⟨_, _, he⟩
  · rw [← hoperation]
    constructor
    · rintro ⟨e, b, he⟩ hf
      simp [callOperation, Budget.operation_ok hf] at he
    · intro hf
      exact ⟨_, _, Budget.operation_error hf⟩
  · intro bytes r b he
    by_cases hf : l.budget.BufferFits bytes
    · simp only [callBuffer, Budget.buffer_ok hf, Option.some.injEq, Prod.mk.injEq,
        Except.ok.injEq] at he
      obtain ⟨rfl, rfl⟩ := he
      exact ⟨rfl, rfl, rfl⟩
    · obtain ⟨resource, maximum, he'⟩ := Budget.buffer_error 0 hf
      simp [callBuffer, he'] at he
  · intro r b he
    by_cases hf : l.budget.OperationFits
    · simp only [callOperation, Budget.operation_ok hf, Option.some.injEq, Prod.mk.injEq,
        Except.ok.injEq] at he
      obtain ⟨rfl, rfl⟩ := he
      exact ⟨rfl, rfl, rfl⟩
    · simp [callOperation, Budget.operation_error hf] at he
  · intro bytes e b he
    by_cases hf : l.budget.BufferFits bytes
    · simp [callBuffer, Budget.buffer_ok hf] at he
    · obtain ⟨resource, maximum, he'⟩ := Budget.buffer_error 0 hf
      simp only [callBuffer, he', Option.some.injEq, Prod.mk.injEq] at he
      rw [← he.2]
  · intro e b he
    by_cases hf : l.budget.OperationFits
    · simp [callOperation, Budget.operation_ok hf] at he
    · simp only [callOperation, Budget.operation_error hf, Option.some.injEq,
        Prod.mk.injEq] at he
      rw [← he.2]

/-- From fresh limits no sequence of calls panics, and after it the counters are exactly the
outstanding reservations within the limits; a call is refused exactly when it would break one. -/
theorem budget_exact (limits : ResourceLimits P) (actions : List (Action P)) :
    ∃ l, (start limits).run actions = some l ∧ Exact limits l := by
  obtain ⟨l, hl, hlim, hacc⟩ := @run_accounts P (start limits) (Budget.accounts_new limits) actions
  have hlim : l.budget.limits = limits := hlim
  exact ⟨l, hl, hlim ▸ exact_of_accounts hacc⟩

end Ledger
end Gudra
