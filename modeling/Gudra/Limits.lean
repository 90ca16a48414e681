import Gudra.Shape

/-! Admission budgets of one session (`limits.rs`). -/
namespace Gudra

/-- Positive limits with the per-buffer bytes inside the total, as `ResourceLimits::new` checks. -/
structure ResourceLimits (P : Platform) where
  bufferBytes : ℕ
  totalBytes : ℕ
  buffers : ℕ
  operations : ℕ
  bufferBytes_pos : 0 < bufferBytes
  totalBytes_pos : 0 < totalBytes
  buffers_pos : 0 < buffers
  operations_pos : 0 < operations
  bufferBytes_le : bufferBytes ≤ totalBytes
  totalBytes_le : totalBytes ≤ P.usizeMax
  buffers_le : buffers ≤ P.usizeMax
  operations_le : operations ≤ P.usizeMax

def ResourceLimits.new {P : Platform} (bufferBytes totalBytes buffers operations : P.Usize) :
    Except Error (ResourceLimits P) :=
  if h : bufferBytes.val = 0 ∨ totalBytes.val = 0 ∨ buffers.val = 0 ∨ operations.val = 0 ∨
      totalBytes.val < bufferBytes.val then
    .error .invalidResourceLimits
  else
    .ok {
      bufferBytes := bufferBytes.val
      totalBytes := totalBytes.val
      buffers := buffers.val
      operations := operations.val
      bufferBytes_pos := by omega
      totalBytes_pos := by omega
      buffers_pos := by omega
      operations_pos := by omega
      bufferBytes_le := by omega
      totalBytes_le := totalBytes.property
      buffers_le := buffers.property
      operations_le := operations.property }

/-- Room for a solve of one cell, and not for a byte more. -/
def ResourceLimits.cell : ResourceLimits ⟨64, Platform.le_64⟩ where
  bufferBytes := 36
  totalBytes := 44
  buffers := 3
  operations := 1
  bufferBytes_pos := by decide
  totalBytes_pos := by decide
  buffers_pos := by decide
  operations_pos := by decide
  bufferBytes_le := by decide
  totalBytes_le := by decide
  buffers_le := by decide
  operations_le := by decide

/-- Room for a grid of one cell. -/
def ResourceLimits.gridCell : ResourceLimits ⟨64, Platform.le_64⟩ where
  bufferBytes := 36
  totalBytes := 76
  buffers := 3
  operations := 1
  bufferBytes_pos := by decide
  totalBytes_pos := by decide
  buffers_pos := by decide
  operations_pos := by decide
  bufferBytes_le := by decide
  totalBytes_le := by decide
  buffers_le := by decide
  operations_le := by decide

def check (resource : String) (amount maximum : ℕ) : Except Error Unit :=
  if maximum < amount then .error (.resourceLimit resource maximum) else .ok ()

structure Usage where
  bytes : ℕ
  buffers : ℕ
  operations : ℕ
deriving DecidableEq, Repr

/-- A guard on one budget. It has no `Clone`, so it is consumed by exactly one drop. -/
structure Reservation where
  budget : ℕ
  bytes : ℕ
  buffer : Bool
deriving DecidableEq, Repr

/-- A critical section on the mutex-guarded usage; `none` is an arithmetic panic. -/
abbrev Locked := Checked Usage

structure Budget (P : Platform) where
  limits : ResourceLimits P
  usage : Usage

namespace Budget

open Checked

variable {P : Platform}

def new (limits : ResourceLimits P) : Budget P := ⟨limits, ⟨0, 0, 0⟩⟩

/-- `Budget::buffer`, where `id` stands for the `Arc` that the guard clones. -/
def buffer (limits : ResourceLimits P) (id bytes : ℕ) : Locked Reservation := do
  check "buffer bytes" bytes limits.bufferBytes
  let usage ← get
  let total ← okOr (.resourceLimit "device bytes" limits.totalBytes)
    (P.checkedAdd usage.bytes bytes)
  check "device bytes" total limits.totalBytes
  if limits.buffers ≤ usage.buffers then
    throw (.resourceLimit "live buffers" limits.buffers)
  modify fun usage => { usage with bytes := total }
  let buffers ← P.checkedAdd usage.buffers 1
  modify fun usage => { usage with buffers }
  return ⟨id, bytes, true⟩

/-- `Budget::operation` -/
def operation (limits : ResourceLimits P) (id : ℕ) : Locked Reservation := do
  let usage ← get
  if limits.operations ≤ usage.operations then
    throw (.resourceLimit "operations" limits.operations)
  let operations ← P.checkedAdd usage.operations 1
  modify fun usage => { usage with operations }
  return ⟨id, 0, false⟩

/-- `Drop for Reservation` -/
def drop (r : Reservation) : StateT Usage Option Unit := do
  let usage ← get
  if r.buffer then
    let bytes ← checkedSub usage.bytes r.bytes
    modify fun usage => { usage with bytes }
    let buffers ← checkedSub usage.buffers 1
    modify fun usage => { usage with buffers }
  else
    let operations ← checkedSub usage.operations 1
    modify fun usage => { usage with operations }

/-- A section that reserves, run on this budget. -/
def reserve (b : Budget P) (guarded : Locked Reservation) :
    Option (Except Error Reservation × Budget P) :=
  (guarded b.usage).map fun (r, usage) => (r, { b with usage })

def release (b : Budget P) (r : Reservation) : Option (Budget P) :=
  (drop r b.usage).map fun (_, usage) => { b with usage }

/-- Granting `bytes` more keeps every buffer limit. -/
def BufferFits (b : Budget P) (bytes : ℕ) : Prop :=
  bytes ≤ b.limits.bufferBytes ∧ b.usage.bytes + bytes ≤ b.limits.totalBytes ∧
    b.usage.buffers + 1 ≤ b.limits.buffers

def OperationFits (b : Budget P) : Prop := b.usage.operations + 1 ≤ b.limits.operations

instance (b : Budget P) (bytes : ℕ) : Decidable (b.BufferFits bytes) := by
  unfold BufferFits; infer_instance

instance (b : Budget P) : Decidable b.OperationFits := by
  unfold OperationFits; infer_instance

/-- The budget after a granted buffer. -/
def charged (b : Budget P) (bytes : ℕ) : Budget P :=
  { b with usage := { b.usage with
      bytes := b.usage.bytes + bytes, buffers := b.usage.buffers + 1 } }

/-- The budget after a granted operation. -/
def started (b : Budget P) : Budget P :=
  { b with usage := { b.usage with operations := b.usage.operations + 1 } }

/-- The budget after a drop in which no counter underflows. -/
def released (b : Budget P) (r : Reservation) : Budget P :=
  if r.buffer then
    { b with usage := { b.usage with
        bytes := b.usage.bytes - r.bytes, buffers := b.usage.buffers - 1 } }
  else
    { b with usage := { b.usage with operations := b.usage.operations - 1 } }

theorem drop_get_bind {γ : Type} (f : Usage → StateT Usage Option γ) (u : Usage) :
    (get >>= f : StateT Usage Option γ) u = f u u := rfl

theorem buffer_ok {b : Budget P} {id bytes : ℕ} (h : b.BufferFits bytes) :
    b.reserve (buffer b.limits id bytes) = some (.ok ⟨id, bytes, true⟩, b.charged bytes) := by
  obtain ⟨hb, ht, hn⟩ := h
  have htotal := b.limits.totalBytes_le
  have hbuffers := b.limits.buffers_le
  have hadd : b.usage.bytes + bytes ≤ P.usizeMax := by omega
  have hone : b.usage.buffers + 1 ≤ P.usizeMax := by omega
  have hroom : ¬ b.limits.buffers ≤ b.usage.buffers := by omega
  simp only [reserve, buffer, check, okOr, Platform.checkedAdd, hadd, hone, not_lt.mpr hb,
    not_lt.mpr ht, hroom, if_true, if_false, lift_ok_bind, lift_some_bind, get_bind]
  rfl

/-- A refused buffer names a limit and changes nothing. -/
theorem buffer_error {b : Budget P} (id : ℕ) {bytes : ℕ} (h : ¬ b.BufferFits bytes) :
    ∃ resource maximum, b.reserve (buffer b.limits id bytes) =
      some (.error (.resourceLimit resource maximum), b) := by
  by_cases hb : b.limits.bufferBytes < bytes
  · exact ⟨_, _, by simp only [reserve, buffer, check, hb, if_true, lift_error_bind]; rfl⟩
  by_cases hadd : b.usage.bytes + bytes ≤ P.usizeMax
  · by_cases ht : b.limits.totalBytes < b.usage.bytes + bytes
    · exact ⟨_, _, by
        simp only [reserve, buffer, check, okOr, Platform.checkedAdd, hb, hadd, ht, if_true,
          if_false, lift_ok_bind, lift_error_bind, get_bind]
        rfl⟩
    · have hn : b.limits.buffers ≤ b.usage.buffers := by
        simp only [BufferFits] at h
        omega
      exact ⟨_, _, by
        simp only [reserve, buffer, check, okOr, Platform.checkedAdd, hb, hadd, ht, hn, if_true,
          if_false, lift_ok_bind, get_bind]
        rfl⟩
  · exact ⟨_, _, by
      simp only [reserve, buffer, check, okOr, Platform.checkedAdd, hb, hadd, if_false,
        lift_ok_bind, lift_error_bind, get_bind]
      rfl⟩

theorem operation_ok {b : Budget P} {id : ℕ} (h : b.OperationFits) :
    b.reserve (operation b.limits id) = some (.ok ⟨id, 0, false⟩, b.started) := by
  have hoperations := b.limits.operations_le
  simp only [OperationFits] at h
  have hone : b.usage.operations + 1 ≤ P.usizeMax := by omega
  have hroom : ¬ b.limits.operations ≤ b.usage.operations := by omega
  simp only [reserve, operation, Platform.checkedAdd, hone, hroom, if_true, if_false,
    lift_some_bind, get_bind]
  rfl

theorem operation_error {b : Budget P} {id : ℕ} (h : ¬ b.OperationFits) :
    b.reserve (operation b.limits id) =
      some (.error (.resourceLimit "operations" b.limits.operations), b) := by
  simp only [OperationFits] at h
  have hroom : b.limits.operations ≤ b.usage.operations := by omega
  simp only [reserve, operation, hroom, if_true, get_bind]
  rfl

theorem release_buffer {b : Budget P} {r : Reservation} (hr : r.buffer = true)
    (hb : r.bytes ≤ b.usage.bytes) (hn : 1 ≤ b.usage.buffers) :
    b.release r = some (b.released r) := by
  simp only [release, drop, released, drop_get_bind, checkedSub, hr, hb, hn, if_true]
  rfl

theorem release_operation {b : Budget P} {r : Reservation} (hr : r.buffer = false)
    (hn : 1 ≤ b.usage.operations) : b.release r = some (b.released r) := by
  simp only [release, drop, released, drop_get_bind, checkedSub, hr, hn, Bool.false_eq_true,
    if_false, if_true]
  rfl

end Budget
end Gudra
