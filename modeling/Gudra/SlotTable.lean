import Gudra.Lib.Bitmap

/-! The slot table that the flag-write reactor shares with its registrants. -/
namespace Gudra.Reactor

structure SlotTable (R : Type) where
  numSlots : ℕ
  /-- Completion flags in pinned memory: 0 is pending, 1 is done. -/
  flags : ℕ → ℕ
  active : ℕ → BitVec 64
  payload : ℕ → Option R
  /-- The idle slots as a stack. -/
  free : List ℕ
  nArmed : ℕ

namespace SlotTable

variable {R : Type} (t : SlotTable R)

def new (numSlots : ℕ) : SlotTable R :=
  { numSlots, flags := fun _ => 0, active := fun _ => 0#64, payload := fun _ => none,
    free := List.range numSlots, nArmed := 0 }

/-- `num_slots.div_ceil(64)`. -/
def numWords : ℕ := (t.numSlots + 63) / 64

def isIdle : Bool := t.nArmed == 0

def claim : Option (ℕ × SlotTable R) :=
  match t.free with
  | [] => none
  | slot :: free => some (slot, { t with free })

def release (slot : ℕ) : SlotTable R := { t with free := slot :: t.free }

def resetFlag (slot : ℕ) : SlotTable R := { t with flags := Function.update t.flags slot 0 }

/-- The device writes the flag that `register` asked for. -/
def land (slot : ℕ) : SlotTable R := { t with flags := Function.update t.flags slot 1 }

/-! `publish`, one access after the other. -/

def putPayload (slot : ℕ) (r : R) : SlotTable R :=
  { t with payload := Function.update t.payload slot (some r) }

/-- `n_armed.fetch_add(1)`; `isIdle` is whether it found 0. -/
def count : SlotTable R := { t with nArmed := t.nArmed + 1 }

def setActive (slot : ℕ) : SlotTable R := { t with active := Bitmap.set t.active slot }

/-! `scan_inner`, one access after the other. -/

def clearActive (word bit : ℕ) : SlotTable R :=
  { t with active := Bitmap.clear t.active word bit }

def takePayload (slot : ℕ) : SlotTable R :=
  { t with payload := Function.update t.payload slot none }

def recycle (retired : List ℕ) : SlotTable R := { t with free := retired ++ t.free }

/-- `n_armed.fetch_sub(n)`. -/
def uncount (n : ℕ) : SlotTable R := { t with nArmed := t.nArmed - n }

/-- The slots that the scanner watches. -/
def armed : List ℕ := Bitmap.members t.active t.numSlots

end SlotTable

/-- What one pass over the bitmap has found; `retired` has the last slot first. -/
structure Pass (R : Type) where
  probing : Bool
  woken : List R
  dead : List R
  retired : List ℕ
  anyActive : Bool
  /-- The streams that this pass asked for, and whether each was faulted. -/
  memo : List (ℕ × Bool)

def Pass.start {R : Type} (probing : Bool) : Pass R := ⟨probing, [], [], [], false, []⟩

/-- Where the scanner stands: before the access that the name says. -/
inductive Scanner (R : Type) where
  /-- `active[word].load`. -/
  | load (word : ℕ) (pass : Pass R)
  /-- The flag of the lowest of the word's remaining bits. -/
  | flag (word : ℕ) (bits : BitVec 64) (pass : Pass R)
  /-- The payload, for `is_dead`: the memo, and whether the stream is capturing. -/
  | judge (word : ℕ) (bits : BitVec 64) (bit : ℕ) (pass : Pass R)
  /-- The query of `is_dead`. -/
  | query (word : ℕ) (bits : BitVec 64) (bit : ℕ) (pass : Pass R)
  | clear (word : ℕ) (bits : BitVec 64) (bit : ℕ) (landed : Bool) (pass : Pass R)
  | take (word : ℕ) (bits : BitVec 64) (bit : ℕ) (landed : Bool) (pass : Pass R)
  | recycle (pass : Pass R)
  | uncount (pass : Pass R)
  /-- `signal` of the first woken registration: the store to `complete`. -/
  | signal (pass : Pass R)
  /-- `signal` of the first woken registration: the wake. -/
  | wake (pass : Pass R)
  /-- `wake` of the first registration of a stream that was found faulted. -/
  | fault (pass : Pass R)
  /-- `is_idle`. -/
  | gate
  | park

namespace Scanner

variable {R : Type}

/-- A plain scan from the first word. -/
def start : Scanner R := .load 0 (Pass.start false)

/-- After a scan: the woken are signalled, the dead are woken, and an idle plain scan may park. -/
def finish (pass : Pass R) : Scanner R :=
  match pass.woken, pass.dead with
  | _ :: _, _ => .signal pass
  | [], _ :: _ => .fault pass
  | [], [] => if pass.probing then start else .gate

/-- After a signal or a wake. -/
def drain (pass : Pass R) : Scanner R :=
  match pass.woken, pass.dead with
  | _ :: _, _ => .signal pass
  | [], _ :: _ => .fault pass
  | [], [] => start

/-- After the last word. -/
def close (pass : Pass R) : Scanner R :=
  match pass.retired with
  | [] => finish pass
  | _ :: _ => .recycle pass

/-- After a bit of `word`. -/
def next (word : ℕ) (bits : BitVec 64) (pass : Pass R) : Scanner R :=
  if bits = 0#64 then .load (word + 1) pass else .flag word bits pass

end Scanner
end Gudra.Reactor
