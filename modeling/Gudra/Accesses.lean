import Gudra.DeviceFuture

/-! What one access of a call to a future does, and one of the scanner. -/
namespace Gudra.Reactor

namespace Scanner

variable {R : Type}

/-- What the pass has found so far. -/
def pass : Scanner R → Pass R
  | .load _ pass | .flag _ _ pass | .judge _ _ _ pass | .query _ _ _ pass | .clear _ _ _ _ pass
  | .take _ _ _ _ pass | .recycle pass | .uncount pass | .signal pass | .wake pass
  | .fault pass => pass
  | .gate | .park => .start false

/-- The slot that the scanner has decided to retire, and whether its flag was set. -/
def judged : Scanner R → Option (ℕ × Bool)
  | .clear word _ bit landed _ | .take word _ bit landed _ => some (word * 64 + bit, landed)
  | _ => none

/-- The slot that is out of the bitmap and still has its payload. -/
def taken : Scanner R → List ℕ
  | .take word _ bit _ _ => [word * 64 + bit]
  | _ => []

/-- The scanner has set `complete` for the first registration of the pass. -/
def signalled : Scanner R → Bool
  | .wake _ => true
  | _ => false

/-- A place between two accesses to a slot. -/
structure Plain (s : Scanner R) : Prop where
  judged : s.judged = none
  taken : s.taken = []
  signalled : s.signalled = false

theorem next_cases (word : ℕ) (bits : BitVec 64) (pass : Pass R) :
    next word bits pass = .load (word + 1) pass ∨
      next word bits pass = .flag word bits pass ∧ bits ≠ 0#64 := by
  unfold next
  split
  · exact .inl rfl
  · exact .inr ⟨rfl, ‹_›⟩

theorem plain_next (word : ℕ) (bits : BitVec 64) (pass : Pass R) : (next word bits pass).Plain := by
  obtain heq | ⟨heq, -⟩ := next_cases word bits pass <;> rw [heq] <;> exact ⟨rfl, rfl, rfl⟩

theorem pass_next (word : ℕ) (bits : BitVec 64) (pass : Pass R) :
    (next word bits pass).pass = pass := by
  obtain heq | ⟨heq, -⟩ := next_cases word bits pass <;> rw [heq] <;> rfl

/-- The scanner goes on with what a pass found, or has nothing to go on with. -/
structure Follows (pass : Pass R) (s : Scanner R) : Prop where
  plain : s.Plain
  woken : s.pass.woken = pass.woken
  dead : s.pass.dead = pass.dead
  memo : s.pass.memo = pass.memo ∨ s.pass.memo = []

theorem follows_next (word : ℕ) (bits : BitVec 64) (pass : Pass R) :
    (next word bits pass).Follows pass := by
  have heq := pass_next word bits pass
  exact ⟨plain_next word bits pass, by rw [heq], by rw [heq], .inl (by rw [heq])⟩

theorem follows_finish (pass : Pass R) : (finish pass).Follows pass := by
  unfold finish
  split
  · exact ⟨⟨rfl, rfl, rfl⟩, rfl, rfl, .inl rfl⟩
  · exact ⟨⟨rfl, rfl, rfl⟩, rfl, rfl, .inl rfl⟩
  · rename_i hwoken hdead
    split <;> exact ⟨⟨rfl, rfl, rfl⟩, hwoken.symm, hdead.symm, .inr rfl⟩

theorem follows_drain (pass : Pass R) : (drain pass).Follows pass := by
  unfold drain
  split
  · exact ⟨⟨rfl, rfl, rfl⟩, rfl, rfl, .inl rfl⟩
  · exact ⟨⟨rfl, rfl, rfl⟩, rfl, rfl, .inl rfl⟩
  · rename_i hwoken hdead
    exact ⟨⟨rfl, rfl, rfl⟩, hwoken.symm, hdead.symm, .inr rfl⟩

theorem follows_close (pass : Pass R) : (close pass).Follows pass := by
  unfold close
  split
  · exact follows_finish pass
  · exact ⟨⟨rfl, rfl, rfl⟩, rfl, rfl, .inl rfl⟩

end Scanner

/-- What the scanner and the registrants still see is the same. -/
structure SlotTable.Same {R : Type} (t t' : SlotTable R) : Prop where
  numSlots : t'.numSlots = t.numSlots
  flags : t'.flags = t.flags
  active : t'.active = t.active
  payload : t'.payload = t.payload

theorem SlotTable.same_refl {R : Type} (t : SlotTable R) : t.Same t := ⟨rfl, rfl, rfl, rfl⟩

namespace Stream

variable (s : Stream) (op : StreamOp)

theorem fault_submit : (s.submit op).fault = s.fault := by
  unfold submit
  split <;> rfl

theorem captured_submit : (s.submit op).captured = s.captured := by
  unfold submit
  split <;> rfl

/-- What is submitted is queued, or recorded by a capture. -/
theorem queue_submit : (s.submit op).queue = s.queue ∧ s.captured = true ∨
    (s.submit op).queue = s.queue ++ [op] := by
  unfold submit
  split
  · exact .inl ⟨rfl, s.begun ‹_›⟩
  · exact .inr rfl

theorem submit_of_captured (h : s.captured = false) :
    s.submit op = { s with queue := s.queue ++ [op] } := by
  unfold submit
  split
  · rename_i hcapturing
    rw [s.begun hcapturing] at h
    cases h
  · rfl

theorem mem_queue_submit {op' : StreamOp} (h : op' ∈ (s.submit op).queue) : op' ∈ s.queue ∨ op' = op := by
  rcases s.queue_submit op with ⟨heq, -⟩ | heq
  · exact .inl (heq ▸ h)
  · rw [heq, List.mem_append, List.mem_singleton] at h
    exact h

theorem ops_submit : (s.submit op).ops.Perm (op :: s.ops) := by
  unfold submit ops
  split
  · show (s.queue ++ (s.graph ++ [op])).Perm _
    rw [← List.append_assoc]
    exact List.perm_append_singleton _ _
  · show ((s.queue ++ [op]) ++ s.graph).Perm _
    rw [List.append_assoc]
    exact List.perm_middle

theorem ops_of_captured (h : s.captured = false) : s.ops = s.queue := by
  rw [ops, s.recorded h, List.append_nil]

end Stream

namespace Process

variable {T O : Type} {c : Process T O} {i : ℕ} {f : DeviceFuture T O} {a : Answer T O}

theorem submit_self (s : ℕ) (op : StreamOp) : (c.submit s op).streams s = (c.streams s).submit op :=
  Function.update_self ..

theorem submit_of_ne {s s' : ℕ} (op : StreamOp) (h : s' ≠ s) :
    (c.submit s op).streams s' = c.streams s' := Function.update_of_ne h ..

theorem fault_submit (op : StreamOp) (s s' : ℕ) :
    ((c.submit s op).streams s').fault = (c.streams s').fault := by
  by_cases hs : s' = s
  · subst hs
    rw [submit_self, Stream.fault_submit]
  · rw [submit_of_ne op hs]

theorem captured_submit (op : StreamOp) (s s' : ℕ) :
    ((c.submit s op).streams s').captured = (c.streams s').captured := by
  by_cases hs : s' = s
  · subst hs
    rw [submit_self, Stream.captured_submit]
  · rw [submit_of_ne op hs]

/-- The next access of the call that future `f` is in, by its effects. -/
inductive Ticks (c : Process T O) (i : ℕ) (f : DeviceFuture T O) : Process T O → Prop where
  | wait : Ticks c i f c
  | abort : Ticks c i f c.abort
  | register (h : f.place = .register) :
      Ticks c i f ((c.register i f.task).setFuture i { f with place := .execute })
  | reject (e : DeviceError) (h : f.place = .execute)
      (hf : f.executionContext = none ∨ f.deviceOperation = false) : Ticks c i f (c.fail i f e)
  | execute (v : T) (owners : List O) (h : f.place = .execute)
      (hs : f.executionContext.isSome) (hf : f.deviceOperation = true) :
      Ticks c i f (((c.submit f.stream (.work i)).record (.submitted i)).setFuture i
        { f with
          deviceOperation := false
          completionPending := true
          result := some v
          quarantined := some owners
          place := .spin })
  | executeSome (e : DeviceError) (owners : List O) (h : f.place = .execute)
      (hs : f.executionContext.isSome) (hf : f.deviceOperation = true) :
      Ticks c i f (((c.submit f.stream (.work i)).record (.submitted i)).setFuture i
        { f with deviceOperation := false, completionPending := true, place := .drain e owners })
  | executeNone (e : DeviceError) (owners : List O) (h : f.place = .execute)
      (hs : f.executionContext.isSome) (hf : f.deviceOperation = true) :
      Ticks c i f (c.setFuture i
        { f with deviceOperation := false, completionPending := true, place := .drain e owners })
  | drained (e : DeviceError) (owners : List O) (h : f.place = .drain e owners)
      (hdone : .work i ∉ (c.streams f.stream).queue) :
      Ticks c i f ((c.record (.released i owners)).fail i { f with completionPending := false } e)
  | prove (h : f.place = .spin ∨ f.place = .query) (hdone : (c.streams f.stream).queue = []) :
      Ticks c i f ((c.release i f).deliver i f)
  | observe (h : f.place = .check ∨ f.place = .recheck) (hdone : (c.callbacks i).complete = true) :
      Ticks c i f ((c.release i f).deliver i f)
  | refuse (code : ℕ)
      (h : f.place = .spin ∨ f.place = .host ∨ f.place = .probe ∨ f.place = .query) :
      Ticks c i f (c.fail i f (.driver code))
  | unclaimed (h : f.place = .spin ∨ f.place = .claim) :
      Ticks c i f (c.setFuture i { f with place := .host })
  | react (h : f.place = .spin) : Ticks c i f (c.setFuture i { f with place := .claim })
  | claim (slot : ℕ) (table : SlotTable Registration) (h : f.place = .claim)
      (ht : c.table.claim = some (slot, table)) :
      Ticks c i f ((c.setTable table).setFuture i { f with place := .reset slot })
  | reset (slot : ℕ) (h : f.place = .reset slot) :
      Ticks c i f ((c.setTable (c.table.resetFlag slot)).setFuture i { f with place := .write slot })
  | unwritten (slot : ℕ) (h : f.place = .write slot) :
      Ticks c i f (c.setFuture i { f with place := .release slot })
  | write (slot : ℕ) (h : f.place = .write slot) :
      Ticks c i f ((c.submit f.stream (.write slot i)).setFuture i { f with place := .payload slot })
  | release (slot : ℕ) (h : f.place = .release slot) :
      Ticks c i f ((c.setTable (c.table.release slot)).setFuture i { f with place := .host })
  | payload (slot : ℕ) (h : f.place = .payload slot) :
      Ticks c i f ((c.setTable (c.table.putPayload slot ⟨i, f.stream⟩)).setFuture i
        { f with place := .count slot })
  | count (slot : ℕ) (h : f.place = .count slot) :
      Ticks c i f ((c.setTable c.table.count).setFuture i
        { f with place := .arm slot c.table.isIdle })
  | armFirst (slot : ℕ) (h : f.place = .arm slot true) :
      Ticks c i f (((c.setTable (c.table.setActive slot)).record (.armed i)).setFuture i
        { f with place := .unpark })
  | arm (slot : ℕ) (h : f.place = .arm slot false) :
      Ticks c i f (((c.setTable (c.table.setActive slot)).record (.armed i)).suspend i f)
  | unpark (h : f.place = .unpark) : Ticks c i f ({ c with token := true }.suspend i f)
  | host (h : f.place = .host) :
      Ticks c i f (((c.submit f.stream (.signal i)).record (.armed i)).suspend i f)
  | missed (h : f.place = .check) (hdone : (c.callbacks i).complete = false) :
      Ticks c i f (c.setFuture i { f with place := .probe })
  | ask (h : f.place = .probe) : Ticks c i f (c.setFuture i { f with place := .query })
  | busy (h : f.place = .probe ∨ f.place = .query) (hs : (c.streams f.stream).fault = none) :
      Ticks c i f (c.setFuture i { f with place := .reregister })
  | reregister (h : f.place = .reregister) :
      Ticks c i f ((c.register i f.task).setFuture i { f with place := .recheck })
  | suspend (h : f.place = .recheck) (hdone : (c.callbacks i).complete = false) :
      Ticks c i f (c.suspend i f)
  | bind (h : f.place = .bind) : Ticks c i f (c.setFuture i { f with place := .dropQuery })
  | block (h : f.place = .dropQuery) : Ticks c i f (c.setFuture i { f with place := .sync })
  | free (h : f.place = .dropQuery ∨ f.place = .sync)
      (hdone : .work i ∉ (c.streams f.stream).queue) : Ticks c i f (c.free i f)

theorem synchronize_eq_true {s : Stream} (h : s.synchronize i = .ok true) : .work i ∉ s.queue := by
  unfold Stream.synchronize at h
  split at h
  · cases h
  · split at h
    · cases h
    · exact of_decide_eq_true (Except.ok.inj h)

theorem query_eq_true {s : Stream} (h : s.query = .ok true) : s.queue = [] := by
  unfold Stream.query at h
  split at h
  · cases h
  · split at h
    · cases h
    · exact List.isEmpty_iff.mp (Except.ok.inj h)

/-- The first call of `probe_stream` fails on a faulted stream only. -/
theorem probe_cases (s : Stream) : (∃ code, s.fault = some code ∧ s.probe = some (.faulted code)) ∨
    s.fault = none ∧ (s.probe = some .capturing ∨ s.probe = none) := by
  cases hf : s.fault with
  | some code => exact .inl ⟨code, rfl, by simp only [Stream.probe, Stream.isCapturing, hf]⟩
  | none =>
    right
    cases hc : s.capturing with
    | true => exact ⟨rfl, .inl (by simp only [Stream.probe, Stream.isCapturing, hf, hc])⟩
    | false => exact ⟨rfl, .inr (by simp only [Stream.probe, Stream.isCapturing, hf, hc])⟩

/-- The second fails also on a stream whose capture began after the first. -/
theorem health_cases (s : Stream) : (∃ code, s.Broken ∧ s.health = .faulted code) ∨
    s.fault = none ∧ (s.queue = [] ∧ s.health = .idle ∨ s.health = .busy) := by
  cases hf : s.fault with
  | some code =>
    refine .inl ⟨code, .inl (by rw [hf]; rfl), ?_⟩
    simp only [Stream.health, Stream.query, hf]
  | none =>
    cases hc : s.capturing with
    | true =>
      refine .inl ⟨Stream.captureUnsupported, .inr (s.begun hc), ?_⟩
      simp [Stream.health, Stream.query, hf, hc]
    | false =>
      right
      cases hq : s.queue with
      | nil => exact ⟨rfl, .inl ⟨rfl, by simp [Stream.health, Stream.query, hf, hc, hq]⟩⟩
      | cons op queue => exact ⟨rfl, .inr (by simp [Stream.health, Stream.query, hf, hc, hq])⟩

theorem ticks_execute (h : f.place = .execute) : Ticks c i f (c.execute i f a) := by
  unfold execute
  split
  · exact .reject _ h (.inl ‹_›)
  · exact .reject _ h (.inr ‹_›)
  · rename_i s hs hf
    have hsome : f.executionContext.isSome := hs ▸ rfl
    have hstream : f.stream = s := by rw [DeviceFuture.stream, hs]; rfl
    subst hstream
    split
    · exact .execute _ _ h hsome hf
    · cases a.submitted with
      | true => exact .executeSome _ _ h hsome hf
      | false => exact .executeNone _ _ h hsome hf

theorem ticks_registerCallback (h : f.place = .spin) : Ticks c i f (c.registerCallback i f a) := by
  unfold registerCallback
  cases a.hostSync with
  | true => exact .unclaimed (.inl h)
  | false => exact .react h

theorem ticks_spin (h : f.place = .spin) : Ticks c i f (c.spin i f f.stream a) := by
  unfold spin
  split
  · split
    · exact .prove (.inl h) (query_eq_true ‹_›)
    · split
      · exact ticks_registerCallback h
      · exact .wait
    · exact .refuse _ (.inl h)
  · exact ticks_registerCallback h

theorem ticks_probe (h : f.place = .probe) : Ticks c i f (c.probe i f f.stream) := by
  unfold probe
  rcases probe_cases (c.streams f.stream) with ⟨code, -, heq⟩ | ⟨hfault, heq | heq⟩ <;> rw [heq]
  · exact .refuse code (.inr (.inr (.inl h)))
  · exact .busy (.inl h) hfault
  · exact .ask h

theorem ticks_query (h : f.place = .query) :
    Ticks c i f (c.resume i f (c.streams f.stream).health) := by
  rcases health_cases (c.streams f.stream) with ⟨code, -, heq⟩ | ⟨hfault, ⟨hdone, heq⟩ | heq⟩ <;>
    rw [heq]
  · exact .refuse code (.inr (.inr (.inr h)))
  · exact .prove (.inr h) hdone
  · exact .busy (.inr h) hfault

theorem ticks_bind (h : f.place = .bind) : Ticks c i f (c.bind i f f.stream a) := by
  unfold bind
  rcases probe_cases (c.streams f.stream) with ⟨code, -, heq⟩ | ⟨hfault, heq | heq⟩ <;> rw [heq] <;>
    cases a.refused
  case inr.inr.none => exact .bind h
  all_goals exact .abort

theorem ticks_dropQuery (h : f.place = .dropQuery) :
    Ticks c i f (c.await i f (c.streams f.stream).health) := by
  rcases health_cases (c.streams f.stream) with ⟨code, -, heq⟩ | ⟨hfault, ⟨hdone, heq⟩ | heq⟩ <;>
    rw [heq]
  · exact .abort
  · exact .free (.inl h) (by rw [hdone]; exact List.not_mem_nil)
  · exact .block h

theorem ticks (hi : c.futures[i]? = some f) : Ticks c i f (c.tick i a) := by
  simp only [tick, hi]
  cases h : f.place with
  | rest | dropped => exact .wait
  | register => exact .register h
  | execute => exact ticks_execute h
  | drain e owners =>
    simp only [drain]
    split
    · exact .abort
    · exact .wait
    · exact .drained e owners h (synchronize_eq_true ‹_›)
  | spin => exact ticks_spin h
  | claim =>
    simp only
    split
    · rename_i ht
      split at ht
      · exact .claim _ _ h ht
      · cases ht
    · exact .unclaimed (.inr h)
  | reset slot => exact .reset slot h
  | write slot =>
    simp only
    split
    · exact .unwritten slot h
    · exact .write slot h
  | release slot => exact .release slot h
  | payload slot => exact .payload slot h
  | count slot => exact .count slot h
  | arm slot wasIdle =>
    cases wasIdle with
    | true => exact .armFirst slot h
    | false => exact .arm slot h
  | unpark => exact .unpark h
  | host =>
    simp only
    split
    · exact .refuse _ (.inr (.inl h))
    · exact .host h
  | check =>
    simp only
    split
    · exact .observe (.inl h) ‹_›
    · exact .missed h (Bool.eq_false_iff.mpr ‹_›)
  | recheck =>
    simp only
    split
    · exact .observe (.inr h) ‹_›
    · exact .suspend h (Bool.eq_false_iff.mpr ‹_›)
  | probe => exact ticks_probe h
  | query => exact ticks_query h
  | reregister => exact .reregister h
  | bind => exact ticks_bind h
  | dropQuery => exact ticks_dropQuery h
  | sync =>
    simp only [sync]
    split
    · exact .abort
    · exact .wait
    · exact .free (.inr h) (synchronize_eq_true ‹_›)

/-- A call to `poll` or `drop` begins, by its effects. -/
inductive Calls (c : Process T O) (i : ℕ) (f : DeviceFuture T O) : Process T O → Prop where
  | wait : Calls c i f c
  | abort : Calls c i f c.abort
  | error (w : ℕ) (e : DeviceError) (h : f.place = .rest) (hs : f.state = .failed) :
      Calls c i f ((c.record (.polled i w)).fail i { f with task := w, error := none } e)
  | missing (w : ℕ) (h : f.place = .rest) (hs : f.state = .failed) (he : f.error = none) :
      Calls c i f (((c.record (.polled i w)).setFuture i
        { f with task := w, state := .complete }).record (.panicked i))
  | locked (w : ℕ) (e : DeviceError) (h : f.place = .rest) (hs : f.state = .idle) :
      Calls c i f ((c.record (.polled i w)).fail i { f with task := w, callbackState := true } e)
  | begin (w : ℕ) (h : f.place = .rest) (hs : f.state = .idle) :
      Calls c i f ((c.record (.polled i w)).setFuture i
        { f with task := w, callbackState := true, place := .register })
  | again (w : ℕ) (h : f.place = .rest) (hs : f.state = .executing) :
      Calls c i f ((c.record (.polled i w)).setFuture i
        { f with task := w, callbackState := true, place := .check })
  | late (w : ℕ) (h : f.place = .rest) (hs : f.state = .complete) :
      Calls c i f (((c.record (.polled i w)).setFuture i
        { f with task := w, callbackState := true }).record (.panicked i))
  | bind (h : f.place = .rest) (hp : f.completionPending = true)
      (hs : f.executionContext.isSome) : Calls c i f (c.setFuture i { f with place := .bind })
  | discard (h : f.place = .rest) (hp : f.completionPending = false) :
      Calls c i f (c.setFuture i { f with place := .dropped })

theorem calls_poll (hi : c.futures[i]? = some f) (w : ℕ) (locked : Bool) :
    Calls c i f (c.poll i w locked) := by
  simp only [poll, hi]
  split
  · rename_i h
    split
    · rename_i hs
      split
      · exact .error w _ h hs
      · exact .missing w h hs ‹_›
    · rename_i hs
      split
      · exact .locked w _ h hs
      · exact .begin w h hs
    · exact .again w h ‹_›
    · exact .late w h ‹_›
  · exact .wait

theorem calls_drop (hi : c.futures[i]? = some f) : Calls c i f (c.drop i) := by
  simp only [drop, hi]
  split
  · rename_i h
    split
    · split
      · rename_i hs
        exact .bind h ‹_› (hs ▸ rfl)
      · exact .abort
    · split
      · exact .abort
      · exact .discard h (Bool.eq_false_iff.mpr ‹_›)
  · exact .wait

theorem release_cases : c.release i f = c ∨
    ∃ owners, f.quarantined = some owners ∧ c.release i f = c.record (.released i owners) := by
  unfold release
  split
  · exact .inr ⟨_, ‹_›, rfl⟩
  · exact .inl rfl

theorem wake_cases : c.wake i = c ∨ ∃ w, (c.callbacks i).waker = some w ∧
    c.wake i = (c.setCallback i { c.callbacks i with waker := none }).record (.woken i w) := by
  unfold wake
  split
  · exact .inl rfl
  · exact .inr ⟨_, ‹_›, rfl⟩

/-- Why the scanner retires a slot: its flag is set, or its stream is broken. -/
def Verdict (c : Process T O) (slot : ℕ) : Bool → Prop
  | true => c.table.flags slot = 1
  | false => ∀ r, c.table.payload slot = some r → (c.streams r.stream).Broken

/-- The streams that a pass holds for faulted are broken. -/
def Remembers (c : Process T O) (pass : Pass Registration) : Prop :=
  ∀ x ∈ pass.memo, x.2 = true → (c.streams x.1).Broken

/-- The next access of the scanner, by its effects. -/
inductive Scans (c : Process T O) : Process T O → Prop where
  | move (table : SlotTable Registration) (s' : Scanner Registration) (n : ℕ) (token : Bool)
      (ht : c.table.Same table) (htaken : c.scanner.taken = [] ∧ s'.taken = [])
      (hsignalled : s'.signalled = false)
      (hwoken : s'.pass.woken = c.scanner.pass.woken) (hdead : s'.pass.dead = c.scanner.pass.dead)
      (hmemo : c.Remembers c.scanner.pass → c.Remembers s'.pass ∧
        ∀ slot landed, s'.judged = some (slot, landed) → c.Verdict slot landed) :
      Scans c { c with table, scanner := s', idlePasses := n, token }
  | clear (word : ℕ) (bits : BitVec 64) (bit : ℕ) (landed : Bool) (pass : Pass Registration)
      (hs : c.scanner = .clear word bits bit landed pass) :
      Scans c ((c.setTable (c.table.clearActive word bit)).setScanner
        (.take word bits bit landed pass))
  | take (word : ℕ) (bits : BitVec 64) (bit : ℕ) (landed : Bool) (pass : Pass Registration)
      (hs : c.scanner = .take word bits bit landed pass) (s' : Scanner Registration)
      (hplain : s'.Plain)
      (hwoken : s'.pass.woken = pass.woken ++
        if landed then (c.table.payload (word * 64 + bit)).toList else [])
      (hdead : s'.pass.dead = pass.dead ++
        if landed then [] else (c.table.payload (word * 64 + bit)).toList)
      (hmemo : s'.pass.memo = pass.memo) :
      Scans c ((c.setTable (c.table.takePayload (word * 64 + bit))).setScanner s')
  | signal (pass : Pass Registration) (r : Registration) (woken : List Registration)
      (hs : c.scanner = .signal pass) (hwoken : pass.woken = r :: woken) :
      Scans c ((c.complete r.waker).setScanner (.wake pass))
  | wake (pass : Pass Registration) (r : Registration) (s' : Scanner Registration) (n : ℕ)
      (hs : c.scanner = .wake pass) (hplain : s'.Plain)
      (hwoken : pass.woken = r :: s'.pass.woken) (hdead : s'.pass.dead = pass.dead)
      (hmemo : c.Remembers pass → c.Remembers s'.pass) :
      Scans c { ((c.wake r.waker).record (.handled r.waker)).setScanner s' with idlePasses := n }
  | fault (pass : Pass Registration) (r : Registration) (s' : Scanner Registration)
      (hs : c.scanner = .fault pass) (hplain : s'.Plain)
      (hwoken : s'.pass.woken = pass.woken) (hdead : pass.dead = r :: s'.pass.dead)
      (hmemo : c.Remembers pass → c.Remembers s'.pass) :
      Scans c (((c.wake r.waker).record (.handled r.waker)).setScanner s')

theorem Remembers.of_follows {pass : Pass Registration} {s' : Scanner Registration}
    (hfollows : s'.Follows pass) (h : c.Remembers pass) : c.Remembers s'.pass := by
  rcases hfollows.memo with hmemo | hmemo
  · rw [Remembers, hmemo]
    exact h
  · rw [Remembers, hmemo]
    exact fun _ hx => absurd hx List.not_mem_nil

/-- Most accesses only move the scanner on. -/
theorem scans_move {table : SlotTable Registration} {s' : Scanner Registration} {n : ℕ}
    {token : Bool} (ht : c.table.Same table) (htaken : c.scanner.taken = [])
    (hfollows : s'.Follows c.scanner.pass) :
    Scans c { c with table, scanner := s', idlePasses := n, token } := by
  refine .move table s' n token ht ⟨htaken, hfollows.plain.taken⟩ hfollows.plain.signalled
    hfollows.woken hfollows.dead fun hmemo => ⟨hmemo.of_follows hfollows, ?_⟩
  rw [hfollows.plain.judged]
  rintro slot landed ⟨⟩

/-- What `is_dead` says without the query is true. -/
theorem isDead_broken {clock : Clock} {r : Registration} {pass : Pass Registration}
    (hmemo : c.Remembers pass) (h : c.isDead clock r pass = some true) :
    (c.streams r.stream).Broken := by
  unfold isDead at h
  split at h
  · rename_i stream dead hfind
    have hstream : stream = r.stream := by simpa using List.find?_some hfind
    exact hstream ▸ hmemo _ (List.mem_of_find?_eq_some hfind) (Option.some.inj h)
  · split at h
    · rcases probe_cases (c.streams r.stream) with ⟨code, hfault, -⟩ | ⟨-, heq | heq⟩
      · exact .inl (by rw [hfault]; rfl)
      · rw [heq] at h
        cases h
      · rw [heq] at h
        cases h
    · cases h

theorem health_broken {s : Stream} (h : s.health.isFaulted = true) : s.Broken := by
  rcases health_cases s with ⟨-, hbroken, -⟩ | ⟨-, ⟨-, heq⟩ | heq⟩
  · exact hbroken
  · rw [heq] at h
    cases h
  · rw [heq] at h
    cases h

theorem memoize_fields (r : Registration) (dead : Bool) (pass : Pass Registration) :
    (memoize r dead pass).woken = pass.woken ∧ (memoize r dead pass).dead = pass.dead ∧
      (memoize r dead pass).retired = pass.retired := by
  unfold memoize
  split <;> exact ⟨rfl, rfl, rfl⟩

theorem Remembers.memoize {r : Registration} {dead : Bool} {pass : Pass Registration}
    (h : c.Remembers pass) (hdead : dead = true → (c.streams r.stream).Broken) :
    c.Remembers (memoize r dead pass) := by
  unfold Process.memoize
  split
  · exact h
  · intro x hx hx'
    rcases List.mem_append.mp hx with hx | hx
    · exact h x hx hx'
    · obtain rfl := List.mem_singleton.mp hx
      exact hdead hx'

/-- The scanner has an answer of `is_dead` for a bit, and a true one. -/
theorem scans_judge {word bit : ℕ} {bits : BitVec 64} {r : Registration} {dead : Bool}
    {pass : Pass Registration} (htaken : c.scanner.taken = []) (hpass : c.scanner.pass = pass)
    (hpayload : c.table.payload (word * 64 + bit) = some r)
    (hdead : c.Remembers pass → dead = true → (c.streams r.stream).Broken) :
    Scans c (c.judge word bits bit r dead pass) := by
  subst hpass
  obtain ⟨hwoken, hdead', -⟩ := memoize_fields r dead c.scanner.pass
  unfold judge
  split
  · rename_i hverdict
    refine .move c.table _ c.idlePasses c.token c.table.same_refl ⟨htaken, rfl⟩ rfl hwoken hdead'
      fun hmemo => ⟨hmemo.memoize (hdead hmemo), ?_⟩
    rintro slot landed ⟨⟩ r' hr'
    obtain rfl := Option.some.inj (hpayload.symm.trans hr')
    exact hdead hmemo hverdict
  · have heq := Scanner.pass_next word bits (memoize r dead c.scanner.pass)
    refine .move c.table _ c.idlePasses c.token c.table.same_refl
      ⟨htaken, (Scanner.plain_next _ _ _).taken⟩ (Scanner.plain_next _ _ _).signalled
      (by rw [heq]; exact hwoken) (by rw [heq]; exact hdead') fun hmemo => ⟨?_, ?_⟩
    · rw [heq]
      exact hmemo.memoize (hdead hmemo)
    · rw [(Scanner.plain_next _ _ _).judged]
      rintro slot landed ⟨⟩

theorem scans (clock : Clock) : Scans c (c.scan clock) := by
  simp only [scan]
  cases hs : c.scanner with
  | load word pass =>
    have hmove : ∀ s' : Scanner Registration, s'.Follows pass → Scans c (c.setScanner s') := by
      intro s' hfollows
      exact scans_move c.table.same_refl (by rw [hs]; rfl) (by rw [hs]; exact hfollows)
    simp only
    split
    · split
      · exact hmove _ ⟨⟨rfl, rfl, rfl⟩, rfl, rfl, .inl rfl⟩
      · exact hmove _ ⟨⟨rfl, rfl, rfl⟩, rfl, rfl, .inl rfl⟩
    · exact hmove _ (Scanner.follows_close pass)
  | flag word bits pass =>
    have hmove : ∀ s' : Scanner Registration, s'.Follows pass → Scans c (c.setScanner s') := by
      intro s' hfollows
      exact scans_move c.table.same_refl (by rw [hs]; rfl) (by rw [hs]; exact hfollows)
    simp only
    split
    · split
      · rename_i hflag
        refine .move c.table _ c.idlePasses c.token c.table.same_refl (by rw [hs]; exact ⟨rfl, rfl⟩) rfl
          (by rw [hs]; rfl) (by rw [hs]; rfl) fun hmemo => ⟨by rw [hs] at hmemo; exact hmemo, ?_⟩
        rintro slot landed ⟨⟩
        exact hflag
      · split
        · exact hmove _ ⟨⟨rfl, rfl, rfl⟩, rfl, rfl, .inl rfl⟩
        · exact hmove _ (Scanner.follows_next _ _ pass)
    · exact hmove _ ⟨⟨rfl, rfl, rfl⟩, rfl, rfl, .inl rfl⟩
  | judge word bits bit pass =>
    simp only
    split
    · exact scans_move c.table.same_refl (by rw [hs]; rfl) (by rw [hs]; exact Scanner.follows_next _ _ pass)
    · rename_i r hpayload
      split
      · rename_i dead hdead
        refine scans_judge (by rw [hs]; rfl) (by rw [hs]; rfl) hpayload fun hmemo hverdict => ?_
        exact isDead_broken hmemo (hverdict ▸ hdead)
      · exact scans_move c.table.same_refl (by rw [hs]; rfl)
          (by rw [hs]; exact ⟨⟨rfl, rfl, rfl⟩, rfl, rfl, .inl rfl⟩)
  | query word bits bit pass =>
    simp only
    split
    · exact scans_move c.table.same_refl (by rw [hs]; rfl) (by rw [hs]; exact Scanner.follows_next _ _ pass)
    · exact scans_judge (by rw [hs]; rfl) (by rw [hs]; rfl) ‹_› fun _ => health_broken
  | clear word bits bit landed pass => exact .clear word bits bit landed pass hs
  | take word bits bit landed pass =>
    simp only
    refine .take word bits bit landed pass hs _ (Scanner.plain_next _ _ _) ?_ ?_ ?_ <;>
      rw [Scanner.pass_next] <;> cases c.table.payload (word * 64 + bit) <;> cases landed <;> simp
  | recycle pass =>
    exact scans_move ⟨rfl, rfl, rfl, rfl⟩ (by rw [hs]; rfl)
      (by rw [hs]; exact ⟨⟨rfl, rfl, rfl⟩, rfl, rfl, .inl rfl⟩)
  | uncount pass =>
    exact scans_move ⟨rfl, rfl, rfl, rfl⟩ (by rw [hs]; rfl) (by rw [hs]; exact Scanner.follows_finish pass)
  | signal pass =>
    simp only
    split
    · exact scans_move c.table.same_refl (by rw [hs]; rfl) (by rw [hs]; exact Scanner.follows_drain pass)
    · exact .signal pass _ _ hs ‹_›
  | wake pass =>
    simp only
    split
    · exact scans_move c.table.same_refl (by rw [hs]; rfl) (by rw [hs]; exact Scanner.follows_drain pass)
    · rename_i r woken hwoken
      have hfollows := Scanner.follows_drain { pass with woken }
      exact .wake pass r _ _ hs hfollows.plain (by rw [hwoken, hfollows.woken]) hfollows.dead
        fun hmemo => Remembers.of_follows hfollows hmemo
  | fault pass =>
    simp only
    split
    · exact scans_move c.table.same_refl (by rw [hs]; rfl) (by rw [hs]; exact Scanner.follows_drain pass)
    · rename_i r dead hdead
      have hfollows := Scanner.follows_drain { pass with dead }
      exact .fault pass r _ hs hfollows.plain hfollows.woken (by rw [hdead, hfollows.dead])
        fun hmemo => Remembers.of_follows hfollows hmemo
  | gate =>
    have hmove : ∀ (s' : Scanner Registration) (n : ℕ), s'.Follows (.start false) →
        Scans c { c.setScanner s' with idlePasses := n } := by
      intro s' n hfollows
      exact scans_move c.table.same_refl (by rw [hs]; rfl) (by rw [hs]; exact hfollows)
    simp only
    split
    · exact hmove .park c.idlePasses ⟨⟨rfl, rfl, rfl⟩, rfl, rfl, .inl rfl⟩
    · split
      · exact hmove .start _ ⟨⟨rfl, rfl, rfl⟩, rfl, rfl, .inl rfl⟩
      · split
        · exact hmove (.load 0 (.start true)) _ ⟨⟨rfl, rfl, rfl⟩, rfl, rfl, .inl rfl⟩
        · exact hmove .start _ ⟨⟨rfl, rfl, rfl⟩, rfl, rfl, .inl rfl⟩
  | park =>
    have hmove : ∀ (s' : Scanner Registration) (n : ℕ) (token : Bool), s'.Follows (.start false) →
        Scans c { c with scanner := s', idlePasses := n, token } := by
      intro s' n token hfollows
      exact scans_move c.table.same_refl (by rw [hs]; rfl) (by rw [hs]; exact hfollows)
    simp only
    split
    · exact hmove .start 0 false ⟨⟨rfl, rfl, rfl⟩, rfl, rfl, .inl rfl⟩
    · have h := hmove .park c.idlePasses c.token ⟨⟨rfl, rfl, rfl⟩, rfl, rfl, .inl rfl⟩
      rw [← hs] at h
      exact h

end Process
end Gudra.Reactor
