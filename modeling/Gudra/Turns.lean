import Gudra.Carriers

/-! What a step that is not the scanner's leaves to the scanner, and how the log grows. -/
namespace Gudra.Reactor

variable {T O : Type}

def Event.wakes (i : ℕ) : Event T O → Bool
  | .woken j _ => j == i
  | _ => false

namespace Process

variable {c c' : Process T O} {f : DeviceFuture T O} {i slot : ℕ}

/-- The scanner is parked, and `park` does not return. -/
def asleep (c : Process T O) (clock : Clock) : Bool :=
  match c.scanner with
  | .park => !c.token && !clock.spurious
  | _ => false

/-- Every wake in the events comes with a delivery. -/
def Paired (es : List (Event T O)) : Prop :=
  ∀ i, es.countP (·.wakes i) ≤ es.countP (·.handles i)

/-- The log grows by events whose wakes are deliveries. -/
def Extends (c c' : Process T O) : Prop := ∃ es, c'.log = es ++ c.log ∧ Paired es

theorem Extends.refl (c : Process T O) : Extends c c := ⟨[], rfl, fun _ => Nat.le_refl _⟩

theorem Extends.trans {c₁ c₂ c₃ : Process T O} (h : Extends c₁ c₂) (h' : Extends c₂ c₃) :
    Extends c₁ c₃ := by
  obtain ⟨es, heq, hpaired⟩ := h
  obtain ⟨es', heq', hpaired'⟩ := h'
  refine ⟨es' ++ es, by rw [heq', heq, List.append_assoc], fun i => ?_⟩
  rw [List.countP_append, List.countP_append]
  exact Nat.add_le_add (hpaired' i) (hpaired i)

theorem Extends.subset (h : Extends c c') : c.log ⊆ c'.log := by
  obtain ⟨es, heq, -⟩ := h
  exact heq ▸ List.subset_append_right es c.log

theorem extends_handled : Extends c ((c.wake i).record (.handled i)) := by
  obtain heq | ⟨w, -, heq⟩ := wake_cases (c := c) (i := i) <;> rw [heq]
  · exact ⟨[.handled i], rfl, fun _ => Nat.zero_le _⟩
  · refine ⟨[.handled i, .woken i w], rfl, fun j => ?_⟩
    by_cases hij : i = j
    · subst hij
      simp [Event.wakes, Event.handles]
    · simp [Event.wakes, Event.handles, hij]

/-- A step of a future, of a stream or of the driver: the scanner and its slots are left alone. -/
structure Undisturbed (c c' : Process T O) : Prop where
  scanner : c'.scanner = c.scanner
  numSlots : c'.table.numSlots = c.table.numSlots
  log : Extends c c'
  armed : ∀ slot, slot ∈ c.table.armed → slot ∈ c'.table.armed
  flag : ∀ slot, slot ∈ c.table.armed → c.table.flags slot = 1 → c'.table.flags slot = 1
  payload : ∀ slot, slot ∈ c.table.armed ++ c.scanner.taken →
    c'.table.payload slot = c.table.payload slot

theorem Undisturbed.of (hscanner : c'.scanner = c.scanner) (htable : c.table.Same c'.table)
    (hlog : Extends c c') : Undisturbed c c' where
  scanner := hscanner
  numSlots := htable.numSlots
  log := hlog
  armed _ h := (armed_of_same htable).symm ▸ h
  flag _ _ h := htable.flags.symm ▸ h
  payload _ _ := congrFun htable.payload _

/-- Events without a wake. -/
theorem Undisturbed.quiet (es : List (Event T O)) (hscanner : c'.scanner = c.scanner)
    (htable : c.table.Same c'.table) (hlog : c'.log = es ++ c.log)
    (hes : ∀ i, es.countP (·.wakes i) = 0) : Undisturbed c c' :=
  .of hscanner htable ⟨es, hlog, fun i => (hes i).le.trans (Nat.zero_le _)⟩

theorem undisturbed_deliver : Undisturbed c ((c.release i f).deliver i f) := by
  unfold deliver
  obtain heq | ⟨owners, -, heq⟩ := release_cases (c := c) (i := i) (f := f) <;> rw [heq] <;>
    dsimp only <;> split
  · exact .quiet [_] rfl c.table.same_refl rfl fun _ => rfl
  · exact .quiet [_] rfl c.table.same_refl rfl fun _ => rfl
  · exact .quiet [_, _] rfl c.table.same_refl rfl fun _ => rfl
  · exact .quiet [_, _] rfl c.table.same_refl rfl fun _ => rfl

/-- A slot joins the bitmap. -/
theorem undisturbed_arm {wasIdle : Bool} (es : List (Event T O)) (hp : c.Placed)
    (hi : c.futures[i]? = some f) (hplace : f.place = .arm slot wasIdle)
    (htable : c'.table = c.table.setActive slot) (hscanner : c'.scanner = c.scanner)
    (hlog : c'.log = es ++ c.log) (hes : ∀ i, es.countP (·.wakes i) = 0) : Undisturbed c c' := by
  have hslot : slot ∈ f.place.slots := by
    rw [hplace]
    exact List.mem_singleton_self slot
  have hperm := Slots.armed_set_perm hp (places_get hi) hslot
  refine ⟨hscanner, htable ▸ rfl, ⟨es, hlog, fun i => (hes i).le.trans (Nat.zero_le _)⟩,
    fun slot' h => ?_, fun _ _ h => ?_, fun _ _ => htable ▸ rfl⟩
  · rw [htable]
    exact hperm.mem_iff.mpr (List.mem_cons_of_mem _ h)
  · rw [htable]
    exact h

theorem undisturbed_ticks (hp : c.Placed) (hi : c.futures[i]? = some f) (ht : Ticks c i f c') :
    Undisturbed c c' := by
  have hsame := c.table.same_refl
  cases ht with
  | wait | abort => exact .quiet [] rfl hsame rfl fun _ => rfl
  | register | reregister | executeNone | unclaimed | react | unwritten | write | missed | ask | busy
  | bind | block => exact .quiet [] rfl hsame rfl fun _ => rfl
  | reject | refuse | suspend | unpark | execute | executeSome =>
    exact .quiet [_] rfl hsame rfl fun _ => rfl
  | drained | host => exact .quiet [_, _] rfl hsame rfl fun _ => rfl
  | prove | observe => exact undisturbed_deliver
  | claim slot table hplace htable =>
    unfold SlotTable.claim at htable
    split at htable
    · cases htable
    · obtain ⟨-, rfl⟩ := Prod.mk.inj (Option.some.inj htable)
      exact .quiet [] rfl ⟨rfl, rfl, rfl, rfl⟩ rfl fun _ => rfl
  | release | count => exact .quiet [] rfl ⟨rfl, rfl, rfl, rfl⟩ rfl fun _ => rfl
  | reset slot hplace =>
    have hheld : slot ∉ c.table.armed ++ c.scanner.taken :=
      hp.not_kept (call_self hi (by rw [hplace]; exact List.mem_singleton_self slot))
    refine ⟨rfl, rfl, .refl c, fun _ h => h, fun slot' h hflag => ?_, fun _ _ => rfl⟩
    refine (Function.update_of_ne ?_ _ _).trans hflag
    rintro rfl
    exact hheld (List.mem_append_left _ h)
  | payload slot hplace =>
    have hheld : slot ∉ c.table.armed ++ c.scanner.taken :=
      hp.not_kept (call_self hi (by rw [hplace]; exact List.mem_singleton_self slot))
    refine ⟨rfl, rfl, .refl c, fun _ h => h, fun _ _ h => h, fun slot' h => ?_⟩
    refine Function.update_of_ne ?_ _ _
    rintro rfl
    exact hheld h
  | armFirst slot hplace => exact undisturbed_arm [_] hp hi hplace rfl rfl rfl fun _ => rfl
  | arm slot hplace => exact undisturbed_arm [_, _] hp hi hplace rfl rfl rfl fun _ => rfl
  | free =>
    obtain heq | ⟨owners, -, heq⟩ := release_cases (c := c) (i := i) (f := f)
    · rw [free, heq]
      exact .quiet [] rfl hsame rfl fun _ => rfl
    · rw [free, heq]
      exact .quiet [_] rfl hsame rfl fun _ => rfl

theorem undisturbed_calls (hc : Calls c i f c') : Undisturbed c c' := by
  have hsame := c.table.same_refl
  cases hc with
  | wait | abort | bind | discard => exact .quiet [] rfl hsame rfl fun _ => rfl
  | begin | again => exact .quiet [_] rfl hsame rfl fun _ => rfl
  | error | missing | locked | late => exact .quiet [_, _] rfl hsame rfl fun _ => rfl

theorem undisturbed_device (s : ℕ) : Undisturbed c (c.device s) := by
  have hsame := c.table.same_refl
  unfold device
  split
  · exact .quiet [_] rfl hsame rfl fun _ => rfl
  · -- The flag of some slot is set.
    refine ⟨rfl, rfl, .refl c, fun _ h => h, fun slot' _ hflag => ?_, fun _ _ => rfl⟩
    show Function.update c.table.flags _ 1 slot' = 1
    rw [Function.update_apply]
    split
    · rfl
    · exact hflag
  · exact .quiet [] rfl hsame rfl fun _ => rfl
  · rename_i i queue _
    refine .of wake_scanner ?_ (extends_handled (c := c.setQueue s queue))
    exact wake_table.symm ▸ hsame
  · exact .quiet [] rfl hsame rfl fun _ => rfl

/-- The step is an access of the scanner. -/
def turn (c : Process T O) : Input T O → Bool
  | .scan clock => !c.aborted && !c.asleep clock
  | _ => false

theorem scan_asleep {clock : Clock} (h : c.asleep clock = true) : c.scan clock = c := by
  unfold asleep at h
  split at h
  · rename_i hs
    simp only [scan, hs]
    split
    · simp_all
    · rfl
  · cases h

/-- Every step but an access of the scanner leaves it alone. -/
theorem undisturbed_step (hp : c.Placed) {x : Input T O} (hturn : c.turn x = false) :
    Undisturbed c (c.step x) := by
  have hsame := c.table.same_refl
  unfold step
  split
  · exact .quiet [] rfl hsame rfl fun _ => rfl
  · cases x with
    | new | scheduled | failed => exact .quiet [] rfl hsame rfl fun _ => rfl
    | poll i w locked =>
      cases hi : c.futures[i]? with
      | none =>
        simp only [Process.poll, hi]
        exact .quiet [] rfl hsame rfl fun _ => rfl
      | some f => exact undisturbed_calls (calls_poll hi w locked)
    | drop i =>
      cases hi : c.futures[i]? with
      | none =>
        simp only [Process.drop, hi]
        exact .quiet [] rfl hsame rfl fun _ => rfl
      | some f => exact undisturbed_calls (calls_drop hi)
    | tick i a =>
      cases hi : c.futures[i]? with
      | none =>
        simp only [Process.tick, hi]
        exact .quiet [] rfl hsame rfl fun _ => rfl
      | some f => exact undisturbed_ticks hp hi (ticks hi)
    | device s => exact undisturbed_device s
    | fault | capture => exact .quiet [] rfl hsame rfl fun _ => rfl
    | scan clock =>
      have hasleep : c.asleep clock = true := by simp_all [turn]
      simp only [scan_asleep hasleep]
      exact .quiet [] rfl hsame rfl fun _ => rfl

theorem step_turn {x : Input T O} (hturn : c.turn x = true) :
    ∃ clock, c.asleep clock = false ∧ c.step x = c.scan clock := by
  cases x with
  | scan clock =>
    obtain ⟨haborted, hawake⟩ := Bool.and_eq_true_iff.mp hturn
    have hlive : c.aborted = false := by simpa using haborted
    exact ⟨clock, by simpa using hawake, by simp [step, hlive]⟩
  | new | scheduled | failed | poll | drop | tick | device | fault | capture => cases hturn

theorem extends_scans (hscan : Scans c c') : Extends c c' := by
  cases hscan with
  | move | clear | take | signal => exact .refl c
  | wake pass r s' n => exact extends_handled (c := c) (i := r.waker)
  | fault pass r => exact extends_handled (c := c) (i := r.waker)

theorem extends_step (hp : c.Placed) (x : Input T O) : Extends c (c.step x) := by
  cases hturn : c.turn x with
  | true =>
    obtain ⟨clock, -, heq⟩ := step_turn hturn
    exact heq ▸ extends_scans (scans clock)
  | false => exact (undisturbed_step hp hturn).log

theorem sameStreams_wake : SameStreams c (c.wake i) :=
  ⟨by rw [wake_futures], fun s => by rw [wake_streams]⟩

theorem sameStreams_device (s : ℕ) : SameStreams c (c.device s) := by
  have hpop : ∀ queue, SameStreams c (c.setQueue s queue) :=
    fun queue => ⟨rfl, captured_setQueue queue⟩
  unfold device
  split
  · exact ⟨rfl, (hpop _).captured⟩
  · exact ⟨rfl, (hpop _).captured⟩
  · exact ⟨rfl, (hpop _).captured⟩
  · rename_i i queue _
    have hwake := sameStreams_wake (c := c.setQueue s queue) (i := i)
    exact ⟨hwake.contexts, fun s' => (hwake.captured s').trans ((hpop queue).captured s')⟩
  · exact .refl c

theorem sameStreams_scans (hscan : Scans c c') : SameStreams c c' := by
  cases hscan with
  | move | clear | take | signal => exact ⟨rfl, fun _ => rfl⟩
  | wake pass r | fault pass r =>
    have hwake := sameStreams_wake (c := c) (i := r.waker)
    exact ⟨hwake.contexts, hwake.captured⟩

theorem sameStreams_fault (s code : ℕ) : SameStreams c (c.fault s code) := by
  refine ⟨rfl, fun s' => ?_⟩
  by_cases hs : s' = s
  · subst hs
    simp [fault, setStream]
  · simp [fault, setStream, hs]

/-- What was captured, and where futures are, follows from the inputs. -/
structure Traces (c c' : Process T O) (inputs : List (Input T O)) : Prop where
  captured : ∀ s, (c'.streams s).captured = true →
    (c.streams s).captured = true ∨ .capture s true ∈ inputs
  context : ∀ f ∈ c'.futures, ∀ s, f.executionContext = some s →
    (∃ g ∈ c.futures, g.executionContext = some s) ∨ .scheduled s ∈ inputs

theorem SameStreams.traces (h : SameStreams c c') (inputs : List (Input T O)) :
    Traces c c' inputs where
  captured s hs := .inl ((h.captured s).symm.trans hs)
  context f hf s hs := by
    obtain ⟨g, hg, hcontext⟩ := h.symm.mem hf
    exact .inl ⟨g, hg, hcontext.trans hs⟩

theorem traces_create {g : DeviceFuture T O} {x : Input T O}
    (hg : ∀ s, g.executionContext = some s → x = .scheduled s) : Traces c (c.create g) [x] where
  captured s hs := .inl hs
  context f hf s hs := by
    rcases List.mem_append.mp hf with hf | hf
    · exact .inl ⟨f, hf, hs⟩
    · obtain rfl := List.mem_singleton.mp hf
      exact .inr (List.mem_singleton.mpr (hg s hs).symm)

theorem traces_step (x : Input T O) : Traces c (c.step x) [x] := by
  unfold step
  split
  · exact (SameStreams.refl c).traces _
  · cases x with
    | new => exact traces_create (by rintro s ⟨⟩)
    | scheduled s => exact traces_create (by rintro s' ⟨⟩; rfl)
    | failed e => exact traces_create (by rintro s ⟨⟩)
    | poll i w locked =>
      cases hi : c.futures[i]? with
      | none =>
        simp only [Process.poll, hi]
        exact (SameStreams.refl c).traces _
      | some f => exact (sameStreams_calls hi (calls_poll hi w locked)).traces _
    | drop i =>
      cases hi : c.futures[i]? with
      | none =>
        simp only [Process.drop, hi]
        exact (SameStreams.refl c).traces _
      | some f => exact (sameStreams_calls hi (calls_drop hi)).traces _
    | tick i a =>
      cases hi : c.futures[i]? with
      | none =>
        simp only [Process.tick, hi]
        exact (SameStreams.refl c).traces _
      | some f => exact (sameStreams_ticks hi (ticks hi)).traces _
    | device s => exact (sameStreams_device s).traces _
    | scan clock => exact (sameStreams_scans (scans clock)).traces _
    | fault s code => exact (sameStreams_fault s code).traces _
    | capture s capturing =>
      refine ⟨fun s' hs' => ?_, fun f hf s' hs' => .inl ⟨f, hf, hs'⟩⟩
      by_cases hs : s' = s
      · subst hs
        simp only [capture, setStream, Function.update_self, Stream.capture] at hs'
        cases capturing with
        | true => exact .inr List.mem_cons_self
        | false => exact .inl ((Bool.or_false _).symm.trans hs')
      · simp only [capture, setStream, Function.update_of_ne hs] at hs'
        exact .inl hs'

theorem traces_run (c : Process T O) (inputs : List (Input T O)) : Traces c (c.run inputs) inputs := by
  induction inputs generalizing c with
  | nil => exact (SameStreams.refl c).traces _
  | cons x inputs ih =>
    have hstep := traces_step (c := c) x
    have hrest := ih (c.step x)
    refine ⟨fun s hs => ?_, fun f hf s hs => ?_⟩
    · rcases hrest.captured s hs with hs | hmem
      · exact (hstep.captured s hs).imp_right fun hmem =>
          List.mem_cons.mpr (.inl (List.mem_singleton.mp hmem))
      · exact .inr (List.mem_cons_of_mem _ hmem)
    · rcases hrest.context f hf s hs with ⟨g, hg, hs⟩ | hmem
      · exact (hstep.context g hg s hs).imp_right fun hmem =>
          List.mem_cons.mpr (.inl (List.mem_singleton.mp hmem))
      · exact .inr (List.mem_cons_of_mem _ hmem)

theorem numSlots_scans (hscan : Scans c c') : c'.table.numSlots = c.table.numSlots := by
  cases hscan with
  | move table _ _ _ ht => exact ht.numSlots
  | wake | fault => exact congrArg SlotTable.numSlots wake_table
  | clear | take | signal => rfl

theorem numSlots_step (hp : c.Placed) (x : Input T O) :
    (c.step x).table.numSlots = c.table.numSlots := by
  cases hturn : c.turn x with
  | true =>
    obtain ⟨clock, -, heq⟩ := step_turn hturn
    exact heq ▸ numSlots_scans (scans clock)
  | false => exact (undisturbed_step hp hturn).numSlots

theorem numSlots_run (hp : c.Placed) (inputs : List (Input T O)) :
    (c.run inputs).table.numSlots = c.table.numSlots := by
  induction inputs generalizing c with
  | nil => rfl
  | cons x inputs ih => exact (ih (placed_step hp x)).trans (numSlots_step hp x)

end Process
end Gudra.Reactor
