import Gudra.Turns
import Gudra.Wakeups

/-! What holds of the reactor and its futures in every run, from the start of the process. -/
namespace Gudra.Reactor

variable {T O : Type}

namespace Process

variable {c c' : Process T O} {f : DeviceFuture T O} {i : ℕ}

theorem sound_reached (numSlots : ℕ) (inputs : List (Input T O)) :
    ((init numSlots).run inputs).Sound := sound_run (sound_init numSlots) inputs

theorem carried_reached (numSlots : ℕ) (inputs : List (Input T O)) :
    ((init numSlots).run inputs).Carried :=
  carried_run (carried_init numSlots) (sound_init numSlots) inputs

theorem settled_reached (numSlots : ℕ) (inputs : List (Input T O)) :
    ((init numSlots).run inputs).Settled :=
  settled_run (settled_init numSlots) (sound_init numSlots) (carried_init numSlots) inputs

theorem heard_reached (numSlots : ℕ) (inputs : List (Input T O)) :
    ((init numSlots).run inputs).Heard :=
  heard_run (heard_init numSlots) (settled_init numSlots) (sound_init numSlots)
    (carried_init numSlots) inputs

/-- A capture leaves the futures' streams alone if none is ever scheduled on what it captures. -/
theorem calm_reached (numSlots : ℕ) (inputs : List (Input T O))
    (h : ∀ s, .capture s true ∈ inputs → .scheduled s ∉ inputs) :
    ((init numSlots).run inputs).Calm := by
  intro f hf s hs
  refine Bool.eq_false_iff.mpr fun hcaptured => ?_
  rcases traces_run (init numSlots) inputs with ⟨hstreams, hfutures⟩
  rcases hstreams s hcaptured with hinit | hcapture
  · cases hinit
  · rcases hfutures f hf s hs with ⟨g, hg, -⟩ | hscheduled
    · exact absurd hg List.not_mem_nil
    · exact h s hcapture hscheduled

/-- The driver accepts what it is asked, and the reactor is there. -/
def accepting : Answer ℕ ℕ where
  executed := .ok 5
  owners := []
  submitted := false
  budget := false
  deadline := false
  hostSync := false
  reactor := true
  refused := none

/-- The scanner finds nothing to do. -/
def sleeping : List (Input ℕ ℕ) := List.replicate 4 (.scan ⟨true, true, false⟩)

/-- A future on stream 0, polled by task 7, and the first `n` accesses of its call. -/
def registering (n : ℕ) : List (Input ℕ ℕ) :=
  .scheduled 0 :: .poll 0 7 false :: List.replicate n (.tick 0 accepting)

/-- Every slot is free, held by one call to `register`, in the bitmap or in the scanner's hands:
none is lost, and none is in two places. -/
theorem slots_conserved (numSlots : ℕ) (inputs : List (Input T O)) :
    (((init numSlots).run inputs).table.free ++
      ((init numSlots).run inputs).places.flatMap Place.slots ++
      ((init numSlots).run inputs).table.armed ++
      ((init numSlots).run inputs).scanner.slots).Perm (List.range numSlots) := by
  have hplaced : ((init numSlots).run inputs).Placed := (sound_reached numSlots inputs).placed
  have hnum : ((init numSlots).run inputs).table.numSlots = numSlots :=
    numSlots_run (sound_init numSlots).placed inputs
  rw [List.perm_iff_count]
  intro slot
  have hslot := Slots.placed hplaced slot
  rw [hnum] at hslot
  simp only [List.count_append]
  exact hslot

/-- `n_armed` is the number of slots that are counted in and not yet counted out, and the scanner
never subtracts more than that. -/
theorem armed_counted (numSlots : ℕ) (inputs : List (Input T O)) :
    ((init numSlots).run inputs).table.nArmed =
        (((init numSlots).run inputs).places.flatMap Place.counted).length +
          ((init numSlots).run inputs).table.armed.length +
          ((init numSlots).run inputs).scanner.uncounted ∧
      ∀ pass, ((init numSlots).run inputs).scanner = .uncount pass →
        pass.retired.length ≤ ((init numSlots).run inputs).table.nArmed := by
  have hplaced : ((init numSlots).run inputs).Placed := (sound_reached numSlots inputs).placed
  refine ⟨Slots.counted hplaced, fun pass hscanner => ?_⟩
  unfold Placed at hplaced
  rw [hscanner] at hplaced
  exact hplaced.retired_le

/-- The scanner does not sleep while a slot is armed, unless it is about to be unparked. -/
theorem parked_unparked (numSlots : ℕ) (inputs : List (Input T O))
    (hparked : ((init numSlots).run inputs).scanner = .park)
    (harmed : ((init numSlots).run inputs).table.armed ≠ []) :
    ((init numSlots).run inputs).token = true ∨
      ∃ f ∈ ((init numSlots).run inputs).futures, f.place.unparks = true := by
  have hplaced : ((init numSlots).run inputs).Placed := (sound_reached numSlots inputs).placed
  have hcounted := Slots.counted hplaced
  have hpos := List.length_pos_iff.mpr harmed
  rcases Slots.parked hplaced (by rw [hparked]; rfl) with hzero | htoken | ⟨p, hp, hunparks⟩
  · omega
  · exact .inl htoken
  · obtain ⟨f, hf, rfl⟩ := List.mem_map.mp hp
    exact .inr ⟨f, hf, hunparks⟩

theorem parked_unparked_registering :
    ((init 1).run (sleeping ++ registering 9)).token = true ∨
      ∃ f ∈ ((init 1).run (sleeping ++ registering 9)).futures, f.place.unparks = true :=
  parked_unparked 1 _ rfl (by decide)

/-- A flag write that is still going to happen is the only one for its slot, which belongs to the
future that asked for it: no stale completion can reach a slot that is used again. A capture of a
future's stream would break that, since the driver's refusal to query it passes for a fault. -/
theorem flag_writes_exclusive (numSlots : ℕ) (inputs : List (Input T O)) (s slot i : ℕ)
    (hcalm : ((init numSlots).run inputs).Calm)
    (hfault : (((init numSlots).run inputs).streams s).fault = none)
    (hmem : .write slot i ∈ (((init numSlots).run inputs).streams s).queue) :
    ((init numSlots).run inputs).table.flags slot = 0 ∧
      slot ∉ ((init numSlots).run inputs).table.free ∧
      (((init numSlots).run inputs).streams s).queue.count (.write slot i) = 1 ∧
      ∀ s' j, (((init numSlots).run inputs).streams s').fault = none →
        .write slot j ∈ (((init numSlots).run inputs).streams s').queue → s' = s ∧ j = i := by
  have hsound : ((init numSlots).run inputs).Sound := sound_reached numSlots inputs
  have hmail := hsound.told.1.mail hcalm
  -- A stream with a write in it is a future's, so it was never captured.
  have hsane : ∀ s' slot' j, (((init numSlots).run inputs).streams s').fault = none →
      .write slot' j ∈ (((init numSlots).run inputs).streams s').queue →
      ¬ (((init numSlots).run inputs).streams s').Broken := by
    intro s' slot' j hfault' hmem'
    rintro (hsome | htrue)
    · rw [hfault'] at hsome
      cases hsome
    · rw [hsound.tracked.uncaptured hcalm hmem'] at htrue
      cases htrue
  obtain ⟨hflag, hwatch⟩ := hmail.pending s slot i (hsane s slot i hfault hmem) hmem
  refine ⟨hflag, ?_, ?_, ?_⟩
  · intro hfree
    have hle := List.nodup_iff_count_le_one.mp
      (List.nodup_range (n := ((init numSlots).run inputs).table.numSlots)) slot
    have hslot := Slots.placed hsound.placed slot
    have hpos := List.count_pos_iff.mpr hfree
    rcases hwatch with hcall | ⟨hkept, -⟩
    · have hheld := (hcall.mono fun _ => Place.mem_slots_of_asked).count_pos
      omega
    · rcases List.mem_append.mp hkept with hkept | hkept
      · have hpos' := List.count_pos_iff.mpr hkept
        omega
      · have hpos' := List.count_pos_iff.mpr (Scanner.mem_slots_of_taken hkept)
        omega
  · have honce := hmail.once s slot i (hsane s slot i hfault hmem)
    have hpos := List.count_pos_iff.mpr hmem
    omega
  · intro s' j hfault' hmem'
    have hwatch' := (hmail.pending s' slot j (hsane s' slot j hfault' hmem') hmem').2
    have heq := hsound.placed.watch_unique hwatch' hwatch
    obtain ⟨rfl, rfl⟩ := Registration.mk.inj heq
    exact ⟨rfl, rfl⟩

theorem flag_writes_exclusive_registering :
    ((init 1).run (registering 10)).table.flags 0 = 0 ∧
      0 ∉ ((init 1).run (registering 10)).table.free ∧
      (((init 1).run (registering 10)).streams 0).queue.count (.write 0 0) = 1 ∧
      ∀ s' j, (((init 1).run (registering 10)).streams s').fault = none →
        .write 0 j ∈ (((init 1).run (registering 10)).streams s').queue → s' = 0 ∧ j = 0 :=
  flag_writes_exclusive 1 _ 0 0 0 (calm_reached 1 _ fun s => by simp [registering]) rfl (by decide)

/-- No wake-up is lost. The task of a pending future is registered while its callback is on its
way, or was woken since its last poll; only where the stream is faulted it may be that another task
was woken, which polled the future before. The stream was not captured: a capture may record the
callback, or make a live stream pass for a faulted one. -/
theorem pending_woken (numSlots : ℕ) (inputs : List (Input T O)) (i : ℕ) (f : DeviceFuture T O)
    (hi : ((init numSlots).run inputs).futures[i]? = some f) (hplace : f.place = .rest)
    (hstate : f.state = .executing)
    (hcaptured : (((init numSlots).run inputs).streams f.stream).captured = false) :
    (((init numSlots).run inputs).carriers i f.stream = 1 ∧
        (((init numSlots).run inputs).callbacks i).waker = some f.task) ∨
      .woken i f.task ∈ recent i ((init numSlots).run inputs).log ∨
      (((init numSlots).run inputs).streams f.stream).fault.isSome ∧
        ∃ w, w ≠ f.task ∧ .woken i w ∈ recent i ((init numSlots).run inputs).log ∧
          .polled i w ∈ ((init numSlots).run inputs).log := by
  have hlawful := (settled_reached numSlots inputs).lawful
  have hexpects := (heard_reached numSlots inputs).expects i f hi hcaptured
  have hbalanced := carried_reached numSlots inputs i f hi
  have harmed := (((sound_reached numSlots inputs).tracked.future i f hi).rest_executing hplace hstate).2
  rw [Expects, hplace] at hexpects
  rcases hexpects hstate with ⟨hnot, hwaker⟩ | ⟨-, hwoken | ⟨hfault, w, hwoken⟩⟩
  · left
    refine ⟨?_, hwaker⟩
    have hzero : ((init numSlots).run inputs).log.countP (·.handles i) = 0 :=
      Nat.eq_zero_of_not_pos (mt handled_mem hnot)
    have hpos : 0 < ((init numSlots).run inputs).log.countP (·.arms i) :=
      List.countP_pos_iff.mpr ⟨_, harmed, beq_self_eq_true i⟩
    have hle := (hlawful.arms_le i).1
    unfold Balanced at hbalanced
    omega
  · exact .inr (.inl hwoken)
  · by_cases hw : w = f.task
    · exact .inr (.inl (hw ▸ hwoken))
    · refine .inr (.inr ⟨hfault, w, hw, hwoken, ?_⟩)
      have hmem : .woken i w ∈ ((init numSlots).run inputs).log :=
        (List.takeWhile_prefix _).subset hwoken
      obtain ⟨es, rest, heq⟩ := List.append_of_mem hmem
      rw [heq] at hlawful ⊢
      exact List.mem_append_right _ (List.mem_cons_of_mem _ hlawful.follows)

theorem pending_woken_registering :
    ∃ f, ((init 1).run (registering 10)).futures[0]? = some f ∧
      ((((init 1).run (registering 10)).carriers 0 f.stream = 1 ∧
          (((init 1).run (registering 10)).callbacks 0).waker = some f.task) ∨
        .woken 0 f.task ∈ recent 0 ((init 1).run (registering 10)).log ∨
        (((init 1).run (registering 10)).streams f.stream).fault.isSome ∧
          ∃ w, w ≠ f.task ∧ .woken 0 w ∈ recent 0 ((init 1).run (registering 10)).log ∧
            .polled 0 w ∈ ((init 1).run (registering 10)).log) :=
  ⟨_, rfl, pending_woken 1 _ 0 _ rfl rfl rfl rfl⟩

end Process
end Gudra.Reactor
