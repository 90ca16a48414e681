import Gudra.Carriers

/-! What may follow what in the history of a future. -/
namespace Gudra.Reactor

variable {T O : Type}

/-- The event may come after the events of the log; `executed` is whether the streams execute all
that is submitted to them. -/
def Event.Follows (executed : Prop) : Event T O → List (Event T O) → Prop
  | .polled _ _, _ => True
  | .submitted i, log => .submitted i ∉ log
  | .worked i, log => .submitted i ∈ log ∧ .worked i ∉ log
  | .armed i, log => .submitted i ∈ log ∧ .armed i ∉ log
  | .handled i, log => .armed i ∈ log ∧ .handled i ∉ log
  | .woken i w, log => .polled i w ∈ log
  | .pending i, log => .armed i ∈ log ∧ ∀ result, .ready i result ∉ log
  | .ready i result, log =>
    (∀ result', .ready i result' ∉ log) ∧ (executed → (∃ v, result = .ok v) → .worked i ∈ log)
  | .released i _, log =>
    (∀ owners', .released i owners' ∉ log) ∧ (executed → .submitted i ∈ log → .worked i ∈ log)
  | .panicked i, log => ∃ result, .ready i result ∈ log

def Lawful (executed : Prop) : List (Event T O) → Prop
  | [] => True
  | e :: log => e.Follows executed log ∧ Lawful executed log

section Lawful

variable {executed executed' : Prop}

theorem Lawful.mono {log : List (Event T O)} (h : Lawful executed log) (hmono : executed' → executed) :
    Lawful executed' log := by
  induction log with
  | nil => trivial
  | cons e log ih =>
    refine ⟨?_, ih h.2⟩
    cases e with
    | ready i result => exact ⟨h.1.1, fun hexecuted => h.1.2 (hmono hexecuted)⟩
    | released i owners => exact ⟨h.1.1, fun hexecuted => h.1.2 (hmono hexecuted)⟩
    | polled | submitted | worked | armed | handled | woken | pending | panicked => exact h.1

theorem Lawful.of_append {es log : List (Event T O)} (h : Lawful executed (es ++ log)) :
    Lawful executed log := by
  induction es with
  | nil => exact h
  | cons e es ih => exact ih h.2

/-- A lawful history has an event of its own before each of its events. -/
theorem Lawful.follows {es log : List (Event T O)} {e : Event T O}
    (h : Lawful executed (es ++ e :: log)) : e.Follows executed log := h.of_append.1

theorem Lawful.worked_submitted {log : List (Event T O)} {i : ℕ} (h : Lawful executed log)
    (hmem : .worked i ∈ log) : .submitted i ∈ log := by
  obtain ⟨es, rest, rfl⟩ := List.append_of_mem hmem
  exact List.mem_append_right _ (List.mem_cons_of_mem _ h.follows.1)

theorem Lawful.arms_le {log : List (Event T O)} (i : ℕ) (h : Lawful executed log) :
    log.countP (·.arms i) ≤ 1 ∧ (.armed i ∉ log → log.countP (·.arms i) = 0) := by
  induction log with
  | nil => exact ⟨Nat.zero_le 1, fun _ => rfl⟩
  | cons e log ih =>
    obtain ⟨hle, hzero⟩ := ih h.2
    have hskip : e.arms i = false → (e :: log).countP (·.arms i) = log.countP (·.arms i) :=
      fun he => List.countP_cons_of_neg (by simp [he])
    cases e with
    | armed j =>
      by_cases hji : j = i
      · subst hji
        have hself : (Event.armed j : Event T O).arms j = true := beq_self_eq_true j
        rw [List.countP_cons_of_pos hself, hzero h.1.2]
        exact ⟨Nat.le_refl 1, fun hnot => absurd List.mem_cons_self hnot⟩
      · rw [hskip (beq_eq_false_iff_ne.mpr hji)]
        exact ⟨hle, fun hnot => hzero fun hmem => hnot (List.mem_cons_of_mem _ hmem)⟩
    | polled | submitted | worked | handled | woken | pending | ready | released | panicked =>
      rw [hskip rfl]
      exact ⟨hle, fun hnot => hzero fun hmem => hnot (List.mem_cons_of_mem _ hmem)⟩

end Lawful

theorem handles_eq_zero {log : List (Event T O)} {i : ℕ} (h : log.countP (·.handles i) = 0) :
    .handled i ∉ log := fun hmem => List.countP_eq_zero.mp h _ hmem (beq_self_eq_true i)

theorem handled_mem {log : List (Event T O)} {i : ℕ} (h : 0 < log.countP (·.handles i)) :
    .handled i ∈ log := by
  obtain ⟨e, he, hhandles⟩ := List.countP_pos_iff.mp h
  cases e with
  | handled j => exact beq_iff_eq.mp hhandles ▸ he
  | polled | submitted | worked | armed | woken | pending | ready | released | panicked =>
    cases hhandles

theorem armed_mem {log : List (Event T O)} {i : ℕ} (h : 0 < log.countP (·.arms i)) :
    .armed i ∈ log := by
  obtain ⟨e, he, harms⟩ := List.countP_pos_iff.mp h
  cases e with
  | armed j => exact beq_iff_eq.mp harms ▸ he
  | polled | submitted | worked | handled | woken | pending | ready | released | panicked =>
    cases harms

/-- The part of a call that still can answer. -/
def Stage.live : Stage → Bool
  | .rest | .dropping | .dropped => false
  | _ => true

/-- A part of `poll` that may register the task. -/
def Stage.polls : Stage → Bool
  | .opening | .polling => true
  | _ => false

/-- The future has not answered yet, nor is it gone. -/
def DeviceFuture.Live (f : DeviceFuture T O) : Prop := f.state ≠ .complete ∧ f.place ≠ .dropped

theorem DeviceFuture.Good.live {f : DeviceFuture T O} {log : List (Event T O)} {i : ℕ}
    (h : f.Good log i) (hlive : f.place.stage.live = true) : f.Live := by
  constructor
  · cases hs : f.place.stage with
    | rest | dropping | dropped =>
      rw [hs] at hlive
      cases hlive
    | opening => rw [(h.opening hs).1]; decide
    | draining => rw [(h.draining hs).1]; decide
    | launched => rw [(h.launched hs).1]; decide
    | armed => rw [(h.armed hs).1]; decide
    | polling => rw [(h.polling hs).1]; decide
  · intro hplace
    rw [hplace] at hlive
    cases hlive

namespace Process

variable {c c' : Process T O} {f f' : DeviceFuture T O} {r : Registration} {i j s : ℕ}
  {es : List (Event T O)}

structure Settled (c : Process T O) : Prop where
  lawful : Lawful c.Calm c.log
  ready : ∀ (i : ℕ) (f : DeviceFuture T O), c.futures[i]? = some f →
    ((∃ result, .ready i result ∈ c.log) ↔ f.state = .complete)
  released : ∀ (i : ℕ) (f : DeviceFuture T O) (owners : List O), c.futures[i]? = some f →
    .released i owners ∈ c.log →
      f.completionPending = false ∧ (f.state = .complete ∨ f.place = .dropped)
  working : ∀ s i, .work i ∈ (c.streams s).queue → .worked i ∉ c.log
  waker : ∀ i w, (c.callbacks i).waker = some w → .polled i w ∈ c.log
  task : ∀ (i : ℕ) (f : DeviceFuture T O), c.futures[i]? = some f →
    f.place.stage.polls = true → .polled i f.task ∈ c.log

/-- One future changes; its events are its own. -/
theorem Settled.set (h : c.Settled) (es : List (Event T O)) (hi : c.futures[i]? = some f)
    (hcalm : c'.Calm → c.Calm) (hfutures : c'.futures = c.futures.set i f') (hlog : c'.log = es ++ c.log)
    (hes : ∀ e ∈ es, e.future = i ∧ ∀ j, e ≠ .worked j) (hlawful : Lawful c.Calm (es ++ c.log))
    (hready : (∃ result, .ready i result ∈ es ++ c.log) ↔ f'.state = .complete)
    (hreleased : ∀ owners, .released i owners ∈ es ++ c.log →
      f'.completionPending = false ∧ (f'.state = .complete ∨ f'.place = .dropped))
    (hworking : ∀ s j, .work j ∈ (c'.streams s).queue → .worked j ∉ c.log)
    (hwaker : ∀ j w, (c'.callbacks j).waker = some w → .polled j w ∈ c.log)
    (htask : f'.place.stage.polls = true → .polled i f'.task ∈ es ++ c.log) : c'.Settled := by
  have hold : ∀ e : Event T O, e.future ≠ i → (e ∈ c'.log ↔ e ∈ c.log) := by
    intro e hne
    rw [hlog, List.mem_append]
    exact or_iff_right fun he => hne (hes e he).1
  refine ⟨hlog ▸ hlawful.mono hcalm, ?_, ?_, ?_, ?_, ?_⟩
  · intro j g hj
    rw [hfutures] at hj
    rcases getElem?_set_cases hi hj with ⟨rfl, rfl⟩ | ⟨hne, hj⟩
    · exact hlog ▸ hready
    · rw [← h.ready j g hj]
      exact exists_congr fun result => hold (.ready j result) hne
  · intro j g owners hj hmem
    rw [hfutures] at hj
    rcases getElem?_set_cases hi hj with ⟨rfl, rfl⟩ | ⟨hne, hj⟩
    · exact hreleased owners (hlog ▸ hmem)
    · exact h.released j g owners hj ((hold (.released j owners) hne).mp hmem)
  · intro s j hmem hworked
    rw [hlog, List.mem_append] at hworked
    exact hworked.elim (fun he => (hes _ he).2 j rfl) (hworking s j hmem)
  · intro j w hw
    exact hlog ▸ List.mem_append_right _ (hwaker j w hw)
  · intro j g hj hstage
    rw [hfutures] at hj
    rcases getElem?_set_cases hi hj with ⟨rfl, rfl⟩ | ⟨hne, hj⟩
    · exact hlog ▸ htask hstage
    · exact (hold (.polled j g.task) hne).mpr (h.task j g hj hstage)

/-- The futures stay, and the log grows. -/
theorem Settled.log (h : c.Settled) (es : List (Event T O)) (hcalm : c'.Calm → c.Calm)
    (hfutures : c'.futures = c.futures) (hlog : c'.log = es ++ c.log)
    (hes : ∀ e ∈ es, (∀ i result, e ≠ .ready i result) ∧ ∀ i owners, e ≠ .released i owners)
    (hlawful : Lawful c.Calm (es ++ c.log))
    (hworking : ∀ s j, .work j ∈ (c'.streams s).queue → .worked j ∉ es ++ c.log)
    (hwaker : ∀ j w, (c'.callbacks j).waker = some w → (c.callbacks j).waker = some w) :
    c'.Settled where
  lawful := hlog ▸ hlawful.mono hcalm
  ready j g hj := by
    rw [hfutures] at hj
    rw [← h.ready j g hj]
    refine exists_congr fun result => ?_
    rw [hlog, List.mem_append]
    exact or_iff_right fun he => (hes _ he).1 j result rfl
  released j g owners hj hmem := by
    rw [hfutures] at hj
    rw [hlog, List.mem_append] at hmem
    exact h.released j g owners hj (hmem.resolve_left fun he => (hes _ he).2 j owners rfl)
  working s j hmem := hlog ▸ hworking s j hmem
  waker j w hw := hlog ▸ List.mem_append_right _ (h.waker j w (hwaker j w hw))
  task j g hj hstage := by
    rw [hfutures] at hj
    exact hlog ▸ List.mem_append_right _ (h.task j g hj hstage)

/-- A future that has not answered yet has no answer in the log, and has released nothing. -/
theorem Settled.unanswered (h : c.Settled) (hi : c.futures[i]? = some f) (hlive : f.Live) :
    (∀ result, .ready i result ∉ c.log) ∧ ∀ owners, .released i owners ∉ c.log := by
  constructor
  · intro result hmem
    exact hlive.1 ((h.ready i f hi).mp ⟨result, hmem⟩)
  · intro owners hmem
    exact (h.released i f owners hi hmem).2.elim hlive.1 hlive.2

/-- A call goes on and does not answer. -/
theorem Settled.goes (h : c.Settled) (es : List (Event T O)) (hi : c.futures[i]? = some f)
    (hlive : f.Live) (hcalm : c'.Calm → c.Calm) (hfutures : c'.futures = c.futures.set i f')
    (hlog : c'.log = es ++ c.log)
    (hes : ∀ e ∈ es, e = .submitted i ∨ e = .armed i ∨ e = .pending i ∨ ∃ w, e = .polled i w)
    (hlawful : Lawful c.Calm (es ++ c.log)) (hstate' : f'.state ≠ .complete)
    (hworking : ∀ s j, .work j ∈ (c'.streams s).queue → .worked j ∉ c.log)
    (hwaker : ∀ j w, (c'.callbacks j).waker = some w → .polled j w ∈ c.log)
    (htask : f'.place.stage.polls = true → .polled i f'.task ∈ es ++ c.log) : c'.Settled := by
  obtain ⟨hready, hreleased⟩ := h.unanswered hi hlive
  have hnone : ∀ e ∈ es, e.future = i ∧ (∀ j, e ≠ .worked j) ∧ (∀ result, e ≠ .ready i result) ∧
      ∀ owners, e ≠ .released i owners := by
    intro e he
    rcases hes e he with rfl | rfl | rfl | ⟨w, rfl⟩ <;> simp [Event.future]
  refine h.set es hi hcalm hfutures hlog (fun e he => ⟨(hnone e he).1, (hnone e he).2.1⟩) hlawful ?_ ?_
    hworking hwaker htask
  · refine iff_of_false ?_ hstate'
    rintro ⟨result, hmem⟩
    rcases List.mem_append.mp hmem with hmem | hmem
    · exact (hnone _ hmem).2.2.1 result rfl
    · exact hready result hmem
  · intro owners hmem
    rcases List.mem_append.mp hmem with hmem | hmem
    · exact absurd rfl ((hnone _ hmem).2.2.2 owners)
    · exact absurd hmem (hreleased owners)

/-- What else happens when a call answers. -/
def Closing (executed : Prop) (i : ℕ) (f' : DeviceFuture T O) (log es : List (Event T O)) : Prop :=
  es = [] ∨ (∃ w, es = [.polled i w]) ∨
    ∃ owners, es = [.released i owners] ∧ f'.completionPending = false ∧
      (executed → .submitted i ∈ log → .worked i ∈ log)

theorem Settled.answer (h : c.Settled) (es : List (Event T O)) {result : Except DeviceError T}
    (hi : c.futures[i]? = some f) (hlive : f.Live) (hcalm : c'.Calm → c.Calm)
    (hfutures : c'.futures = c.futures.set i f') (hlog : c'.log = .ready i result :: (es ++ c.log))
    (hes : Closing c.Calm i f' c.log es)
    (hworked : c.Calm → (∃ v, result = .ok v) → .worked i ∈ c.log)
    (hstate' : f'.state = .complete) (hplace' : f'.place = .rest)
    (hstreams : c'.streams = c.streams) (hcallbacks : c'.callbacks = c.callbacks) : c'.Settled := by
  obtain ⟨hready, hreleased⟩ := h.unanswered hi hlive
  refine h.set (.ready i result :: es) hi hcalm hfutures hlog ?_ ?_ ?_ ?_ (hstreams ▸ h.working)
    (hcallbacks ▸ h.waker) ?_
  · intro e he
    rcases List.mem_cons.mp he with rfl | he
    · exact ⟨rfl, by simp⟩
    · rcases hes with rfl | ⟨w, rfl⟩ | ⟨owners, rfl, -⟩
      · exact absurd he List.not_mem_nil
      · obtain rfl := List.mem_singleton.mp he
        exact ⟨rfl, by simp⟩
      · obtain rfl := List.mem_singleton.mp he
        exact ⟨rfl, by simp⟩
  · rcases hes with rfl | ⟨w, rfl⟩ | ⟨owners, rfl, -, hdone⟩
    · exact ⟨⟨hready, hworked⟩, h.lawful⟩
    · refine ⟨⟨fun result' hmem => ?_, fun hc hok =>
        List.mem_cons_of_mem _ (hworked hc hok)⟩, trivial, h.lawful⟩
      exact hready result' (List.mem_of_ne_of_mem (by simp) hmem)
    · refine ⟨⟨fun result' hmem => ?_, fun hc hok =>
        List.mem_cons_of_mem _ (hworked hc hok)⟩,
        ⟨hreleased, hdone⟩, h.lawful⟩
      exact hready result' (List.mem_of_ne_of_mem (by simp) hmem)
  · exact iff_of_true ⟨result, List.mem_cons_self⟩ hstate'
  · intro owners hmem
    refine ⟨?_, .inl hstate'⟩
    rcases List.mem_append.mp hmem with hmem | hmem
    · rcases hes with rfl | ⟨w, rfl⟩ | ⟨owners', rfl, hpending, -⟩
      · simp at hmem
      · simp at hmem
      · exact hpending
    · exact absurd hmem (hreleased owners)
  · rw [hplace']
    exact fun hs => absurd hs Bool.false_ne_true

theorem settled_deliver (h : c.Settled) (hi : c.futures[i]? = some f) (hlive : f.Live)
    (hf : f.InFlight c.log i) (hworked : c.Calm → .worked i ∈ c.log) :
    ((c.release i f).deliver i f).Settled := by
  obtain ⟨v, hv⟩ := Option.isSome_iff_exists.mp hf.result
  obtain ⟨owners, howners⟩ := Option.isSome_iff_exists.mp hf.quarantined
  have heq : (c.release i f).deliver i f = ((c.record (.released i owners)).setFuture i
      { f with
        result := none
        state := .complete
        completionPending := false
        quarantined := none
        place := .rest }).record (.ready i (.ok v)) := by
    simp only [release, howners, deliver, hv]
  rw [heq]
  exact h.answer [_] hi hlive (Calm.of_set hi rfl rfl fun _ => id) rfl rfl
    (.inr (.inr ⟨owners, rfl, rfl, fun hc _ => hworked hc⟩)) (fun hc _ => hworked hc) rfl rfl rfl rfl

theorem working_submit {op : StreamOp} (h : c.Settled)
    (hop : ∀ j, op = .work j → .worked j ∉ c.log) :
    ∀ s' j, .work j ∈ ((c.submit s op).streams s').queue → .worked j ∉ c.log := by
  intro s' j hmem
  by_cases hs : s' = s
  · subst hs
    rw [submit_self] at hmem
    rcases Stream.mem_queue_submit _ op hmem with hmem | heq
    · exact h.working s' j hmem
    · exact hop j heq.symm
  · rw [submit_of_ne op hs] at hmem
    exact h.working s' j hmem

theorem waker_register (h : c.Settled) {w : ℕ} (hw : .polled i w ∈ c.log) :
    ∀ j w', ((c.register i w).callbacks j).waker = some w' → .polled j w' ∈ c.log := by
  intro j w' hj
  by_cases hji : j = i
  · subst hji
    have heq : some w = some w' := by simpa [Process.register, setCallback] using hj
    exact Option.some.inj heq ▸ hw
  · refine h.waker j w' ?_
    simpa [Process.register, setCallback, hji] using hj

/-- A call goes on and says nothing. -/
theorem Settled.quiet {p : Place O} (h : c.Settled) (hi : c.futures[i]? = some f) (hlive : f.Live)
    (hcalm : c'.Calm → c.Calm) (hfutures : c'.futures = c.futures.set i { f with place := p })
    (hlog : c'.log = c.log) (htask : p.stage.polls = true → .polled i f.task ∈ c.log)
    (hworking : ∀ s j, .work j ∈ (c'.streams s).queue → .worked j ∉ c.log)
    (hwaker : ∀ j w, (c'.callbacks j).waker = some w → .polled j w ∈ c.log) : c'.Settled :=
  h.goes [] hi hlive hcalm hfutures hlog (fun _ he => absurd he List.not_mem_nil) h.lawful hlive.1
    hworking hwaker htask

/-- A call submits the work of its future. -/
theorem Settled.submits (h : c.Settled) (hi : c.futures[i]? = some f) (hlive : f.Live)
    (hcalm : c'.Calm → c.Calm) (hun : .submitted i ∉ c.log)
    (hfutures : c'.futures = c.futures.set i f') (hlog : c'.log = .submitted i :: c.log)
    (hstate' : f'.state ≠ .complete) (hstage' : f'.place.stage.polls = false)
    (hstreams : c'.streams = (c.submit f.stream (.work i)).streams)
    (hcallbacks : c'.callbacks = c.callbacks) : c'.Settled := by
  refine h.goes [.submitted i] hi hlive hcalm hfutures hlog (by simp) ⟨hun, h.lawful⟩ hstate' ?_
    (by rw [hcallbacks]; exact h.waker) fun hs => absurd hs (hstage' ▸ Bool.false_ne_true)
  rw [hstreams]
  refine working_submit h fun j hop hmem => ?_
  obtain rfl := StreamOp.work.inj hop
  exact hun (h.lawful.worked_submitted hmem)

/-- A call hands the callback over, or has done so, and returns `Pending`. -/
theorem Settled.suspends (h : c.Settled) {es : List (Event T O)} (hi : c.futures[i]? = some f)
    (hlive : f.Live) (hcalm : c'.Calm → c.Calm)
    (hfutures : c'.futures = c.futures.set i { f with state := .executing, place := .rest })
    (hes : es = [] ∧ .armed i ∈ c.log ∨
      es = [.armed i] ∧ .submitted i ∈ c.log ∧ .armed i ∉ c.log)
    (hlog : c'.log = .pending i :: es ++ c.log)
    (hworking : ∀ s j, .work j ∈ (c'.streams s).queue → .worked j ∉ c.log)
    (hcallbacks : c'.callbacks = c.callbacks) : c'.Settled := by
  obtain ⟨hready, -⟩ := h.unanswered hi hlive
  have hwaker : ∀ j w, (c'.callbacks j).waker = some w → .polled j w ∈ c.log := by
    rw [hcallbacks]
    exact h.waker
  rcases hes with ⟨rfl, harmed⟩ | ⟨rfl, hsubmitted, harmed⟩
  · exact h.goes [.pending i] hi hlive hcalm hfutures hlog (by simp) ⟨⟨harmed, hready⟩, h.lawful⟩
      (by simp) hworking hwaker fun hs => absurd hs Bool.false_ne_true
  · refine h.goes [.pending i, .armed i] hi hlive hcalm hfutures hlog (by simp)
      ⟨⟨List.mem_cons_self, fun result hmem => ?_⟩, ⟨hsubmitted, harmed⟩, h.lawful⟩ (by simp)
      hworking hwaker fun hs => absurd hs Bool.false_ne_true
    exact hready result (List.mem_of_ne_of_mem (by simp) hmem)

/-- `drop` ends, and the future keeps nothing. -/
theorem settled_free (h : c.Settled) (hi : c.futures[i]? = some f) (hf : f.InFlight c.log i)
    (hworked : c.Calm → .submitted i ∈ c.log → .worked i ∈ c.log) : (c.free i f).Settled := by
  obtain ⟨owners, howners⟩ := Option.isSome_iff_exists.mp hf.quarantined
  have hreleased : ∀ owners', .released i owners' ∉ c.log := by
    intro owners' hmem
    have hpending := (h.released i f owners' hi hmem).1
    rw [hf.pending] at hpending
    cases hpending
  simp only [free, release, howners]
  refine h.set [.released i owners] hi (Calm.of_set hi rfl rfl fun _ => id) rfl rfl
    (by simp [Event.future]) ⟨⟨hreleased, hworked⟩, h.lawful⟩ ?_ (fun _ _ => ⟨rfl, .inr rfl⟩)
    h.working h.waker (fun hs => absurd hs Bool.false_ne_true)
  rw [← h.ready i f hi]
  simp

/-- `drop` goes on to its next call of the driver. -/
theorem Settled.drops {p : Place O} (h : c.Settled) (hi : c.futures[i]? = some f)
    (hf : f.InFlight c.log i) (hp : p.stage = .dropping) :
    (c.setFuture i { f with place := p }).Settled := by
  refine h.set [] hi (Calm.of_set hi rfl rfl fun _ => id) rfl rfl
    (fun _ he => absurd he List.not_mem_nil) h.lawful (h.ready i f hi) (fun owners hmem => ?_)
    h.working h.waker fun hs => ?_
  · have hpending := (h.released i f owners hi hmem).1
    rw [hf.pending] at hpending
    cases hpending
  · rw [hp] at hs
    cases hs

theorem settled_ticks (h : c.Settled) (hsound : c.Sound) (hi : c.futures[i]? = some f)
    (ht : Ticks c i f c') : c'.Settled := by
  have hgood := hsound.tracked.future i f hi
  have hlive : f.place.stage.live = true → f.Live := hgood.live
  have hcalm := (sameStreams_ticks hi ht).calm
  have hlaunched : ∀ {p : Place O}, p.stage = .launched →
      (p.stage.polls = true → .polled i f.task ∈ c.log) := by
    intro p hp hstage
    rw [hp] at hstage
    cases hstage
  -- The device has done the work of a future whose stream holds it no more.
  have hdone : f.executionContext.isSome → .work i ∉ (c.streams f.stream).queue → c.Calm →
      .submitted i ∈ c.log → .worked i ∈ c.log := fun hcontext hmem hc hsubmitted =>
    hsound.tracked.worked_of_not_mem hc hi hcontext hsubmitted hmem
  have hfail : ∀ e, f.place.stage.live = true → (c.fail i f e).Settled := by
    intro e hstage
    refine h.answer [] hi (hlive hstage) (Calm.of_set hi rfl rfl fun _ => id) rfl rfl (.inl rfl) ?_
      rfl rfl rfl rfl
    rintro - ⟨v, ⟨⟩⟩
  cases ht with
  | wait => exact h
  | abort =>
    exact h.log [] hcalm rfl rfl (fun _ he => absurd he List.not_mem_nil) h.lawful h.working
      fun _ _ => id
  | register hplace | reregister hplace =>
    have hpolled := h.task i f hi (by rw [hplace]; rfl)
    exact h.quiet hi (hlive (by rw [hplace]; rfl)) hcalm rfl rfl (fun _ => hpolled) h.working
      (waker_register h hpolled)
  | reject e hplace => exact hfail e (by rw [hplace]; rfl)
  | execute v owners hplace | executeSome e owners hplace =>
    obtain ⟨hstate, hun⟩ := hgood.opening (by rw [hplace]; rfl)
    exact h.submits hi (hlive (by rw [hplace]; rfl)) hcalm hun.submitted rfl rfl (by simp [hstate])
      rfl rfl rfl
  | executeNone e owners hplace =>
    have hstage := hlive (by rw [hplace]; rfl)
    exact h.goes [] hi hstage hcalm rfl rfl (fun _ he => absurd he List.not_mem_nil) h.lawful
      hstage.1 h.working h.waker (fun hs => absurd hs Bool.false_ne_true)
  | drained e owners hplace hmem =>
    have hcontext := (hgood.draining (by rw [hplace]; rfl)).2.context
    refine h.answer [_] hi (hlive (by rw [hplace]; rfl)) hcalm rfl rfl
      (.inr (.inr ⟨owners, rfl, rfl, hdone hcontext hmem⟩)) ?_ rfl rfl rfl rfl
    rintro - ⟨v, ⟨⟩⟩
  | prove hplace hqueue =>
    have hf : f.InFlight c.log i ∧ f.place.stage.live = true := by
      rcases hplace with hplace | hplace
      · exact ⟨(hgood.launched (by rw [hplace]; rfl)).2.1, by rw [hplace]; rfl⟩
      · exact ⟨(hgood.polling (by rw [hplace]; rfl)).2.1, by rw [hplace]; rfl⟩
    refine settled_deliver h hi (hlive hf.2) hf.1 fun hc => ?_
    exact hdone hf.1.context (by rw [hqueue]; exact List.not_mem_nil) hc hf.1.submitted
  | observe hplace hcomplete =>
    have hf : f.InFlight c.log i ∧ f.place.stage.live = true := by
      rcases hplace with hplace | hplace <;>
        exact ⟨(hgood.polling (by rw [hplace]; rfl)).2.1, by rw [hplace]; rfl⟩
    exact settled_deliver h hi (hlive hf.2) hf.1 (hsound.told.2.complete i hcomplete)
  | refuse code hplace =>
    refine hfail _ ?_
    rcases hplace with hplace | hplace | hplace | hplace <;> rw [hplace] <;> rfl
  | unclaimed hplace =>
    refine h.quiet hi (hlive ?_) hcalm rfl rfl (hlaunched rfl) h.working h.waker
    rcases hplace with hplace | hplace <;> rw [hplace] <;> rfl
  | react hplace | claim _ _ hplace | reset _ hplace | unwritten _ hplace | release _ hplace
  | payload _ hplace | count _ hplace =>
    exact h.quiet hi (hlive (by rw [hplace]; rfl)) hcalm rfl rfl (hlaunched rfl) h.working h.waker
  | write slot hplace =>
    refine h.quiet hi (hlive (by rw [hplace]; rfl)) hcalm rfl rfl (hlaunched rfl)
      (working_submit h ?_) h.waker
    rintro j ⟨⟩
  | armFirst slot hplace =>
    obtain ⟨-, hf, harmed⟩ := hgood.launched (by rw [hplace]; rfl)
    have hstage := hlive (by rw [hplace]; rfl)
    exact h.goes [.armed i] hi hstage hcalm rfl rfl (by simp) ⟨⟨hf.submitted, harmed⟩, h.lawful⟩
      hstage.1 h.working h.waker (fun hs => absurd hs Bool.false_ne_true)
  | arm slot hplace =>
    obtain ⟨-, hf, harmed⟩ := hgood.launched (by rw [hplace]; rfl)
    exact h.suspends hi (hlive (by rw [hplace]; rfl)) hcalm rfl
      (.inr ⟨rfl, hf.submitted, harmed⟩) rfl h.working rfl
  | unpark hplace =>
    obtain ⟨-, hf, harmed⟩ := hgood.armed (by rw [hplace]; rfl)
    exact h.suspends hi (hlive (by rw [hplace]; rfl)) hcalm rfl (.inl ⟨rfl, harmed⟩) rfl h.working rfl
  | host hplace =>
    obtain ⟨-, hf, harmed⟩ := hgood.launched (by rw [hplace]; rfl)
    refine h.suspends hi (hlive (by rw [hplace]; rfl)) hcalm rfl
      (.inr ⟨rfl, hf.submitted, harmed⟩) rfl (working_submit h ?_) rfl
    rintro j ⟨⟩
  | missed hplace | ask hplace =>
    have hpolled := h.task i f hi (by rw [hplace]; rfl)
    exact h.quiet hi (hlive (by rw [hplace]; rfl)) hcalm rfl rfl (fun _ => hpolled) h.working h.waker
  | busy hplace =>
    have hstage : f.place.stage = .polling := by
      rcases hplace with hplace | hplace <;> rw [hplace] <;> rfl
    have hpolled := h.task i f hi (by rw [hstage]; rfl)
    exact h.quiet hi (hlive (by rw [hstage]; rfl)) hcalm rfl rfl (fun _ => hpolled) h.working h.waker
  | suspend hplace =>
    obtain ⟨-, hf, harmed⟩ := hgood.polling (by rw [hplace]; rfl)
    exact h.suspends hi (hlive (by rw [hplace]; rfl)) hcalm rfl (.inl ⟨rfl, harmed⟩) rfl h.working rfl
  | bind hplace | block hplace =>
    exact h.drops hi (hgood.dropping (by rw [hplace]; rfl)) rfl
  | free hplace hmem =>
    have hf : f.InFlight c.log i := by
      rcases hplace with hplace | hplace <;> exact hgood.dropping (by rw [hplace]; rfl)
    exact settled_free h hi hf (hdone hf.context hmem)

theorem settled_calls (h : c.Settled) (hsound : c.Sound) (hi : c.futures[i]? = some f)
    (hc : Calls c i f c') : c'.Settled := by
  have hgood := hsound.tracked.future i f hi
  have hrest : f.place = .rest → f.place ≠ .dropped := by
    intro hplace hdropped
    rw [hplace] at hdropped
    cases hdropped
  have hcalm := (sameStreams_calls hi hc).calm
  cases hc with
  | wait => exact h
  | abort =>
    exact h.log [] hcalm rfl rfl (fun _ he => absurd he List.not_mem_nil) h.lawful h.working fun _ _ => id
  | error w e hplace hstate | locked w e hplace hstate =>
    refine h.answer [.polled i w] hi ⟨?_, hrest hplace⟩ hcalm rfl rfl (.inr (.inl ⟨w, rfl⟩)) ?_ rfl
      rfl rfl rfl
    · rw [hstate]
      decide
    · rintro - ⟨v, ⟨⟩⟩
  | missing w hplace hstate herror =>
    obtain ⟨-, hsome⟩ := hgood.rest_failed hplace hstate
    rw [herror] at hsome
    cases hsome
  | begin w hplace hstate | again w hplace hstate =>
    refine h.goes [.polled i w] hi ⟨?_, hrest hplace⟩ hcalm rfl rfl (by simp) ⟨trivial, h.lawful⟩ ?_
      h.working h.waker fun _ => List.mem_cons_self
    · rw [hstate]
      decide
    · simp [hstate]
  | late w hplace hstate =>
    obtain ⟨result, hready⟩ := (h.ready i f hi).mpr hstate
    refine h.set [.panicked i, .polled i w] hi hcalm rfl rfl (by simp [Event.future])
      ⟨⟨result, List.mem_cons_of_mem _ hready⟩, trivial, h.lawful⟩ ?_ ?_ h.working h.waker ?_
    · exact iff_of_true ⟨result, List.mem_append_right _ hready⟩ hstate
    · intro owners hmem
      have hmem : .released i owners ∈ c.log := by simpa using hmem
      exact ⟨(h.released i f owners hi hmem).1, .inl hstate⟩
    · simp [hplace, Place.stage, Stage.polls]
  | bind hplace hpending =>
    refine h.set [] hi hcalm rfl rfl (fun _ he => absurd he List.not_mem_nil) h.lawful
      (h.ready i f hi) ?_ h.working h.waker fun hs => absurd hs Bool.false_ne_true
    intro owners hmem
    have hnot := (h.released i f owners hi hmem).1
    rw [hpending] at hnot
    cases hnot
  | discard hplace hpending =>
    exact h.set [] hi hcalm rfl rfl (fun _ he => absurd he List.not_mem_nil) h.lawful (h.ready i f hi)
      (fun _ _ => ⟨hpending, .inr rfl⟩) h.working h.waker fun hs => absurd hs Bool.false_ne_true

/-- What is on its way was handed over and is not delivered. -/
theorem Settled.underway (h : c.Settled) (hcarried : c.Carried) (hi : c.futures[i]? = some f)
    (hpos : 0 < c.carriers i f.stream) : .armed i ∈ c.log ∧ .handled i ∉ c.log := by
  have hbalanced := hcarried i f hi
  have hle := (h.lawful.arms_le i).1
  unfold Balanced at hbalanced
  exact ⟨armed_mem (by omega), handles_eq_zero (by omega)⟩

theorem settled_handled (h : c.Settled) (hi : .armed i ∈ c.log) (hnot : .handled i ∉ c.log) :
    ((c.wake i).record (.handled i)).Settled := by
  obtain heq | ⟨w, hw, heq⟩ := wake_cases (c := c) (i := i)
  · rw [heq]
    exact h.log [.handled i] id rfl rfl (by simp) ⟨⟨hi, hnot⟩, h.lawful⟩
      (fun s j hmem => by simpa using h.working s j hmem) fun _ _ => id
  · rw [heq]
    refine h.log [.handled i, .woken i w] id rfl rfl (by simp)
      ⟨⟨List.mem_cons_of_mem _ hi, fun hmem => hnot (List.mem_of_ne_of_mem (by simp) hmem)⟩,
        h.waker i w hw, h.lawful⟩ (fun s j hmem => by simpa using h.working s j hmem) ?_
    intro j w' hj
    by_cases hji : j = i
    · subst hji
      simp [record, setCallback] at hj
    · simpa [record, setCallback, hji] using hj

/-- A stream drops its head, or puts a host function there. -/
theorem working_setQueue (h : c.Settled) {queue queue' : List StreamOp} {op : StreamOp}
    (hq : (c.streams s).queue = op :: queue) (hqueue : ∀ j, .work j ∈ queue' → .work j ∈ queue) :
    ∀ s' j, .work j ∈ ((c.setQueue s queue').streams s').queue → .worked j ∉ c.log := by
  intro s' j hmem
  by_cases hs : s' = s
  · subst hs
    rw [setQueue_self] at hmem
    exact h.working s' j (hq ▸ List.mem_cons_of_mem _ (hqueue j hmem))
  · rw [setQueue_of_ne hs] at hmem
    exact h.working s' j hmem

theorem settled_device (h : c.Settled) (hsound : c.Sound) (hcarried : c.Carried) (s : ℕ) :
    (c.device s).Settled := by
  have hback : ∀ {queue}, (c.setQueue s queue).Calm → c.Calm := by
    intro queue
    exact Calm.of_futures rfl fun s' => (captured_setQueue queue s').trans
  unfold device
  split
  · rename_i i queue hf hq
    obtain ⟨f, hi, hcontext, hsubmitted, -⟩ :=
      hsound.tracked.mem_queue (hq ▸ List.mem_cons_self : .work i ∈ (c.streams s).queue)
    have hnot : .worked i ∉ c.log := h.working s i (hq ▸ List.mem_cons_self)
    refine h.log [.worked i] hback rfl rfl (by simp) ⟨⟨hsubmitted, hnot⟩, h.lawful⟩ ?_ fun _ _ => id
    intro s' j hmem hworked
    refine working_setQueue h hq (fun _ => id) s' j hmem (List.mem_of_ne_of_mem ?_ hworked)
    intro heq
    obtain rfl := Event.worked.inj heq
    by_cases hs : s' = s
    · -- The work of a future is in its stream only once.
      subst hs
      have hordered := hsound.tracked.ordered s'
      rw [hq] at hordered
      have hmem' : .work j ∈ queue := by
        simpa [record, setQueue, setStream] using hmem
      exact (List.pairwise_cons.mp hordered).1 _ hmem' j rfl rfl
    · have hmem' : .work j ∈ (c.streams s').queue := by
        simpa [record, setQueue, setStream, hs] using hmem
      obtain ⟨g, hj, hcontext', -⟩ := hsound.tracked.mem_queue hmem'
      obtain rfl := Option.some.inj (hi.symm.trans hj)
      exact hs (Option.some.inj (hcontext'.symm.trans hcontext))
  · rename_i hf hq
    exact h.log [] hback rfl rfl (fun _ he => absurd he List.not_mem_nil) h.lawful
      (working_setQueue h hq fun _ => id) fun _ _ => id
  · rename_i i queue hf hq
    refine h.log [] hback rfl rfl (fun _ he => absurd he List.not_mem_nil) h.lawful
      (working_setQueue h hq fun j hmem => List.mem_of_ne_of_mem (by simp) hmem) fun j w hj => ?_
    by_cases hji : j = i
    · subst hji
      simpa [complete, setCallback, setQueue, setStream] using hj
    · simpa [complete, setCallback, setQueue, setStream, hji] using hj
  · rename_i i queue hq
    obtain ⟨f, hi, hpos⟩ := carriers_pos hsound.tracked hq
    obtain ⟨harmed, hnot⟩ := h.underway hcarried hi hpos
    have hqueue : (c.setQueue s queue).Settled :=
      h.log [] hback rfl rfl (fun _ he => absurd he List.not_mem_nil) h.lawful
        (working_setQueue h hq fun _ => id) fun _ _ => id
    exact settled_handled hqueue harmed hnot
  · exact h

theorem settled_scan (h : c.Settled) (hsound : c.Sound) (hcarried : c.Carried) (hscan : Scans c c') :
    c'.Settled := by
  have hkeep : ∀ {c'' : Process T O}, c''.futures = c.futures → c''.log = c.log →
      c''.streams = c.streams → (∀ j, (c''.callbacks j).waker = (c.callbacks j).waker) → c''.Settled := by
    intro c'' hfutures hlog hstreams hwaker
    exact h.log [] (Calm.of_futures hfutures fun s => by rw [hstreams]; exact id) hfutures hlog
      (fun _ he => absurd he List.not_mem_nil) h.lawful (hstreams ▸ h.working)
      fun j w => by rw [hwaker]; exact id
  have hdeliver : ∀ r ∈ c.scanner.pass.woken ++ c.scanner.pass.dead,
      ((c.wake r.waker).record (.handled r.waker)).Settled := by
    intro r hr
    have hregistered : c.Registered r := by
      rcases List.mem_append.mp hr with hr | hr
      · exact (hsound.told.2.woken r hr).1
      · exact (hsound.told.2.dead r hr).1
    obtain ⟨⟨f, hi, -⟩, -⟩ := hregistered
    have hpos : 0 < c.carriers r.waker f.stream := by
      have hcount : 0 < c.letters.countP (·.waker == r.waker) :=
        List.countP_pos_iff.mpr ⟨r, List.mem_append_right _ hr, beq_self_eq_true _⟩
      unfold carriers
      omega
    obtain ⟨harmed, hnot⟩ := h.underway hcarried hi hpos
    exact settled_handled h harmed hnot
  cases hscan with
  | move | clear | take => exact hkeep rfl rfl rfl fun _ => rfl
  | signal pass r woken hs hwoken =>
    refine hkeep rfl rfl rfl fun j => ?_
    by_cases hj : j = r.waker
    · subst hj
      simp [complete, setCallback, setScanner]
    · simp [complete, setCallback, setScanner, hj]
  | wake pass r s' n hs hplain hwoken hdead _ =>
    have hhandled := hdeliver r (by rw [hs, Scanner.pass, hwoken]; exact List.mem_cons_self)
    exact hhandled.log [] id rfl rfl (fun _ he => absurd he List.not_mem_nil) hhandled.lawful
      hhandled.working fun _ _ => id
  | fault pass r s' hs hplain hwoken hdead _ =>
    have hhandled := hdeliver r
      (by rw [hs, Scanner.pass, hdead]; exact List.mem_append_right _ List.mem_cons_self)
    exact hhandled.log [] id rfl rfl (fun _ he => absurd he List.not_mem_nil) hhandled.lawful
      hhandled.working fun _ _ => id

theorem settled_create {g : DeviceFuture T O} (h : c.Settled) (hsound : c.Sound)
    (hplace : g.place = .rest) (hstate : g.state ≠ .complete) : (c.create g).Settled := by
  have hnew : ∀ e ∈ c.log, e.future ≠ c.futures.length := fun e he => (hsound.tracked.known e he).ne
  refine ⟨h.lawful.mono fun hc f hf => hc f (List.mem_append_left _ hf), ?_, ?_, h.working, h.waker, ?_⟩
  · intro j f hj
    rcases futures_create hj with hj | ⟨rfl, rfl⟩
    · exact h.ready j f hj
    · refine iff_of_false ?_ hstate
      rintro ⟨result, hmem⟩
      exact hnew _ hmem rfl
  · intro j f owners hj hmem
    rcases futures_create hj with hj | ⟨rfl, rfl⟩
    · exact h.released j f owners hj hmem
    · exact absurd rfl (hnew _ hmem)
  · intro j f hj hs
    rcases futures_create hj with hj | ⟨rfl, rfl⟩
    · exact h.task j f hj hs
    · rw [hplace] at hs
      cases hs

theorem settled_setStream {stream : Stream} (h : c.Settled)
    (hqueue : stream.queue = (c.streams s).queue)
    (hcaptured : (c.streams s).captured = true → stream.captured = true) :
    (c.setStream s stream).Settled := by
  have hback : (c.setStream s stream).Calm → c.Calm := by
    refine Calm.of_futures rfl fun s' hs' => ?_
    by_cases hs : s' = s
    · subst hs
      simpa [setStream] using hcaptured hs'
    · simpa [setStream, hs] using hs'
  refine h.log [] hback rfl rfl (fun _ he => absurd he List.not_mem_nil) h.lawful
    (fun s' j hmem => ?_) fun _ _ => id
  refine h.working s' j ?_
  by_cases hs : s' = s
  · subst hs
    simpa [setStream, hqueue] using hmem
  · simpa [setStream, hs] using hmem

theorem settled_step (h : c.Settled) (hsound : c.Sound) (hcarried : c.Carried) (x : Input T O) :
    (c.step x).Settled := by
  unfold step
  split
  · exact h
  · cases x with
    | new | scheduled | failed =>
      refine settled_create h hsound rfl ?_
      simp [DeviceFuture.new, DeviceFuture.scheduled, DeviceFuture.failed]
    | poll i w locked =>
      cases hi : c.futures[i]? with
      | none => simpa only [Process.poll, hi] using h
      | some f => exact settled_calls h hsound hi (calls_poll hi w locked)
    | drop i =>
      cases hi : c.futures[i]? with
      | none => simpa only [Process.drop, hi] using h
      | some f => exact settled_calls h hsound hi (calls_drop hi)
    | tick i a =>
      cases hi : c.futures[i]? with
      | none => simpa only [Process.tick, hi] using h
      | some f => exact settled_ticks h hsound hi (ticks hi)
    | device s => exact settled_device h hsound hcarried s
    | fault s code => exact settled_setStream h rfl id
    | capture s capturing => exact settled_setStream h rfl fun hs => Bool.or_eq_true_iff.mpr (.inl hs)
    | scan clock => exact settled_scan h hsound hcarried (scans clock)

theorem settled_init (numSlots : ℕ) : (init numSlots : Process T O).Settled := by
  refine ⟨trivial, ?_, ?_, ?_, ?_, ?_⟩ <;> simp [init]

theorem settled_run (h : c.Settled) (hsound : c.Sound) (hcarried : c.Carried)
    (inputs : List (Input T O)) : (c.run inputs).Settled := by
  induction inputs generalizing c with
  | nil => exact h
  | cons x inputs ih =>
    exact ih (settled_step h hsound hcarried x) (sound_step hsound x) (carried_step hcarried hsound x)

end Process
end Gudra.Reactor
