import Gudra.Accesses

/-! What a future keeps while its work is on a stream. -/
namespace Gudra.Reactor

variable {T O : Type}

/-- The part of its life that a future is in. -/
inductive Stage where
  | rest
  | opening
  | draining
  | launched
  | armed
  | polling
  | dropping
  | dropped
deriving DecidableEq

def Place.stage : Place O → Stage
  | .rest => .rest
  | .register | .execute => .opening
  | .drain .. => .draining
  | .spin | .claim | .reset _ | .write _ | .release _ | .payload _ | .count _ | .arm .. | .host =>
    .launched
  | .unpark => .armed
  | .check | .probe | .query | .reregister | .recheck => .polling
  | .bind | .dropQuery | .sync => .dropping
  | .dropped => .dropped

def Event.future : Event T O → ℕ
  | .polled i _ | .submitted i | .worked i | .armed i | .handled i | .woken i _ | .pending i
  | .ready i _ | .released i _ | .panicked i => i

def StreamOp.owner : StreamOp → ℕ
  | .work i | .write _ i | .signal i | .wake i => i

/-- The event says that the work of `i` was submitted, or its callback handed over. -/
def Event.marks (i : ℕ) : Event T O → Bool
  | .submitted j | .armed j => i == j
  | _ => false

/-- The operation is a host function that signals. -/
def StreamOp.signals : StreamOp → Bool
  | .signal _ | .wake _ => true
  | _ => false

namespace DeviceFuture

variable {f f' : DeviceFuture T O} {log es : List (Event T O)} {i j : ℕ}

theorem context_stream (h : f.executionContext.isSome) : f.executionContext = some f.stream := by
  obtain ⟨s, hs⟩ := Option.isSome_iff_exists.mp h
  rw [stream, hs, Option.getD_some]

theorem stream_of_context {s : ℕ} (h : f.executionContext = some s) : f.stream = s := by
  rw [stream, h, Option.getD_some]

structure Unstarted (f : DeviceFuture T O) (log : List (Event T O)) (i : ℕ) : Prop where
  pending : f.completionPending = false
  result : f.result = none
  quarantined : f.quarantined = none
  submitted : .submitted i ∉ log
  armed : .armed i ∉ log

structure InFlight (f : DeviceFuture T O) (log : List (Event T O)) (i : ℕ) : Prop where
  pending : f.completionPending = true
  result : f.result.isSome
  quarantined : f.quarantined.isSome
  context : f.executionContext.isSome
  submitted : .submitted i ∈ log

structure Ended (f : DeviceFuture T O) : Prop where
  pending : f.completionPending = false
  result : f.result = none
  quarantined : f.quarantined = none

structure Draining (f : DeviceFuture T O) (log : List (Event T O)) (i : ℕ) : Prop where
  pending : f.completionPending = true
  result : f.result = none
  quarantined : f.quarantined = none
  context : f.executionContext.isSome
  armed : .armed i ∉ log

def Good (f : DeviceFuture T O) (log : List (Event T O)) (i : ℕ) : Prop :=
  match f.place.stage, f.state with
  | .rest, .idle => f.Unstarted log i
  | .rest, .failed => f.Unstarted log i ∧ f.error.isSome
  | .rest, .executing => f.InFlight log i ∧ .armed i ∈ log
  | .rest, .complete => f.InFlight log i ∨ f.Ended
  | .opening, s => s = .idle ∧ f.Unstarted log i
  | .draining, s => s = .idle ∧ f.Draining log i
  | .launched, s => s = .idle ∧ f.InFlight log i ∧ .armed i ∉ log
  | .armed, s => s = .idle ∧ f.InFlight log i ∧ .armed i ∈ log
  | .polling, s => s = .executing ∧ f.InFlight log i ∧ .armed i ∈ log
  | .dropping, _ => f.InFlight log i
  | .dropped, _ => f.Ended

theorem mem_append_of_unmarked {e : Event T O} (he : e.marks j = true)
    (hes : ∀ e ∈ es, e.marks j = false) : e ∈ es ++ log ↔ e ∈ log := by
  rw [List.mem_append]
  refine or_iff_right fun hmem => ?_
  rw [hes e hmem] at he
  cases he

theorem InFlight.append (h : f.InFlight log i) (es : List (Event T O)) :
    f.InFlight (es ++ log) i :=
  ⟨h.pending, h.result, h.quarantined, h.context, List.mem_append_right es h.submitted⟩

theorem Unstarted.append (h : f.Unstarted log i) (hes : ∀ e ∈ es, e.marks i = false) :
    f.Unstarted (es ++ log) i where
  pending := h.pending
  result := h.result
  quarantined := h.quarantined
  submitted := by
    rw [mem_append_of_unmarked (j := i) (by simp [Event.marks]) hes]
    exact h.submitted
  armed := by
    rw [mem_append_of_unmarked (j := i) (by simp [Event.marks]) hes]
    exact h.armed

section Stages

variable (h : f.Good log i)

include h

theorem Good.opening (hs : f.place.stage = .opening) : f.state = .idle ∧ f.Unstarted log i := by
  simpa only [Good, hs] using h

theorem Good.draining (hs : f.place.stage = .draining) : f.state = .idle ∧ f.Draining log i := by
  simpa only [Good, hs] using h

theorem Good.launched (hs : f.place.stage = .launched) :
    f.state = .idle ∧ f.InFlight log i ∧ .armed i ∉ log := by
  simpa only [Good, hs] using h

theorem Good.armed (hs : f.place.stage = .armed) :
    f.state = .idle ∧ f.InFlight log i ∧ .armed i ∈ log := by
  simpa only [Good, hs] using h

theorem Good.polling (hs : f.place.stage = .polling) :
    f.state = .executing ∧ f.InFlight log i ∧ .armed i ∈ log := by
  simpa only [Good, hs] using h

theorem Good.dropping (hs : f.place.stage = .dropping) : f.InFlight log i := by
  simpa only [Good, hs] using h

theorem Good.rest_idle (hs : f.place = .rest) (hstate : f.state = .idle) : f.Unstarted log i := by
  simpa only [Good, hs, hstate, Place.stage] using h

theorem Good.rest_failed (hs : f.place = .rest) (hstate : f.state = .failed) :
    f.Unstarted log i ∧ f.error.isSome := by
  simpa only [Good, hs, hstate, Place.stage] using h

theorem Good.rest_executing (hs : f.place = .rest) (hstate : f.state = .executing) :
    f.InFlight log i ∧ .armed i ∈ log := by
  simpa only [Good, hs, hstate, Place.stage] using h

theorem Good.rest_complete (hs : f.place = .rest) (hstate : f.state = .complete) :
    f.InFlight log i ∨ f.Ended := by
  simpa only [Good, hs, hstate, Place.stage] using h

/-- At rest a future waits for completion, or keeps nothing. -/
theorem Good.rest (hs : f.place = .rest) : f.InFlight log i ∨ f.Ended := by
  cases hstate : f.state with
  | idle =>
    have hun := h.rest_idle hs hstate
    exact .inr ⟨hun.pending, hun.result, hun.quarantined⟩
  | failed =>
    have hun := (h.rest_failed hs hstate).1
    exact .inr ⟨hun.pending, hun.result, hun.quarantined⟩
  | executing => exact .inl (h.rest_executing hs hstate).1
  | complete => exact h.rest_complete hs hstate

end Stages

/-- Events of other futures do not matter. -/
theorem Good.append (h : f.Good log i) (hes : ∀ e ∈ es, e.marks i = false) :
    f.Good (es ++ log) i := by
  have harmed : (.armed i : Event T O) ∈ es ++ log ↔ .armed i ∈ log :=
    mem_append_of_unmarked (j := i) (by simp [Event.marks]) hes
  unfold Good at h ⊢
  cases hstage : f.place.stage with
  | rest =>
    cases hstate : f.state with
    | idle =>
      simp only [hstage, hstate] at h ⊢
      exact h.append hes
    | failed =>
      simp only [hstage, hstate] at h ⊢
      exact ⟨h.1.append hes, h.2⟩
    | executing =>
      simp only [hstage, hstate] at h ⊢
      exact ⟨h.1.append es, harmed.mpr h.2⟩
    | complete =>
      simp only [hstage, hstate] at h ⊢
      exact h.imp_left fun h => h.append es
  | opening =>
    simp only [hstage] at h ⊢
    exact ⟨h.1, h.2.append hes⟩
  | draining =>
    simp only [hstage] at h ⊢
    exact ⟨h.1, h.2.pending, h.2.result, h.2.quarantined, h.2.context,
      fun hmem => h.2.armed (harmed.mp hmem)⟩
  | launched =>
    simp only [hstage] at h ⊢
    exact ⟨h.1, h.2.1.append es, fun hmem => h.2.2 (harmed.mp hmem)⟩
  | armed | polling =>
    simp only [hstage] at h ⊢
    exact ⟨h.1, h.2.1.append es, harmed.mpr h.2.2⟩
  | dropping =>
    simp only [hstage] at h ⊢
    exact h.append es
  | dropped =>
    simp only [hstage] at h ⊢
    exact h

end DeviceFuture

namespace Process

variable {c c' : Process T O} {f f' : DeviceFuture T O} {es : List (Event T O)} {i j s : ℕ}

/-- No stream that a future is scheduled on has ever been captured. -/
def Calm (c : Process T O) : Prop :=
  ∀ f ∈ c.futures, ∀ s, f.executionContext = some s → (c.streams s).captured = false

structure Tracked (c : Process T O) : Prop where
  future : ∀ (i : ℕ) (f : DeviceFuture T O), c.futures[i]? = some f → f.Good c.log i
  /-- What a stream executes or has recorded was submitted by a future on it. -/
  queued : ∀ s, ∀ op ∈ (c.streams s).ops, ∃ f, c.futures[op.owner]? = some f ∧
    f.executionContext = some s ∧ .submitted op.owner ∈ c.log ∧
    (op.signals = true → .armed op.owner ∈ c.log)
  working : ∀ (i : ℕ) (f : DeviceFuture T O), c.futures[i]? = some f → .submitted i ∈ c.log →
    .work i ∈ (c.streams f.stream).ops ∨ .worked i ∈ c.log
  /-- The work of a future comes before all else that it submits. -/
  ordered : ∀ s, (c.streams s).queue.Pairwise fun a b => ∀ i, b = .work i → a.owner ≠ i
  known : ∀ e ∈ c.log, e.future < c.futures.length

theorem Tracked.mem_queue (h : c.Tracked) {op : StreamOp} (hop : op ∈ (c.streams s).queue) :
    ∃ f, c.futures[op.owner]? = some f ∧ f.executionContext = some s ∧
      .submitted op.owner ∈ c.log ∧ (op.signals = true → .armed op.owner ∈ c.log) :=
  h.queued s op (List.mem_append_left _ hop)

/-- A stream with operations of futures was not captured. -/
theorem Tracked.uncaptured (h : c.Tracked) (hcalm : c.Calm) {op : StreamOp}
    (hop : op ∈ (c.streams s).queue) : (c.streams s).captured = false := by
  obtain ⟨f, hi, hcontext, -⟩ := h.mem_queue hop
  exact hcalm f (List.mem_of_getElem? hi) s hcontext

/-- What is behind the head of a stream waits for the head's owner's work no more. -/
theorem Tracked.worked_of_head (h : c.Tracked) (hcalm : c.Calm) {op : StreamOp}
    {queue : List StreamOp} (hq : (c.streams s).queue = op :: queue) (hop : ∀ i, op ≠ .work i) :
    .worked op.owner ∈ c.log := by
  have hhead : op ∈ (c.streams s).queue := hq ▸ List.mem_cons_self
  have hcaptured := h.uncaptured hcalm hhead
  obtain ⟨f, hi, hcontext, hsubmitted, -⟩ := h.mem_queue hhead
  refine (h.working _ f hi hsubmitted).resolve_left fun hmem => ?_
  have hordered := h.ordered s
  rw [f.stream_of_context hcontext, Stream.ops_of_captured _ hcaptured] at hmem
  rw [hq] at hmem hordered
  rcases List.mem_cons.mp hmem with heq | hmem
  · exact hop _ heq.symm
  · exact (List.pairwise_cons.mp hordered).1 _ hmem _ rfl rfl

/-- A queue that is empty has done all work of its futures. -/
theorem Tracked.worked_of_not_mem (h : c.Tracked) (hcalm : c.Calm) (hi : c.futures[i]? = some f)
    (hcontext : f.executionContext.isSome) (hsubmitted : .submitted i ∈ c.log)
    (hmem : .work i ∉ (c.streams f.stream).queue) : .worked i ∈ c.log := by
  have hcaptured := hcalm f (List.mem_of_getElem? hi) _ (f.context_stream hcontext)
  refine (h.working i f hi hsubmitted).resolve_left ?_
  rw [Stream.ops_of_captured _ hcaptured]
  exact hmem

theorem getElem?_set_cases (hi : c.futures[i]? = some f) {g : DeviceFuture T O}
    (hj : (c.futures.set i f')[j]? = some g) :
    j = i ∧ g = f' ∨ j ≠ i ∧ c.futures[j]? = some g := by
  by_cases hij : i = j
  · subst hij
    obtain ⟨hlt, -⟩ := List.getElem?_eq_some_iff.mp hi
    rw [List.getElem?_set_self hlt] at hj
    exact .inl ⟨rfl, (Option.some.inj hj).symm⟩
  · rw [List.getElem?_set_ne hij] at hj
    exact .inr ⟨Ne.symm hij, hj⟩

theorem exists_set (hi : c.futures[i]? = some f) (hcontext : f'.executionContext = f.executionContext)
    {g : DeviceFuture T O} (hj : c.futures[j]? = some g) :
    ∃ g', (c.futures.set i f')[j]? = some g' ∧ g'.executionContext = g.executionContext := by
  by_cases hij : i = j
  · subst hij
    obtain ⟨hlt, -⟩ := List.getElem?_eq_some_iff.mp hi
    obtain rfl := Option.some.inj (hi.symm.trans hj)
    exact ⟨f', List.getElem?_set_self hlt, hcontext⟩
  · exact ⟨g, (List.getElem?_set_ne hij).trans hj, rfl⟩

/-- A run that is calm was calm before: futures keep their streams, and a capture is not undone. -/
theorem Calm.of_futures (hfutures : c'.futures = c.futures)
    (hcaptured : ∀ s, (c.streams s).captured = true → (c'.streams s).captured = true)
    (h : c'.Calm) : c.Calm := by
  intro g hg s hs
  refine Bool.eq_false_iff.mpr fun htrue => ?_
  have hfalse := h g (hfutures ▸ hg) s hs
  rw [hcaptured s htrue] at hfalse
  cases hfalse

theorem Calm.of_set (hi : c.futures[i]? = some f) (hfutures : c'.futures = c.futures.set i f')
    (hcontext : f'.executionContext = f.executionContext)
    (hcaptured : ∀ s, (c.streams s).captured = true → (c'.streams s).captured = true)
    (h : c'.Calm) : c.Calm := by
  intro g hg s hs
  obtain ⟨j, hj⟩ := List.mem_iff_getElem?.mp hg
  obtain ⟨g', hj', hcontext'⟩ := exists_set hi hcontext hj
  refine Bool.eq_false_iff.mpr fun htrue => ?_
  have hfalse := h g' (List.mem_of_getElem? (hfutures ▸ hj')) s (hcontext'.trans hs)
  rw [hcaptured s htrue] at hfalse
  cases hfalse

/-- One future changes; its events are its own. -/
theorem Tracked.set (h : c.Tracked) (es : List (Event T O)) (hi : c.futures[i]? = some f)
    (hfutures : c'.futures = c.futures.set i f') (hstreams : c'.streams = c.streams)
    (hlog : c'.log = es ++ c.log) (hes : ∀ e ∈ es, e.future = i ∧ e ≠ .submitted i)
    (hcontext : f'.executionContext = f.executionContext) (hgood : f'.Good c'.log i) :
    c'.Tracked := by
  obtain ⟨hlt, -⟩ := List.getElem?_eq_some_iff.mp hi
  have hmem : ∀ {e}, e ∈ c.log → e ∈ c'.log := fun he => hlog ▸ List.mem_append_right es he
  have hunmarked : ∀ j, j ≠ i → ∀ e ∈ es, e.marks j = false := by
    intro j hj e he
    obtain ⟨hfuture, -⟩ := hes e he
    cases e <;> simp_all [Event.marks, Event.future]
  refine ⟨?_, ?_, ?_, ?_, ?_⟩
  · intro j g hj
    rw [hfutures] at hj
    rcases getElem?_set_cases hi hj with ⟨rfl, rfl⟩ | ⟨hne, hj⟩
    · exact hgood
    · exact hlog ▸ (h.future j g hj).append (hunmarked j hne)
  · intro s op hop
    rw [hstreams] at hop
    obtain ⟨g, hj, hs, hsubmitted, hsignals⟩ := h.queued s op hop
    obtain ⟨g', hj', hs'⟩ := exists_set hi hcontext hj
    exact ⟨g', hfutures ▸ hj', hs'.trans hs, hmem hsubmitted, fun hop => hmem (hsignals hop)⟩
  · intro j g hj hsubmitted
    rw [hlog, List.mem_append] at hsubmitted
    have hold : .submitted j ∈ c.log := by
      refine hsubmitted.resolve_left fun he => ?_
      obtain ⟨rfl, hne⟩ := hes _ he
      exact hne rfl
    rw [hfutures] at hj
    rw [hstreams]
    rcases getElem?_set_cases hi hj with ⟨rfl, rfl⟩ | ⟨hne, hj⟩
    · have hstream : g.stream = f.stream := congrArg (Option.getD · 0) hcontext
      rw [hstream]
      exact (h.working j f hi hold).imp_right hmem
    · exact (h.working j g hj hold).imp_right hmem
  · rw [hstreams]
    exact h.ordered
  · intro e he
    rw [hfutures, List.length_set]
    rw [hlog, List.mem_append] at he
    rcases he with he | he
    · exact (hes e he).1 ▸ hlt
    · exact h.known e he

/-- One future submits an operation and changes. -/
theorem Tracked.submit {op : StreamOp} (h : c.Tracked) (es : List (Event T O)) (hi : c.futures[i]? = some f)
    (hfutures : c'.futures = c.futures.set i f')
    (hstreams : c'.streams = (c.submit f.stream op).streams) (hlog : c'.log = es ++ c.log)
    (hes : ∀ e ∈ es, e.future = i) (hcontext : f'.executionContext = f.executionContext)
    (hsome : f.executionContext.isSome) (howner : op.owner = i) (hsubmitted : .submitted i ∈ c'.log)
    (hsignals : op.signals = true → .armed i ∈ c'.log)
    (hwork : ∀ j, op = .work j → .submitted i ∉ c.log)
    (hother : .submitted i ∈ es → op = .work i) (hgood : f'.Good c'.log i) : c'.Tracked := by
  obtain ⟨hlt, -⟩ := List.getElem?_eq_some_iff.mp hi
  have hmem : ∀ {e}, e ∈ c.log → e ∈ c'.log := fun he => hlog ▸ List.mem_append_right es he
  have hunmarked : ∀ j, j ≠ i → ∀ e ∈ es, e.marks j = false := by
    intro j hj e he
    have hfuture := hes e he
    cases e <;> simp_all [Event.marks, Event.future]
  have hself : c'.streams f.stream = (c.streams f.stream).submit op := by rw [hstreams, submit_self]
  have hne : ∀ s, s ≠ f.stream → c'.streams s = c.streams s := by
    intro s hs
    rw [hstreams, submit_of_ne op hs]
  have hkeep : ∀ s op', op' ∈ (c.streams s).ops → op' ∈ (c'.streams s).ops := by
    intro s op' hop'
    by_cases hs : s = f.stream
    · subst hs
      rw [hself]
      exact (Stream.ops_submit _ op).mem_iff.mpr (List.mem_cons_of_mem _ hop')
    · rw [hne s hs]
      exact hop'
  refine ⟨?_, ?_, ?_, ?_, ?_⟩
  · intro j g hj
    rw [hfutures] at hj
    rcases getElem?_set_cases hi hj with ⟨rfl, rfl⟩ | ⟨hji, hj⟩
    · exact hgood
    · exact hlog ▸ (h.future j g hj).append (hunmarked j hji)
  · intro s op' hop'
    have hcases : op' ∈ (c.streams s).ops ∨ op' = op ∧ s = f.stream := by
      by_cases hs : s = f.stream
      · subst hs
        rw [hself, (Stream.ops_submit _ op).mem_iff, List.mem_cons] at hop'
        exact hop'.symm.imp_right fun heq => ⟨heq, rfl⟩
      · rw [hne s hs] at hop'
        exact .inl hop'
    rcases hcases with hop' | ⟨rfl, rfl⟩
    · obtain ⟨g, hj, hs, hsub, hsig⟩ := h.queued s op' hop'
      obtain ⟨g', hj', hs'⟩ := exists_set hi hcontext hj
      exact ⟨g', hfutures ▸ hj', hs'.trans hs, hmem hsub, fun hop => hmem (hsig hop)⟩
    · subst howner
      refine ⟨f', ?_, hcontext.trans (f.context_stream hsome), hsubmitted, hsignals⟩
      rw [hfutures, List.getElem?_set_self hlt]
  · intro j g hj hsub
    rw [hfutures] at hj
    rcases getElem?_set_cases hi hj with ⟨rfl, rfl⟩ | ⟨hji, hj⟩
    · have hstream : g.stream = f.stream := congrArg (Option.getD · 0) hcontext
      rw [hstream]
      rw [hlog, List.mem_append] at hsub
      rcases hsub with hsub | hsub
      · left
        rw [hself, hother hsub]
        exact (Stream.ops_submit _ _).mem_iff.mpr List.mem_cons_self
      · exact (h.working j f hi hsub).imp (hkeep _ _) hmem
    · rw [hlog, List.mem_append] at hsub
      refine (h.working j g hj (hsub.resolve_left fun he => hji (hes _ he))).imp (hkeep _ _) hmem
  · intro s
    by_cases hs : s = f.stream
    · subst hs
      rw [hself]
      rcases Stream.queue_submit (c.streams f.stream) op with ⟨heq, -⟩ | heq <;> rw [heq]
      · exact h.ordered _
      · rw [List.pairwise_append]
        refine ⟨h.ordered _, List.pairwise_singleton _ _, fun a ha b hb j hbj => ?_⟩
        obtain rfl := List.mem_singleton.mp hb
        obtain ⟨-, -, -, hsub, -⟩ := h.mem_queue ha
        rintro rfl
        have hai : a.owner = i := by rw [← howner, hbj]; rfl
        exact hwork _ hbj (hai ▸ hsub)
    · rw [hne s hs]
      exact h.ordered s
  · intro e he
    rw [hfutures, List.length_set]
    rw [hlog, List.mem_append] at he
    rcases he with he | he
    · exact hes e he ▸ hlt
    · exact h.known e he

/-- The futures and streams stay, and the log grows by what does not mark them. -/
theorem Tracked.log (h : c.Tracked) (es : List (Event T O)) (hfutures : c'.futures = c.futures)
    (hstreams : c'.streams = c.streams) (hlog : c'.log = es ++ c.log)
    (hes : ∀ e ∈ es, e.future < c.futures.length ∧ ∀ j, e.marks j = false) : c'.Tracked := by
  have hmem : ∀ {e}, e ∈ c.log → e ∈ c'.log := fun he => hlog ▸ List.mem_append_right es he
  refine ⟨?_, ?_, ?_, ?_, ?_⟩
  · intro j g hj
    exact hlog ▸ (h.future j g (hfutures ▸ hj)).append fun e he => (hes e he).2 j
  · intro s op hop
    obtain ⟨g, hj, hs, hsubmitted, hsignals⟩ := h.queued s op (hstreams ▸ hop)
    exact ⟨g, hfutures ▸ hj, hs, hmem hsubmitted, fun hop => hmem (hsignals hop)⟩
  · intro j g hj hsubmitted
    rw [hlog, DeviceFuture.mem_append_of_unmarked (j := j) (by simp [Event.marks])
      fun e he => (hes e he).2 j] at hsubmitted
    rw [hstreams]
    exact (h.working j g (hfutures ▸ hj) hsubmitted).imp_right hmem
  · rw [hstreams]
    exact h.ordered
  · intro e he
    rw [hfutures]
    rw [hlog, List.mem_append] at he
    exact he.elim (fun he => (hes e he).1) (h.known e)

theorem tracked_congr (h : c.Tracked) (hfutures : c'.futures = c.futures)
    (hstreams : c'.streams = c.streams) (hlog : c'.log = c.log) : c'.Tracked :=
  h.log [] hfutures hstreams hlog fun _ he => absurd he List.not_mem_nil

section Ticks

/-- An access that neither submits nor records. -/
theorem tracked_quiet (h : c.Tracked) (hi : c.futures[i]? = some f)
    (hfutures : c'.futures = c.futures.set i f') (hstreams : c'.streams = c.streams)
    (hlog : c'.log = c.log) (hcontext : f'.executionContext = f.executionContext)
    (hgood : f'.Good c.log i) : c'.Tracked :=
  h.set [] hi hfutures hstreams hlog (fun _ he => absurd he List.not_mem_nil) hcontext
    (hlog ▸ hgood)

/-- A future that moves on in one part of its life. -/
theorem good_move {log : List (Event T O)} {p : Place O} (hgood : f.Good log i)
    (hstage : f.place.stage = .launched ∨ f.place.stage = .polling)
    (hp : p.stage = f.place.stage) : DeviceFuture.Good { f with place := p } log i := by
  rcases hstage with hs | hs
  · obtain ⟨hstate, hf, harmed⟩ := hgood.launched hs
    simp only [DeviceFuture.Good, hp, hs]
    exact ⟨hstate, ⟨hf.pending, hf.result, hf.quarantined, hf.context, hf.submitted⟩, harmed⟩
  · obtain ⟨hstate, hf, harmed⟩ := hgood.polling hs
    simp only [DeviceFuture.Good, hp, hs]
    exact ⟨hstate, ⟨hf.pending, hf.result, hf.quarantined, hf.context, hf.submitted⟩, harmed⟩

theorem tracked_move {p : Place O} (h : c.Tracked) (hi : c.futures[i]? = some f)
    (hfutures : c'.futures = c.futures.set i { f with place := p })
    (hstreams : c'.streams = c.streams) (hlog : c'.log = c.log)
    (hstage : f.place.stage = .launched ∨ f.place.stage = .polling)
    (hp : p.stage = f.place.stage) : c'.Tracked :=
  tracked_quiet h hi hfutures hstreams hlog rfl (good_move (h.future i f hi) hstage hp)

/-- The operation leaves its work on the stream, with or without its result. -/
theorem tracked_execute (h : c.Tracked) (hi : c.futures[i]? = some f)
    (hplace : f.place = .execute) (hs : f.executionContext.isSome)
    (hcontext : f'.executionContext = f.executionContext)
    (hgood : .armed i ∉ (.submitted i :: c.log : List (Event T O)) →
      f'.Good (.submitted i :: c.log) i) :
    (((c.submit f.stream (.work i)).record (.submitted i)).setFuture i f').Tracked := by
  obtain ⟨-, hun⟩ := (h.future i f hi).opening (by rw [hplace]; rfl)
  have harmed : .armed i ∉ (.submitted i :: c.log : List (Event T O)) :=
    fun hmem => hun.armed (List.mem_of_ne_of_mem (by simp) hmem)
  exact h.submit [.submitted i] hi rfl rfl rfl (by simp [Event.future]) hcontext hs rfl
    List.mem_cons_self (fun hop => absurd hop Bool.false_ne_true) (fun _ _ => hun.submitted)
    (fun _ => rfl) (hgood harmed)

theorem tracked_fail (h : c.Tracked) (hi : c.futures[i]? = some f) (e : DeviceError)
    (hf : f.InFlight c.log i) : (c.fail i f e).Tracked := by
  refine h.set [.ready i (.error e)] hi rfl rfl rfl (by simp [Event.future]) rfl (.inl ?_)
  exact ⟨hf.pending, hf.result, hf.quarantined, hf.context, List.mem_cons_of_mem _ hf.submitted⟩

theorem tracked_deliver (h : c.Tracked) (hi : c.futures[i]? = some f) (hf : f.InFlight c.log i) :
    ((c.release i f).deliver i f).Tracked := by
  obtain ⟨v, hv⟩ := Option.isSome_iff_exists.mp hf.result
  obtain ⟨owners, howners⟩ := Option.isSome_iff_exists.mp hf.quarantined
  have heq : (c.release i f).deliver i f = ((c.record (.released i owners)).setFuture i
      { f with
        result := none
        state := .complete
        completionPending := false
        quarantined := none
        place := .rest }).record (.ready i (.ok v)) := by
    simp only [release, howners, deliver, hv]
  rw [heq]
  refine h.set [.ready i (.ok v), .released i owners] hi rfl rfl rfl ?_ rfl
    (.inr ⟨rfl, rfl, rfl⟩)
  simp [Event.future]

/-- The flag write of a registration. -/
theorem tracked_write (h : c.Tracked) (hi : c.futures[i]? = some f) {slot : ℕ}
    (hplace : f.place = .write slot) :
    ((c.submit f.stream (.write slot i)).setFuture i { f with place := .payload slot }).Tracked := by
  have hstage : f.place.stage = .launched := by rw [hplace]; rfl
  obtain ⟨-, hf, -⟩ := (h.future i f hi).launched hstage
  have hnew : DeviceFuture.Good { f with place := .payload slot } c.log i :=
    good_move (h.future i f hi) (.inl hstage) hstage.symm
  refine h.submit [] hi rfl rfl rfl (fun _ he => absurd he List.not_mem_nil) rfl hf.context rfl
    hf.submitted (fun hop => absurd hop Bool.false_ne_true) ?_
    (fun he => absurd he List.not_mem_nil) hnew
  rintro j ⟨⟩

/-- The host function of a future without a slot. -/
theorem tracked_host (h : c.Tracked) (hi : c.futures[i]? = some f) (hplace : f.place = .host) :
    (((c.submit f.stream (.signal i)).record (.armed i)).suspend i f).Tracked := by
  obtain ⟨-, hf, -⟩ := (h.future i f hi).launched (by rw [hplace]; rfl)
  have hsubmitted : .submitted i ∈ (.pending i :: .armed i :: c.log : List (Event T O)) :=
    List.mem_append_right [_, _] hf.submitted
  have harmed : .armed i ∈ (.pending i :: .armed i :: c.log : List (Event T O)) := by simp
  refine h.submit [.pending i, .armed i] hi rfl rfl rfl (by simp [Event.future]) rfl hf.context rfl
    hsubmitted (fun _ => harmed) ?_ (by simp)
    ⟨⟨hf.pending, hf.result, hf.quarantined, hf.context, hsubmitted⟩, harmed⟩
  rintro j ⟨⟩

/-- A future that is in flight returns `Pending` once its callback is handed over. -/
theorem tracked_suspend (h : c.Tracked) (hi : c.futures[i]? = some f) (es : List (Event T O))
    (hes : ∀ e ∈ es, e = .armed i) (hfutures : c'.futures = c.futures)
    (hstreams : c'.streams = c.streams) (hlog : c'.log = es ++ c.log)
    (hf : f.InFlight c.log i) (harmed : .armed i ∈ c'.log) : (c'.suspend i f).Tracked := by
  have hsubmitted : .submitted i ∈ c'.log := hlog ▸ List.mem_append_right es hf.submitted
  have hsuspended : (c'.suspend i f).log = (.pending i :: es) ++ c.log := by
    rw [List.cons_append, ← hlog]
    rfl
  refine h.set (.pending i :: es) hi (congrArg (List.set · i _) hfutures) hstreams hsuspended ?_ rfl
    ⟨⟨hf.pending, hf.result, hf.quarantined, hf.context, List.mem_cons_of_mem _ hsubmitted⟩,
      List.mem_cons_of_mem _ harmed⟩
  intro e he
  rcases List.mem_cons.mp he with rfl | he
  · simp [Event.future]
  · rw [hes e he]
    simp [Event.future]

/-- A dropped future lets go of what its work used. -/
theorem tracked_free (h : c.Tracked) (hi : c.futures[i]? = some f) (hf : f.InFlight c.log i) :
    (c.free i f).Tracked := by
  obtain ⟨owners, howners⟩ := Option.isSome_iff_exists.mp hf.quarantined
  simp only [free, release, howners]
  exact h.set [.released i owners] hi rfl rfl rfl (by simp [Event.future]) rfl
    (show DeviceFuture.Ended _ from ⟨rfl, rfl, rfl⟩)

theorem tracked_ticks (h : c.Tracked) (hi : c.futures[i]? = some f) (ht : Ticks c i f c') :
    c'.Tracked := by
  have hgood := h.future i f hi
  have hlaunched : ∀ {p : Place O}, f.place = p → p.stage = .launched →
      f.place.stage = .launched ∧ f.InFlight c.log i := by
    rintro p rfl hs
    exact ⟨hs, (hgood.launched hs).2.1⟩
  have hpolling : ∀ {p : Place O}, f.place = p → p.stage = .polling →
      f.place.stage = .polling ∧ f.InFlight c.log i := by
    rintro p rfl hs
    exact ⟨hs, (hgood.polling hs).2.1⟩
  cases ht with
  | wait => exact h
  | abort => exact tracked_congr h rfl rfl rfl
  | register hplace =>
    obtain ⟨hstate, hun⟩ := hgood.opening (by rw [hplace]; rfl)
    refine tracked_quiet h hi rfl rfl rfl rfl ?_
    exact ⟨hstate, hun.pending, hun.result, hun.quarantined, hun.submitted, hun.armed⟩
  | reject e hplace =>
    obtain ⟨-, hun⟩ := hgood.opening (by rw [hplace]; rfl)
    exact h.set [.ready i (.error e)] hi rfl rfl rfl (by simp [Event.future]) rfl
      (.inr ⟨hun.pending, hun.result, hun.quarantined⟩)
  | execute v owners hplace hs =>
    obtain ⟨hstate, hun⟩ := hgood.opening (by rw [hplace]; rfl)
    exact tracked_execute h hi hplace hs rfl fun harmed =>
      ⟨hstate, ⟨rfl, rfl, rfl, hs, List.mem_cons_self⟩, harmed⟩
  | executeSome e owners hplace hs =>
    obtain ⟨hstate, hun⟩ := hgood.opening (by rw [hplace]; rfl)
    exact tracked_execute h hi hplace hs rfl fun harmed =>
      ⟨hstate, rfl, hun.result, hun.quarantined, hs, harmed⟩
  | executeNone e owners hplace hs =>
    obtain ⟨hstate, hun⟩ := hgood.opening (by rw [hplace]; rfl)
    exact tracked_quiet h hi rfl rfl rfl rfl
      ⟨hstate, rfl, hun.result, hun.quarantined, hs, hun.armed⟩
  | drained e owners hplace =>
    obtain ⟨-, hdrain⟩ := hgood.draining (by rw [hplace]; rfl)
    exact h.set [.ready i (.error e), .released i owners] hi rfl rfl rfl (by simp [Event.future]) rfl
      (.inr ⟨rfl, hdrain.result, hdrain.quarantined⟩)
  | prove hplace =>
    refine tracked_deliver h hi ?_
    rcases hplace with hplace | hplace
    · exact (hlaunched hplace rfl).2
    · exact (hpolling hplace rfl).2
  | observe hplace =>
    refine tracked_deliver h hi ?_
    rcases hplace with hplace | hplace <;> exact (hpolling hplace rfl).2
  | refuse code hplace =>
    refine tracked_fail h hi _ ?_
    rcases hplace with hplace | hplace | hplace | hplace
    · exact (hlaunched hplace rfl).2
    · exact (hlaunched hplace rfl).2
    · exact (hpolling hplace rfl).2
    · exact (hpolling hplace rfl).2
  | unclaimed hplace =>
    have hs : f.place.stage = .launched := by
      rcases hplace with hplace | hplace <;> rw [hplace] <;> rfl
    exact tracked_move h hi rfl rfl rfl (.inl hs) hs.symm
  | react hplace | claim _ _ hplace | reset _ hplace | unwritten _ hplace | release _ hplace
  | payload _ hplace | count _ hplace =>
    have hs := (hlaunched hplace rfl).1
    exact tracked_move h hi rfl rfl rfl (.inl hs) hs.symm
  | write slot hplace => exact tracked_write h hi hplace
  | armFirst slot hplace =>
    obtain ⟨hstate, hf, -⟩ := hgood.launched (by rw [hplace]; rfl)
    exact h.set [.armed i] hi rfl rfl rfl (by simp [Event.future]) rfl
      ⟨hstate, ⟨hf.pending, hf.result, hf.quarantined, hf.context,
        List.mem_cons_of_mem _ hf.submitted⟩, List.mem_cons_self⟩
  | arm slot hplace =>
    exact tracked_suspend h hi [.armed i] (by simp) rfl rfl rfl (hlaunched hplace rfl).2
      List.mem_cons_self
  | unpark hplace =>
    obtain ⟨-, hf, harmed⟩ := hgood.armed (by rw [hplace]; rfl)
    exact tracked_suspend h hi [] (by simp) rfl rfl rfl hf harmed
  | host hplace => exact tracked_host h hi hplace
  | missed hplace | ask hplace | reregister hplace =>
    have hs := (hpolling hplace rfl).1
    exact tracked_move h hi rfl rfl rfl (.inr hs) hs.symm
  | busy hplace =>
    have hs : f.place.stage = .polling := by
      rcases hplace with hplace | hplace <;> rw [hplace] <;> rfl
    exact tracked_move h hi rfl rfl rfl (.inr hs) hs.symm
  | suspend hplace =>
    obtain ⟨-, hf, harmed⟩ := hgood.polling (by rw [hplace]; rfl)
    exact tracked_suspend h hi [] (by simp) rfl rfl rfl hf harmed
  | bind hplace | block hplace =>
    have hf := hgood.dropping (by rw [hplace]; rfl)
    exact tracked_quiet h hi rfl rfl rfl rfl (show DeviceFuture.InFlight _ _ _ from
      ⟨hf.pending, hf.result, hf.quarantined, hf.context, hf.submitted⟩)
  | free hplace =>
    refine tracked_free h hi ?_
    rcases hplace with hplace | hplace <;> exact hgood.dropping (by rw [hplace]; rfl)

/-- Every future keeps its stream, and no stream is captured. -/
structure SameStreams (c c' : Process T O) : Prop where
  contexts : c'.futures.map DeviceFuture.executionContext = c.futures.map DeviceFuture.executionContext
  captured : ∀ s, (c'.streams s).captured = (c.streams s).captured

theorem SameStreams.refl (c : Process T O) : SameStreams c c := ⟨rfl, fun _ => rfl⟩

theorem SameStreams.mem (h : SameStreams c c') (hg : f ∈ c.futures) :
    ∃ g ∈ c'.futures, g.executionContext = f.executionContext := by
  have hmem : f.executionContext ∈ c'.futures.map DeviceFuture.executionContext :=
    h.contexts ▸ List.mem_map_of_mem hg
  exact List.mem_map.mp hmem

theorem SameStreams.symm (h : SameStreams c c') : SameStreams c' c :=
  ⟨h.contexts.symm, fun s => (h.captured s).symm⟩

theorem SameStreams.calm (h : SameStreams c c') (hcalm : c'.Calm) : c.Calm := by
  intro g hg s hs
  obtain ⟨g', hg', hcontext⟩ := h.mem hg
  exact (h.captured s).symm.trans (hcalm g' hg' s (hcontext.trans hs))

theorem sameStreams_set (hi : c.futures[i]? = some f) (hfutures : c'.futures = c.futures.set i f')
    (hcontext : f'.executionContext = f.executionContext)
    (hcaptured : ∀ s, (c'.streams s).captured = (c.streams s).captured) : SameStreams c c' := by
  refine ⟨?_, hcaptured⟩
  rw [hfutures, List.map_set, hcontext]
  refine List.ext_getElem? fun j => ?_
  by_cases hij : i = j
  · subst hij
    obtain ⟨hlt, -⟩ := List.getElem?_eq_some_iff.mp hi
    rw [List.getElem?_set_self (by simpa using hlt), List.getElem?_map, hi]
    rfl
  · rw [List.getElem?_set_ne hij]

/-- A call leaves the futures on their streams. -/
theorem sameStreams_ticks (hi : c.futures[i]? = some f) (ht : Ticks c i f c') : SameStreams c c' := by
  have hset : ∀ {c'' : Process T O} {f' : DeviceFuture T O}, c''.futures = c.futures.set i f' →
      c''.streams = c.streams → f'.executionContext = f.executionContext → SameStreams c c'' :=
    fun hfutures hstreams hcontext =>
      sameStreams_set hi hfutures hcontext fun s => by rw [hstreams]
  have hsubmit : ∀ {c'' : Process T O} {f' : DeviceFuture T O} (op : StreamOp),
      c''.futures = c.futures.set i f' → c''.streams = (c.submit f.stream op).streams →
      f'.executionContext = f.executionContext → SameStreams c c'' := by
    intro c'' f' op hfutures hstreams hcontext
    refine sameStreams_set hi hfutures hcontext fun s => ?_
    rw [hstreams, captured_submit]
  cases ht with
  | wait | abort => exact ⟨rfl, fun _ => rfl⟩
  | execute | executeSome => exact hsubmit (.work i) rfl rfl rfl
  | write slot => exact hsubmit (.write slot i) rfl rfl rfl
  | host => exact hsubmit (.signal i) rfl rfl rfl
  | prove | observe =>
    unfold deliver
    obtain heq | ⟨owners, -, heq⟩ := release_cases (c := c) (i := i) (f := f) <;> rw [heq] <;>
      dsimp only <;> split <;> exact hset rfl rfl rfl
  | free =>
    obtain heq | ⟨owners, -, heq⟩ := release_cases (c := c) (i := i) (f := f) <;>
      rw [free, heq] <;> exact hset rfl rfl rfl
  | register | reject | executeNone | drained | refuse | unclaimed | react | claim | reset
  | unwritten | release | payload | count | armFirst | arm | unpark | missed | ask | busy
  | reregister | suspend | bind | block => exact hset rfl rfl rfl

theorem sameStreams_calls (hi : c.futures[i]? = some f) (hc : Calls c i f c') : SameStreams c c' := by
  cases hc with
  | wait | abort => exact ⟨rfl, fun _ => rfl⟩
  | error | missing | locked | begin | again | late | bind | discard =>
    exact sameStreams_set hi rfl rfl fun _ => rfl

theorem tracked_calls (h : c.Tracked) (hi : c.futures[i]? = some f) (hc : Calls c i f c') :
    c'.Tracked := by
  have hgood := h.future i f hi
  cases hc with
  | wait => exact h
  | abort => exact tracked_congr h rfl rfl rfl
  | error w e hplace hstate =>
    obtain ⟨hun, -⟩ := hgood.rest_failed hplace hstate
    exact h.set [.ready i (.error e), .polled i w] hi rfl rfl rfl (by simp [Event.future]) rfl
      (.inr ⟨hun.pending, hun.result, hun.quarantined⟩)
  | missing w hplace hstate herror =>
    obtain ⟨-, hsome⟩ := hgood.rest_failed hplace hstate
    rw [herror] at hsome
    cases hsome
  | locked w e hplace hstate =>
    have hun := hgood.rest_idle hplace hstate
    exact h.set [.ready i (.error e), .polled i w] hi rfl rfl rfl (by simp [Event.future]) rfl
      (.inr ⟨hun.pending, hun.result, hun.quarantined⟩)
  | begin w hplace hstate =>
    have hun : f.Unstarted ([.polled i w] ++ c.log) i :=
      (hgood.rest_idle hplace hstate).append (by simp [Event.marks])
    exact h.set [.polled i w] hi rfl rfl rfl (by simp [Event.future]) rfl
      ⟨hstate, hun.pending, hun.result, hun.quarantined, hun.submitted, hun.armed⟩
  | again w hplace hstate =>
    obtain ⟨hf, harmed⟩ := hgood.rest_executing hplace hstate
    exact h.set [.polled i w] hi rfl rfl rfl (by simp [Event.future]) rfl
      ⟨hstate, ⟨hf.pending, hf.result, hf.quarantined, hf.context,
        List.mem_cons_of_mem _ hf.submitted⟩, List.mem_cons_of_mem _ harmed⟩
  | late w hplace hstate =>
    refine h.set [.panicked i, .polled i w] hi rfl rfl rfl (by simp [Event.future]) rfl ?_
    have hcomplete : f.InFlight (.panicked i :: .polled i w :: c.log) i ∨ f.Ended :=
      (hgood.rest_complete hplace hstate).imp_left fun hf => hf.append [_, _]
    simp only [DeviceFuture.Good, hplace, hstate, Place.stage]
    exact hcomplete.imp (fun hf => ⟨hf.pending, hf.result, hf.quarantined, hf.context, hf.submitted⟩)
      fun hf => ⟨hf.pending, hf.result, hf.quarantined⟩
  | bind hplace hpending =>
    have hf : f.InFlight c.log i := by
      refine (hgood.rest hplace).resolve_right fun hended => ?_
      rw [hended.pending] at hpending
      cases hpending
    exact h.set [] hi rfl rfl rfl (fun _ he => absurd he List.not_mem_nil) rfl
      (show DeviceFuture.InFlight _ _ _ from
        ⟨hf.pending, hf.result, hf.quarantined, hf.context, hf.submitted⟩)
  | discard hplace hpending =>
    have hf : f.Ended := by
      refine (hgood.rest hplace).resolve_left fun hf => ?_
      rw [hf.pending] at hpending
      cases hpending
    exact h.set [] hi rfl rfl rfl (fun _ he => absurd he List.not_mem_nil) rfl
      (show DeviceFuture.Ended _ from ⟨hf.pending, hf.result, hf.quarantined⟩)

end Ticks

theorem tracked_wake (h : c.Tracked) (hlt : i < c.futures.length) : (c.wake i).Tracked := by
  obtain heq | ⟨w, -, heq⟩ := wake_cases (c := c) (i := i)
  · rw [heq]
    exact h
  · rw [heq]
    refine h.log [.woken i w] rfl rfl rfl fun e he => ?_
    obtain rfl := List.mem_singleton.mp he
    exact ⟨hlt, fun _ => rfl⟩

theorem tracked_handled (h : c.Tracked) (hlt : i < c.futures.length) :
    (c.record (.handled i)).Tracked := by
  refine h.log [.handled i] rfl rfl rfl fun e he => ?_
  obtain rfl := List.mem_singleton.mp he
  exact ⟨hlt, fun _ => rfl⟩

/-- A stream drops its head, or puts one that signals there. -/
theorem Tracked.advance (h : c.Tracked) {s : ℕ} {op : StreamOp} {queue queue' : List StreamOp}
    (es : List (Event T O)) (hq : (c.streams s).queue = op :: queue)
    (hfutures : c'.futures = c.futures) (hstreams : c'.streams = (c.setQueue s queue').streams)
    (hlog : c'.log = es ++ c.log)
    (hes : ∀ e ∈ es, e.future < c.futures.length ∧ ∀ j, e.marks j = false)
    (hqueue : queue' = queue ∨ ∃ i, op = .signal i ∧ queue' = .wake i :: queue)
    (hwork : ∀ i, op = .work i → .worked i ∈ es) : c'.Tracked := by
  have hmem : ∀ {e}, e ∈ c.log → e ∈ c'.log := fun he => hlog ▸ List.mem_append_right es he
  have hself : (c'.streams s).queue = queue' := by
    rw [hstreams]
    simp [setQueue, setStream]
  have hgraph : (c'.streams s).graph = (c.streams s).graph := by
    rw [hstreams]
    simp [setQueue, setStream]
  have hne : ∀ r, r ≠ s → c'.streams r = c.streams r := by
    intro r hr
    rw [hstreams]
    exact Function.update_of_ne hr _ _
  refine ⟨?_, ?_, ?_, ?_, ?_⟩
  · intro j g hj
    exact hlog ▸ (h.future j g (hfutures ▸ hj)).append fun e he => (hes e he).2 j
  · intro r op' hop'
    have hcases : ∃ op₀ ∈ (c.streams r).ops, op₀.owner = op'.owner ∧
        (op'.signals = true → op₀.signals = true) := by
      by_cases hr : r = s
      · subst hr
        rw [Stream.ops, hself, hgraph] at hop'
        rw [Stream.ops, hq]
        rcases hqueue with rfl | ⟨i, rfl, rfl⟩
        · exact ⟨op', List.mem_cons_of_mem _ hop', rfl, id⟩
        · rcases List.mem_cons.mp hop' with rfl | hop'
          · exact ⟨.signal i, List.mem_cons_self, rfl, id⟩
          · exact ⟨op', List.mem_cons_of_mem _ hop', rfl, id⟩
      · rw [hne r hr] at hop'
        exact ⟨op', hop', rfl, id⟩
    obtain ⟨op₀, hop₀, howner, hsignals⟩ := hcases
    obtain ⟨g, hj, hs, hsubmitted, harmed⟩ := h.queued r op₀ hop₀
    rw [howner] at hj hsubmitted harmed
    exact ⟨g, hfutures ▸ hj, hs, hmem hsubmitted, fun hop => hmem (harmed (hsignals hop))⟩
  · intro j g hj hsubmitted
    rw [hlog, DeviceFuture.mem_append_of_unmarked (j := j) (by simp [Event.marks])
      fun e he => (hes e he).2 j] at hsubmitted
    rcases h.working j g (hfutures ▸ hj) hsubmitted with hqueued | hworked
    · by_cases hg : g.stream = s
      · rw [hg] at hqueued ⊢
        rw [Stream.ops, hq] at hqueued
        rw [Stream.ops, hself, hgraph]
        rcases List.mem_cons.mp hqueued with heq | hqueued
        · exact .inr (hlog ▸ List.mem_append_left _ (hwork j heq.symm))
        · left
          rcases hqueue with rfl | ⟨i, -, rfl⟩
          · exact hqueued
          · exact List.mem_cons_of_mem _ hqueued
      · rw [hne _ hg]
        exact .inl hqueued
    · exact .inr (hmem hworked)
  · intro r
    by_cases hr : r = s
    · subst hr
      have hordered := h.ordered r
      rw [hq, List.pairwise_cons] at hordered
      rw [hself]
      rcases hqueue with rfl | ⟨i, rfl, rfl⟩
      · exact hordered.2
      · exact List.pairwise_cons.mpr hordered
    · rw [hne r hr]
      exact h.ordered r
  · intro e he
    rw [hfutures]
    rw [hlog, List.mem_append] at he
    exact he.elim (fun he => (hes e he).1) (h.known e)

theorem tracked_device (h : c.Tracked) (s : ℕ) : (c.device s).Tracked := by
  have howner : ∀ {op queue}, (c.streams s).queue = op :: queue → op.owner < c.futures.length := by
    intro op queue hq
    obtain ⟨f, hf, -⟩ := h.mem_queue (hq ▸ List.mem_cons_self : op ∈ (c.streams s).queue)
    exact (List.getElem?_eq_some_iff.mp hf).1
  unfold device
  split
  · rename_i i queue _ hq
    refine h.advance [.worked i] hq rfl rfl rfl ?_ (.inl rfl) ?_
    · intro e he
      obtain rfl := List.mem_singleton.mp he
      exact ⟨howner hq, fun _ => rfl⟩
    · rintro j ⟨⟩
      exact List.mem_cons_self
  · rename_i hq
    refine h.advance [] hq rfl rfl rfl (fun _ he => absurd he List.not_mem_nil) (.inl rfl) ?_
    rintro j ⟨⟩
  · rename_i i queue _ hq
    refine h.advance [] hq rfl rfl rfl (fun _ he => absurd he List.not_mem_nil)
      (.inr ⟨i, rfl, rfl⟩) ?_
    rintro j ⟨⟩
  · rename_i i queue hq
    have hqueue : (c.setQueue s queue).Tracked := by
      refine h.advance [] hq rfl rfl rfl (fun _ he => absurd he List.not_mem_nil) (.inl rfl) ?_
      rintro j ⟨⟩
    have hlt : i < c.futures.length := howner hq
    have hwake := tracked_wake (i := i) hqueue hlt
    refine tracked_handled hwake ?_
    obtain heq | ⟨w, -, heq⟩ := wake_cases (c := c.setQueue s queue) (i := i) <;> rw [heq] <;>
      exact hlt
  · exact h

/-- A lookup after `create` finds what was there, or the new future at the end. -/
theorem futures_create {g : DeviceFuture T O} (hj : (c.create g).futures[j]? = some f) :
    c.futures[j]? = some f ∨ j = c.futures.length ∧ f = g := by
  rw [create, List.getElem?_append] at hj
  split at hj
  · exact .inl hj
  · rw [List.getElem?_singleton] at hj
    split at hj
    · exact .inr ⟨by omega, (Option.some.inj hj).symm⟩
    · cases hj

theorem getElem?_create {g : DeviceFuture T O} (hj : c.futures[j]? = some f) :
    (c.create g).futures[j]? = some f := by
  obtain ⟨hlt, -⟩ := List.getElem?_eq_some_iff.mp hj
  exact (List.getElem?_append_left hlt).trans hj

theorem tracked_create {g : DeviceFuture T O} (h : c.Tracked)
    (hg : g.place = .rest ∧ g.completionPending = false ∧ g.result = none ∧ g.quarantined = none ∧
      (g.state = .idle ∨ g.state = .failed ∧ g.error.isSome)) : (c.create g).Tracked := by
  obtain ⟨hplace, hpending, hresult, hquarantined, hstate⟩ := hg
  have hnew : ∀ e ∈ c.log, e.future ≠ c.futures.length := fun e he => (h.known e he).ne
  have hun : g.Unstarted c.log c.futures.length :=
    ⟨hpending, hresult, hquarantined, fun hmem => hnew _ hmem rfl, fun hmem => hnew _ hmem rfl⟩
  refine ⟨?_, ?_, ?_, h.ordered, ?_⟩
  · intro j f hj
    rcases futures_create hj with hj | ⟨rfl, rfl⟩
    · exact h.future j f hj
    · show f.Good c.log c.futures.length
      rcases hstate with hstate | ⟨hstate, herror⟩
      · simpa only [DeviceFuture.Good, hplace, Place.stage, hstate] using hun
      · simpa only [DeviceFuture.Good, hplace, Place.stage, hstate] using ⟨hun, herror⟩
  · intro s op hop
    obtain ⟨f, hf, hrest⟩ := h.queued s op hop
    exact ⟨f, getElem?_create hf, hrest⟩
  · intro j f hj hsubmitted
    rcases futures_create hj with hj | ⟨rfl, rfl⟩
    · exact h.working j f hj hsubmitted
    · exact absurd rfl (hnew _ hsubmitted)
  · intro e he
    rw [create, List.length_append]
    exact Nat.lt_of_lt_of_le (h.known e he) (Nat.le_add_right _ _)

theorem tracked_scan (h : c.Tracked) (hwoken : ∀ r ∈ c.scanner.pass.woken, r.waker < c.futures.length)
    (hdead : ∀ r ∈ c.scanner.pass.dead, r.waker < c.futures.length) (hscan : Scans c c') :
    c'.Tracked := by
  have hdeliver : ∀ r : Registration, r.waker < c.futures.length →
      ((c.wake r.waker).record (.handled r.waker)).Tracked := by
    intro r hlt
    refine tracked_handled (tracked_wake h hlt) ?_
    obtain heq | ⟨w, -, heq⟩ := wake_cases (c := c) (i := r.waker) <;> rw [heq] <;> exact hlt
  cases hscan with
  | move | clear | take | signal => exact tracked_congr h rfl rfl rfl
  | wake pass r s' n hs _ hpass =>
    refine tracked_congr (hdeliver r (hwoken r ?_)) rfl rfl rfl
    rw [hs]
    exact hpass ▸ List.mem_cons_self
  | fault pass r s' hs _ _ hpass =>
    refine tracked_congr (hdeliver r (hdead r ?_)) rfl rfl rfl
    rw [hs]
    exact hpass ▸ List.mem_cons_self

end Process
end Gudra.Reactor
