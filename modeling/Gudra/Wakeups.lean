import Gudra.Lifecycle

/-! A pending future is woken: its task is registered, or was woken since its last poll. -/
namespace Gudra.Reactor

variable {T O : Type}

def Event.polls (i : ℕ) : Event T O → Bool
  | .polled j _ => j == i
  | _ => false

/-- What has happened since the last poll of future `i`. -/
def recent (i : ℕ) (log : List (Event T O)) : List (Event T O) := log.takeWhile fun e => !e.polls i

theorem recent_append {i : ℕ} {es log : List (Event T O)} (hes : ∀ e ∈ es, e.polls i = false) :
    recent i (es ++ log) = es ++ recent i log :=
  List.takeWhile_append_of_pos fun e he => by rw [hes e he]; rfl

theorem Lawful.handled_armed {executed : Prop} {log : List (Event T O)} {i : ℕ}
    (h : Lawful executed log)
    (hmem : .handled i ∈ log) : .armed i ∈ log := by
  obtain ⟨es, rest, rfl⟩ := List.append_of_mem hmem
  exact List.mem_append_right _ (List.mem_cons_of_mem _ h.follows.1)

namespace Process

variable {c c' : Process T O} {f f' : DeviceFuture T O} {r : Registration} {i j s : ℕ}
  {es : List (Event T O)}

/-- The task of a pending future is registered and its callback to come, or the task was woken
since it polled, or its stream is faulted and some task was woken since then. -/
def Alert (c : Process T O) (i : ℕ) (f : DeviceFuture T O) : Prop :=
  (.handled i ∉ c.log ∧ (c.callbacks i).waker = some f.task) ∨
    .handled i ∈ c.log ∧ (.woken i f.task ∈ recent i c.log ∨
      (c.streams f.stream).fault.isSome ∧ ∃ w, .woken i w ∈ recent i c.log)

def Expects (c : Process T O) (i : ℕ) (f : DeviceFuture T O) : Prop :=
  match f.place with
  | .rest => f.state = .executing → c.Alert i f
  | .unpark => c.Alert i f
  | .check | .probe | .query => .handled i ∉ c.log → (c.callbacks i).waker.isSome
  | .reregister => (.handled i ∉ c.log ∧ (c.callbacks i).waker.isSome) ∨
      .handled i ∈ c.log ∧ ((c.callbacks i).complete = true ∨ ∃ w, .woken i w ∈ recent i c.log)
  | .recheck => c.Alert i f ∨ .handled i ∈ c.log ∧ (c.callbacks i).complete = true
  | .execute | .spin | .claim | .reset _ | .write _ | .release _ | .payload _ | .count _ | .arm _ _
  | .host => (c.callbacks i).waker = some f.task
  | .register | .drain _ _ | .bind | .dropQuery | .sync | .dropped => True

structure Heard (c : Process T O) : Prop where
  /-- Before a wake comes the store to `complete`. -/
  signalled : c.scanner.signalled = true → ∀ r ∈ c.scanner.pass.woken.head?,
    (c.callbacks r.waker).complete = true
  waking : ∀ s i, .wake i ∈ (c.streams s).queue → (c.callbacks i).complete = true
  handled : ∀ (i : ℕ) (f : DeviceFuture T O), c.futures[i]? = some f →
    (c.streams f.stream).captured = false → .handled i ∈ c.log →
      (c.callbacks i).complete = true ∨ (c.streams f.stream).fault.isSome
  expects : ∀ (i : ℕ) (f : DeviceFuture T O), c.futures[i]? = some f →
    (c.streams f.stream).captured = false → c.Expects i f

/-- Nothing happens to what future `j`, of stream `s`, waits for. -/
structure Hears (c c' : Process T O) (j s : ℕ) : Prop where
  waker : (c'.callbacks j).waker = (c.callbacks j).waker
  handled : .handled j ∈ c'.log ↔ .handled j ∈ c.log
  complete : (c.callbacks j).complete = true → (c'.callbacks j).complete = true
  fault : (c.streams s).fault.isSome → (c'.streams s).fault.isSome
  recent : ∀ w, .woken j w ∈ recent j c.log → .woken j w ∈ recent j c'.log

theorem Alert.hears (h : c.Alert i f) (hears : Hears c c' i f.stream) : c'.Alert i f := by
  unfold Alert at *
  rw [hears.handled, hears.waker]
  refine h.imp_right (And.imp_right (Or.imp (hears.recent _) ?_))
  rintro ⟨hfault, w, hw⟩
  exact ⟨hears.fault hfault, w, hears.recent w hw⟩

theorem Expects.hears (h : c.Expects i f) (hears : Hears c c' i f.stream) : c'.Expects i f := by
  unfold Expects at *
  cases hp : f.place with
  | rest =>
    simp only [hp] at h ⊢
    exact fun hs => (h hs).hears hears
  | unpark =>
    simp only [hp] at h ⊢
    exact h.hears hears
  | check | probe | query =>
    simp only [hp] at h ⊢
    rw [hears.handled, hears.waker]
    exact h
  | reregister =>
    simp only [hp] at h ⊢
    rw [hears.handled, hears.waker]
    refine h.imp_right (And.imp_right (Or.imp hears.complete ?_))
    rintro ⟨w, hw⟩
    exact ⟨w, hears.recent w hw⟩
  | recheck =>
    simp only [hp] at h ⊢
    rw [hears.handled]
    exact h.imp (fun h => h.hears hears) (And.imp_right hears.complete)
  | execute | spin | claim | reset | write | release | payload | count | arm | host =>
    simp only [hp] at h ⊢
    rw [hears.waker]
    exact h
  | register | drain | bind | dropQuery | sync | dropped => trivial

/-- One future changes; its events are its own. -/
theorem Heard.set (h : c.Heard) (es : List (Event T O)) (hi : c.futures[i]? = some f)
    (hfutures : c'.futures = c.futures.set i f') (hcontext : f'.executionContext = f.executionContext)
    (hlog : c'.log = es ++ c.log) (hes : ∀ e ∈ es, e.future = i ∧ e ≠ .handled i)
    (hscanner : c'.scanner = c.scanner)
    (hcomplete : ∀ j, (c'.callbacks j).complete = (c.callbacks j).complete)
    (hwaker : ∀ j, j ≠ i → (c'.callbacks j).waker = (c.callbacks j).waker)
    (hfault : ∀ s, (c'.streams s).fault = (c.streams s).fault)
    (hcaptured : ∀ s, (c'.streams s).captured = (c.streams s).captured)
    (hqueue : ∀ s j, .wake j ∈ (c'.streams s).queue → .wake j ∈ (c.streams s).queue)
    (hexpects : (c.streams f.stream).captured = false → c'.Expects i f') : c'.Heard := by
  have hhandled : ∀ j, .handled j ∈ c'.log ↔ .handled j ∈ c.log := by
    intro j
    rw [hlog, List.mem_append]
    refine or_iff_right fun he => ?_
    obtain ⟨rfl, hne⟩ := hes _ he
    exact hne rfl
  refine ⟨?_, ?_, ?_, ?_⟩
  · rw [hscanner]
    intro hs r hr
    rw [hcomplete]
    exact h.signalled hs r hr
  · intro s j hmem
    rw [hcomplete]
    exact h.waking s j (hqueue s j hmem)
  · intro j g hj hcap hmem
    rw [hhandled] at hmem
    rw [hfutures] at hj
    rw [hcaptured] at hcap
    rw [hcomplete, hfault]
    rcases getElem?_set_cases hi hj with ⟨rfl, rfl⟩ | ⟨-, hj⟩
    · have hstream : g.stream = f.stream := congrArg (Option.getD · 0) hcontext
      rw [hstream] at hcap ⊢
      exact h.handled j f hi hcap hmem
    · exact h.handled j g hj hcap hmem
  · intro j g hj hcap
    rw [hfutures] at hj
    rw [hcaptured] at hcap
    rcases getElem?_set_cases hi hj with ⟨rfl, rfl⟩ | ⟨hne, hj⟩
    · have hstream : g.stream = f.stream := congrArg (Option.getD · 0) hcontext
      exact hexpects (hstream ▸ hcap)
    · refine (h.expects j g hj hcap).hears ⟨hwaker j hne, hhandled j, ?_, ?_, fun w hw => ?_⟩
      · rw [hcomplete]
        exact id
      · rw [hfault]
        exact id
      · rw [hlog, recent_append]
        · exact List.mem_append_right _ hw
        · intro e he
          have hfuture := (hes e he).1
          cases e <;> simp_all [Event.polls, Event.future]
          exact Ne.symm hne

/-- The futures stay, nobody polls, and no callback is delivered. -/
theorem Heard.log (h : c.Heard) (es : List (Event T O)) (hfutures : c'.futures = c.futures)
    (hlog : c'.log = es ++ c.log)
    (hes : ∀ e ∈ es, (∀ i, e.polls i = false) ∧ ∀ i, e ≠ .handled i)
    (hsignalled : c'.scanner.signalled = true → ∀ r ∈ c'.scanner.pass.woken.head?,
      (c'.callbacks r.waker).complete = true)
    (hcomplete : ∀ j, (c.callbacks j).complete = true → (c'.callbacks j).complete = true)
    (hwaker : ∀ j, (c'.callbacks j).waker = (c.callbacks j).waker)
    (hfault : ∀ s, (c.streams s).fault.isSome → (c'.streams s).fault.isSome)
    (hcaptured : ∀ s, (c.streams s).captured = true → (c'.streams s).captured = true)
    (hqueue : ∀ s j, .wake j ∈ (c'.streams s).queue → (c'.callbacks j).complete = true) :
    c'.Heard := by
  have hhandled : ∀ j, .handled j ∈ c'.log ↔ .handled j ∈ c.log := by
    intro j
    rw [hlog, List.mem_append]
    exact or_iff_right fun he => (hes _ he).2 j rfl
  have hback : ∀ s, (c'.streams s).captured = false → (c.streams s).captured = false := by
    intro s hs
    refine Bool.eq_false_iff.mpr fun htrue => ?_
    rw [hcaptured s htrue] at hs
    cases hs
  refine ⟨hsignalled, hqueue, ?_, ?_⟩
  · intro j g hj hcap hmem
    exact (h.handled j g (hfutures ▸ hj) (hback _ hcap) ((hhandled j).mp hmem)).imp (hcomplete j)
      (hfault _)
  · intro j g hj hcap
    refine (h.expects j g (hfutures ▸ hj) (hback _ hcap)).hears
      ⟨hwaker j, hhandled j, hcomplete j, hfault g.stream, fun w hw => ?_⟩
    rw [hlog, recent_append fun e he => (hes e he).1 j]
    exact List.mem_append_right _ hw

/-- The callbacks, the scanner and the streams stay. -/
theorem Heard.plain (h : c.Heard) (es : List (Event T O)) (hi : c.futures[i]? = some f)
    (hfutures : c'.futures = c.futures.set i f') (hcontext : f'.executionContext = f.executionContext)
    (hlog : c'.log = es ++ c.log) (hes : ∀ e ∈ es, e.future = i ∧ e ≠ .handled i)
    (hscanner : c'.scanner = c.scanner) (hcallbacks : c'.callbacks = c.callbacks)
    (hstreams : c'.streams = c.streams)
    (hexpects : (c.streams f.stream).captured = false → c'.Expects i f') : c'.Heard :=
  h.set es hi hfutures hcontext hlog hes hscanner (fun j => by rw [hcallbacks])
    (fun j _ => by rw [hcallbacks]) (fun s => by rw [hstreams]) (fun s => by rw [hstreams])
    (fun s j => by rw [hstreams]; exact id) hexpects

/-- A call ends with an answer. -/
theorem Heard.answers (h : c.Heard) (es : List (Event T O)) (hi : c.futures[i]? = some f)
    (hfutures : c'.futures = c.futures.set i f') (hcontext : f'.executionContext = f.executionContext)
    (hstate : f'.state = .complete) (hplace : f'.place = .rest) (hlog : c'.log = es ++ c.log)
    (hes : ∀ e ∈ es, e.future = i ∧ e ≠ .handled i) (hscanner : c'.scanner = c.scanner)
    (hcallbacks : c'.callbacks = c.callbacks) (hstreams : c'.streams = c.streams) : c'.Heard := by
  refine h.plain es hi hfutures hcontext hlog hes hscanner hcallbacks hstreams fun _ => ?_
  simp only [Expects, hplace, hstate]
  rintro ⟨⟩

theorem heard_deliver (h : c.Heard) (hi : c.futures[i]? = some f) :
    ((c.release i f).deliver i f).Heard := by
  unfold deliver
  obtain heq | ⟨owners, -, heq⟩ := release_cases (c := c) (i := i) (f := f) <;> rw [heq] <;>
    dsimp only <;> split
  · exact h.answers [_] hi rfl rfl rfl rfl rfl (by simp [Event.future]) rfl rfl rfl
  · exact h.answers [_] hi rfl rfl rfl rfl rfl (by simp [Event.future]) rfl rfl rfl
  · exact h.answers [_, _] hi rfl rfl rfl rfl rfl (by simp [Event.future]) rfl rfl rfl
  · exact h.answers [_, _] hi rfl rfl rfl rfl rfl (by simp [Event.future]) rfl rfl rfl

theorem wake_submit {op : StreamOp} (hop : ∀ j, op ≠ .wake j) (s s' j : ℕ)
    (hmem : .wake j ∈ ((c.submit s op).streams s').queue) : .wake j ∈ (c.streams s').queue := by
  by_cases hs : s' = s
  · subst hs
    rw [submit_self] at hmem
    exact (Stream.mem_queue_submit _ op hmem).resolve_right fun heq => hop j heq.symm
  · rw [submit_of_ne op hs] at hmem
    exact hmem

/-- A call submits what is not a host function that has begun. -/
theorem Heard.submits {op : StreamOp} (h : c.Heard) (es : List (Event T O))
    (hi : c.futures[i]? = some f) (hop : ∀ j, op ≠ .wake j)
    (hfutures : c'.futures = c.futures.set i f') (hcontext : f'.executionContext = f.executionContext)
    (hlog : c'.log = es ++ c.log) (hes : ∀ e ∈ es, e.future = i ∧ e ≠ .handled i)
    (hscanner : c'.scanner = c.scanner) (hcallbacks : c'.callbacks = c.callbacks)
    (hstreams : c'.streams = (c.submit f.stream op).streams)
    (hexpects : (c.streams f.stream).captured = false → c'.Expects i f') : c'.Heard := by
  refine h.set es hi hfutures hcontext hlog hes hscanner (fun j => by rw [hcallbacks])
    (fun j _ => by rw [hcallbacks]) (fun s => ?_) (fun s => ?_) (fun s j => ?_) hexpects
  · rw [hstreams, fault_submit]
  · rw [hstreams, captured_submit]
  · rw [hstreams]
    exact wake_submit hop f.stream s j

/-- `poll` returns `Pending`. -/
theorem Alert.pending (h : c.Alert i f) (hlog : c'.log = .pending i :: c.log)
    (hcallbacks : c'.callbacks = c.callbacks) (hstreams : c'.streams = c.streams) : c'.Alert i f := by
  have hrecent : recent i c'.log = .pending i :: recent i c.log := by
    rw [hlog, ← List.singleton_append]
    exact recent_append fun e he => by rw [List.mem_singleton.mp he]; rfl
  refine h.hears ⟨by rw [hcallbacks], ?_, ?_, ?_, fun w hw => ?_⟩
  · simp [hlog]
  · rw [hcallbacks]
    exact id
  · rw [hstreams]
    exact id
  · rw [hrecent]
    exact List.mem_cons_of_mem _ hw

/-- The task of the poll is registered. -/
theorem Heard.registers {p : Place O} (h : c.Heard) (hi : c.futures[i]? = some f)
    (hexpects : (c.streams f.stream).captured = false →
      ((c.register i f.task).setFuture i { f with place := p }).Expects i { f with place := p }) :
    ((c.register i f.task).setFuture i { f with place := p }).Heard := by
  refine h.set [] hi rfl rfl rfl (fun _ he => absurd he List.not_mem_nil) rfl
    (fun j => complete_register _) (fun j hj => ?_) (fun _ => rfl) (fun _ => rfl) (fun _ _ => id)
    hexpects
  simp [Process.register, setCallback, setFuture, hj]

/-- The stream of the future is not faulted, so what was delivered was signalled. -/
theorem Heard.unfaulted (h : c.Heard) (hi : c.futures[i]? = some f)
    (hcap : (c.streams f.stream).captured = false) (hfault : (c.streams f.stream).fault = none)
    (hwaker : .handled i ∉ c.log → (c.callbacks i).waker.isSome) :
    (.handled i ∉ c.log ∧ (c.callbacks i).waker.isSome) ∨
      .handled i ∈ c.log ∧ (c.callbacks i).complete = true := by
  by_cases hmem : .handled i ∈ c.log
  · refine .inr ⟨hmem, (h.handled i f hi hcap hmem).resolve_right fun hsome => ?_⟩
    rw [hfault] at hsome
    cases hsome
  · exact .inl ⟨hmem, hwaker hmem⟩

/-- The task is registered once more before the last look at `complete`. -/
theorem heard_reregister (h : c.Heard) (hi : c.futures[i]? = some f) (hplace : f.place = .reregister) :
    ((c.register i f.task).setFuture i { f with place := .recheck }).Heard := by
  refine h.registers hi fun hcap => ?_
  have hexpects := h.expects i f hi hcap
  have hwaker : (((c.register i f.task).setFuture i { f with place := .recheck }).callbacks i).waker =
      some f.task := by simp [Process.register, setCallback, setFuture]
  have hcomplete : (((c.register i f.task).setFuture i { f with place := .recheck }).callbacks i).complete =
      (c.callbacks i).complete := complete_register _
  rw [Expects, hplace] at hexpects
  rcases hexpects with ⟨hnot, -⟩ | ⟨hmem, hdone | ⟨w, hw⟩⟩
  · exact .inl (.inl ⟨hnot, hwaker⟩)
  · exact .inr ⟨hmem, hcomplete.trans hdone⟩
  · rcases h.handled i f hi hcap hmem with hdone | hfault
    · exact .inr ⟨hmem, hcomplete.trans hdone⟩
    · exact .inl (.inr ⟨hmem, .inr ⟨hfault, w, hw⟩⟩)

/-- The callback is handed over with the task registered, and none is delivered. -/
theorem Alert.handed (hnot : .handled i ∉ c'.log) (hcallbacks : c'.callbacks = c.callbacks)
    (hwaker : (c.callbacks i).waker = some f.task) : c'.Alert i f :=
  .inl ⟨hnot, hcallbacks ▸ hwaker⟩

theorem heard_ticks (h : c.Heard) (hsettled : c.Settled) (hsound : c.Sound)
    (hi : c.futures[i]? = some f) (ht : Ticks c i f c') : c'.Heard := by
  have hgood := hsound.tracked.future i f hi
  have hexpects := h.expects i f hi
  have hempty : ∀ e ∈ ([] : List (Event T O)), e.future = i ∧ e ≠ .handled i :=
    fun _ he => absurd he List.not_mem_nil
  -- The callback of a future that was not handed over is not delivered.
  have hwaiting : f.place.stage = .launched → .handled i ∉ c.log := fun hstage hmem =>
    (hgood.launched hstage).2.2 (hsettled.lawful.handled_armed hmem)
  cases ht with
  | wait => exact h
  | abort =>
    exact h.log [] rfl rfl (fun _ he => absurd he List.not_mem_nil) h.signalled (fun _ => id)
      (fun _ => rfl) (fun _ => id) (fun _ => id) h.waking
  | register hplace =>
    refine h.registers hi fun _ => ?_
    simp [Expects, Process.register, setCallback, setFuture]
  | reject | refuse =>
    exact h.answers [_] hi rfl rfl rfl rfl rfl (by simp [Event.future]) rfl rfl rfl
  | execute v owners hplace =>
    rw [Expects, hplace] at hexpects
    exact h.submits [_] hi (by simp) rfl rfl rfl (by simp [Event.future]) rfl rfl rfl hexpects
  | executeSome e owners hplace =>
    exact h.submits [_] hi (by simp) rfl rfl rfl (by simp [Event.future]) rfl rfl rfl fun _ => trivial
  | executeNone e owners hplace => exact h.plain [] hi rfl rfl rfl hempty rfl rfl rfl fun _ => trivial
  | drained e owners hplace =>
    exact h.answers [_, _] hi rfl rfl rfl rfl rfl (by simp [Event.future]) rfl rfl rfl
  | prove | observe => exact heard_deliver h hi
  | unclaimed hplace =>
    rcases hplace with hplace | hplace <;> rw [Expects, hplace] at hexpects <;>
      exact h.plain [] hi rfl rfl rfl hempty rfl rfl rfl hexpects
  | react hplace | claim _ _ hplace | reset _ hplace | unwritten _ hplace | release _ hplace
  | payload _ hplace | count _ hplace | missed hplace | ask hplace =>
    rw [Expects, hplace] at hexpects
    exact h.plain [] hi rfl rfl rfl hempty rfl rfl rfl hexpects
  | write slot hplace =>
    rw [Expects, hplace] at hexpects
    exact h.submits [] hi (by simp) rfl rfl rfl hempty rfl rfl rfl hexpects
  | armFirst slot hplace =>
    have hnot := hwaiting (by rw [hplace]; rfl)
    rw [Expects, hplace] at hexpects
    refine h.plain [.armed i] hi rfl rfl rfl (by simp [Event.future]) rfl rfl rfl fun hcap => ?_
    exact Alert.handed (by simpa [setFuture, record, setTable] using hnot) rfl (hexpects hcap)
  | arm slot hplace =>
    have hnot := hwaiting (by rw [hplace]; rfl)
    rw [Expects, hplace] at hexpects
    refine h.plain [.pending i, .armed i] hi rfl rfl rfl (by simp [Event.future]) rfl rfl rfl
      fun hcap _ => ?_
    exact Alert.handed (by simpa [suspend, setFuture, record, setTable] using hnot) rfl (hexpects hcap)
  | unpark hplace =>
    rw [Expects, hplace] at hexpects
    exact h.plain [.pending i] hi rfl rfl rfl (by simp [Event.future]) rfl rfl rfl
      fun hcap _ => (hexpects hcap).pending rfl rfl rfl
  | host hplace =>
    have hnot := hwaiting (by rw [hplace]; rfl)
    rw [Expects, hplace] at hexpects
    refine h.submits [.pending i, .armed i] hi (by simp) rfl rfl rfl (by simp [Event.future]) rfl rfl
      rfl fun hcap _ => ?_
    exact Alert.handed (by simpa [suspend, setFuture, record, Process.submit, setStream] using hnot)
      rfl (hexpects hcap)
  | busy hplace hfault =>
    refine h.plain [] hi rfl rfl rfl hempty rfl rfl rfl fun hcap => ?_
    have hwaker : .handled i ∉ c.log → (c.callbacks i).waker.isSome := by
      have hexpects := hexpects hcap
      rcases hplace with hplace | hplace <;> rw [Expects, hplace] at hexpects <;> exact hexpects
    exact (h.unfaulted hi hcap hfault hwaker).imp_right (And.imp_right .inl)
  | reregister hplace => exact heard_reregister h hi hplace
  | suspend hplace hnot =>
    rw [Expects, hplace] at hexpects
    refine h.plain [.pending i] hi rfl rfl rfl (by simp [Event.future]) rfl rfl rfl fun hcap _ => ?_
    have halert : c.Alert i f := by
      refine (hexpects hcap).resolve_right ?_
      rintro ⟨-, hdone⟩
      rw [hnot] at hdone
      cases hdone
    exact halert.pending rfl rfl rfl
  | bind | block => exact h.plain [] hi rfl rfl rfl hempty rfl rfl rfl fun _ => trivial
  | free =>
    obtain heq | ⟨owners, -, heq⟩ := release_cases (c := c) (i := i) (f := f) <;> rw [free, heq]
    · exact h.plain [] hi rfl rfl rfl hempty rfl rfl rfl fun _ => trivial
    · exact h.plain [_] hi rfl rfl rfl (by simp [Event.future]) rfl rfl rfl fun _ => trivial

theorem heard_calls (h : c.Heard) (hsound : c.Sound) (hi : c.futures[i]? = some f)
    (hc : Calls c i f c') : c'.Heard := by
  have hexpects := h.expects i f hi
  have hempty : ∀ e ∈ ([] : List (Event T O)), e.future = i ∧ e ≠ .handled i :=
    fun _ he => absurd he List.not_mem_nil
  cases hc with
  | wait => exact h
  | abort =>
    exact h.log [] rfl rfl (fun _ he => absurd he List.not_mem_nil) h.signalled (fun _ => id)
      (fun _ => rfl) (fun _ => id) (fun _ => id) h.waking
  | error w e hplace | locked w e hplace =>
    exact h.answers [_, _] hi rfl rfl rfl rfl rfl (by simp [Event.future]) rfl rfl rfl
  | missing w hplace hstate herror =>
    obtain ⟨-, hsome⟩ := (hsound.tracked.future i f hi).rest_failed hplace hstate
    rw [herror] at hsome
    cases hsome
  | begin w hplace =>
    exact h.plain [_] hi rfl rfl rfl (by simp [Event.future]) rfl rfl rfl fun _ => trivial
  | again w hplace hstate =>
    simp only [Expects, hplace] at hexpects
    refine h.plain [.polled i w] hi rfl rfl rfl (by simp [Event.future]) rfl rfl rfl
      fun hcap hnot => ?_
    have hnot : .handled i ∉ c.log := fun hmem => hnot (List.mem_cons_of_mem _ hmem)
    rcases hexpects hcap hstate with ⟨-, hwaker⟩ | ⟨hmem, -⟩
    · exact Option.isSome_iff_exists.mpr ⟨_, hwaker⟩
    · exact absurd hmem hnot
  | late w hplace hstate =>
    exact h.answers [_, _] hi rfl rfl hstate hplace rfl (by simp [Event.future]) rfl rfl rfl
  | bind | discard => exact h.plain [] hi rfl rfl rfl hempty rfl rfl rfl fun _ => trivial

/-- A callback is delivered: the registered task is woken. -/
theorem Alert.handled (h : (.handled i ∉ c.log ∧ (c.callbacks i).waker.isSome)) :
    ∃ w, (c.callbacks i).waker = some w ∧
      .woken i w ∈ recent i ((c.wake i).record (.handled i)).log := by
  obtain ⟨w, hw⟩ := Option.isSome_iff_exists.mp h.2
  refine ⟨w, hw, ?_⟩
  have hlog : ((c.wake i).record (.handled i)).log = [.handled i, .woken i w] ++ c.log := by
    simp only [wake, hw]
    rfl
  rw [hlog, recent_append]
  · exact List.mem_append_left _ (List.mem_cons_of_mem _ List.mem_cons_self)
  · intro e he
    fin_cases he <;> rfl

theorem heard_handled (h : c.Heard) (hi : c.futures[i]? = some f) (hgood : f.Good c.log i)
    (harmed : .armed i ∈ c.log) (hnot : .handled i ∉ c.log)
    (hwhy : (c.streams f.stream).captured = false →
      (c.callbacks i).complete = true ∨ (c.streams f.stream).fault.isSome) :
    ((c.wake i).record (.handled i)).Heard := by
  have hcomplete : ∀ j, (((c.wake i).record (.handled i)).callbacks j).complete =
      (c.callbacks j).complete := fun j => complete_wake
  have hstreams : ((c.wake i).record (.handled i)).streams = c.streams := wake_streams
  have hfutures : ((c.wake i).record (.handled i)).futures = c.futures := wake_futures
  have hscanner : ((c.wake i).record (.handled i)).scanner = c.scanner := wake_scanner
  have hself : .handled i ∈ ((c.wake i).record (.handled i)).log := List.mem_cons_self
  have hlog : ∀ j, j ≠ i → (.handled j ∈ ((c.wake i).record (.handled i)).log ↔ .handled j ∈ c.log) := by
    intro j hj
    show .handled j ∈ _ :: (c.wake i).log ↔ _
    obtain heq | ⟨w, heq⟩ := log_wake_cases (c := c) i <;> rw [heq] <;> simp [hj]
  refine ⟨?_, ?_, ?_, ?_⟩
  · rw [hscanner]
    intro hs r hr
    rw [hcomplete]
    exact h.signalled hs r hr
  · intro s j hmem
    rw [hstreams] at hmem
    rw [hcomplete]
    exact h.waking s j hmem
  · intro j g hj hcap hmem
    rw [hfutures] at hj
    rw [hstreams] at hcap
    rw [hcomplete, hstreams]
    by_cases hji : j = i
    · subst hji
      obtain rfl := Option.some.inj (hi.symm.trans hj)
      exact hwhy hcap
    · exact h.handled j g hj hcap ((hlog j hji).mp hmem)
  · intro j g hj hcap
    rw [hfutures] at hj
    rw [hstreams] at hcap
    by_cases hji : j = i
    · subst hji
      obtain rfl := Option.some.inj (hi.symm.trans hj)
      have hexpects := h.expects j f hi hcap
      have hwoken : (c.callbacks j).waker = some f.task →
          ((c.wake j).record (.handled j)).Alert j f := by
        intro hw
        obtain ⟨w, hw', hmem⟩ := Alert.handled ⟨hnot, by rw [hw]; rfl⟩
        obtain rfl := Option.some.inj (hw.symm.trans hw')
        exact .inr ⟨hself, .inl hmem⟩
      have halert : c.Alert j f → ((c.wake j).record (.handled j)).Alert j f := by
        rintro (⟨-, hw⟩ | ⟨hmem, -⟩)
        · exact hwoken hw
        · exact absurd hmem hnot
      unfold Expects at *
      cases hp : f.place with
      | rest =>
        simp only [hp] at hexpects ⊢
        exact fun hs => halert (hexpects hs)
      | unpark =>
        simp only [hp] at hexpects ⊢
        exact halert hexpects
      | check | probe | query =>
        simp only
        exact fun hno => absurd hself hno
      | reregister =>
        simp only [hp] at hexpects ⊢
        rcases hexpects with hwait | ⟨hmem, -⟩
        · obtain ⟨w, -, hmem⟩ := Alert.handled hwait
          exact .inr ⟨hself, .inr ⟨w, hmem⟩⟩
        · exact absurd hmem hnot
      | recheck =>
        simp only [hp] at hexpects ⊢
        rcases hexpects with hexpects | ⟨hmem, -⟩
        · exact .inl (halert hexpects)
        · exact absurd hmem hnot
      | execute =>
        exact absurd harmed (hgood.opening (by rw [hp]; rfl)).2.armed
      | spin | claim | reset | write | release | payload | count | arm | host =>
        exact absurd harmed (hgood.launched (by rw [hp]; rfl)).2.2
      | register | drain | bind | dropQuery | sync | dropped => trivial
    · refine (h.expects j g hj hcap).hears ⟨?_, hlog j hji, ?_, ?_, fun w hw => ?_⟩
      · show ((c.wake i).callbacks j).waker = _
        obtain heq | ⟨w, -, heq⟩ := wake_cases (c := c) (i := i) <;> rw [heq]
        simp [record, setCallback, hji]
      · rw [hcomplete]
        exact id
      · rw [hstreams]
        exact id
      · show _ ∈ recent j (_ :: (c.wake i).log)
        obtain heq | ⟨w, heq⟩ := log_wake_cases (c := c) i <;> rw [heq]
        · rw [← List.singleton_append, recent_append (by simp [Event.polls])]
          exact List.mem_append_right _ hw
        · have hrecent : recent j ([.handled i, .woken i w] ++ c.log) =
              [.handled i, .woken i w] ++ recent j c.log := recent_append (by simp [Event.polls])
          exact hrecent ▸ List.mem_append_right _ hw

theorem wake_setQueue {queue queue' : List StreamOp} {op : StreamOp}
    (hq : (c.streams s).queue = op :: queue)
    (hqueue : ∀ j, .wake j ∈ queue' → .wake j ∈ queue ∨ op = .signal j) (s' : ℕ)
    (hmem : .wake j ∈ ((c.setQueue s queue').streams s').queue) :
    .wake j ∈ (c.streams s').queue ∨ op = .signal j := by
  by_cases hs : s' = s
  · subst hs
    rw [setQueue_self] at hmem
    rcases hqueue j hmem with hmem | heq
    · exact .inl (hq ▸ List.mem_cons_of_mem _ hmem)
    · exact .inr heq
  · rw [setQueue_of_ne hs] at hmem
    exact .inl hmem

theorem fault_setQueue (queue : List StreamOp) (s' : ℕ) :
    ((c.setQueue s queue).streams s').fault = (c.streams s').fault := by
  by_cases hs : s' = s
  · subst hs
    rw [setQueue_self]
  · rw [setQueue_of_ne hs]

theorem heard_device (h : c.Heard) (hsettled : c.Settled) (hsound : c.Sound) (hcarried : c.Carried)
    (s : ℕ) : (c.device s).Heard := by
  -- The stream drops its head.
  have hqueue : ∀ {op queue}, (c.streams s).queue = op :: queue → ∀ s' j,
      .wake j ∈ ((c.setQueue s queue).streams s').queue → .wake j ∈ (c.streams s').queue := by
    intro op queue hq s' j hmem
    by_cases hs : s' = s
    · subst hs
      rw [setQueue_self] at hmem
      exact hq ▸ List.mem_cons_of_mem _ hmem
    · rw [setQueue_of_ne hs] at hmem
      exact hmem
  have hfault : ∀ queue s', (c.streams s').fault.isSome →
      ((c.setQueue s queue).streams s').fault.isSome := by
    intro queue s' hs'
    rw [fault_setQueue]
    exact hs'
  have hcaptured : ∀ queue s', (c.streams s').captured = true →
      ((c.setQueue s queue).streams s').captured = true :=
    fun queue s' => (captured_setQueue queue s').trans
  unfold device
  split
  · rename_i hf hq
    exact h.log [.worked _] rfl rfl (by simp [Event.polls]) h.signalled (fun _ => id) (fun _ => rfl)
      (hfault _) (hcaptured _) fun s' j hmem => h.waking s' j (hqueue hq s' j hmem)
  · rename_i hf hq
    exact h.log [] rfl rfl (fun _ he => absurd he List.not_mem_nil) h.signalled (fun _ => id)
      (fun _ => rfl) (hfault _) (hcaptured _) fun s' j hmem => h.waking s' j (hqueue hq s' j hmem)
  · rename_i i queue hf hq
    have hcomplete : ∀ j, (c.callbacks j).complete = true →
        (((c.setQueue s (.wake i :: queue)).complete i).callbacks j).complete = true := by
      intro j hj
      by_cases hji : j = i
      · subst hji
        simp [complete, setCallback]
      · simpa [complete, setCallback, setQueue, setStream, hji] using hj
    refine h.log [] rfl rfl (fun _ he => absurd he List.not_mem_nil)
      (fun hs r hr => hcomplete _ (h.signalled hs r hr)) hcomplete (fun j => ?_) (hfault _)
      (hcaptured _) fun s' j hmem => ?_
    · by_cases hji : j = i
      · subst hji
        simp [complete, setCallback, setQueue, setStream]
      · simp [complete, setCallback, setQueue, setStream, hji]
    · rcases wake_setQueue hq (fun j hmem => (List.mem_cons.mp hmem).symm.imp_right fun heq =>
        by rw [StreamOp.wake.inj heq]) s' hmem with hmem | heq
      · exact hcomplete j (h.waking s' j hmem)
      · obtain rfl := StreamOp.signal.inj heq
        simp [complete, setCallback]
  · rename_i i queue hq
    have hhead : .wake i ∈ (c.streams s).queue := hq ▸ List.mem_cons_self
    obtain ⟨f, hi, hpos⟩ := carriers_pos hsound.tracked hq
    obtain ⟨harmed, hnot⟩ := hsettled.underway hcarried hi hpos
    have hpopped : (c.setQueue s queue).Heard :=
      h.log [] rfl rfl (fun _ he => absurd he List.not_mem_nil) h.signalled (fun _ => id)
        (fun _ => rfl) (hfault _) (hcaptured _) fun s' j hmem => h.waking s' j (hqueue hq s' j hmem)
    exact heard_handled hpopped hi (hsound.tracked.future i f hi) harmed hnot
      fun _ => .inl (h.waking s i hhead)
  · exact h

theorem heard_scan (h : c.Heard) (hsettled : c.Settled) (hsound : c.Sound) (hcarried : c.Carried)
    (hscan : Scans c c') : c'.Heard := by
  -- A registration in the scanner's hands is delivered, and the scanner goes on.
  have hdeliver : ∀ {r : Registration} {s' : Scanner Registration} {n : ℕ},
      r ∈ c.scanner.pass.woken ++ c.scanner.pass.dead → s'.Plain →
      ((c.callbacks r.waker).complete = true ∨ (c.streams r.stream).Broken) →
      ({ ((c.wake r.waker).record (.handled r.waker)).setScanner s' with idlePasses := n } :
        Process T O).Heard := by
    intro r s' n hr hplain hwhy
    have hregistered : c.Registered r := by
      rcases List.mem_append.mp hr with hr | hr
      · exact (hsound.told.2.woken r hr).1
      · exact (hsound.told.2.dead r hr).1
    obtain ⟨⟨f, hi, hstream, -⟩, -⟩ := hregistered
    have hpos : 0 < c.carriers r.waker f.stream := by
      have hcount : 0 < c.letters.countP (·.waker == r.waker) :=
        List.countP_pos_iff.mpr ⟨r, List.mem_append_right _ hr, beq_self_eq_true _⟩
      unfold carriers
      omega
    obtain ⟨harmed, hnot⟩ := hsettled.underway hcarried hi hpos
    have hhandled := heard_handled h hi (hsound.tracked.future _ f hi) harmed hnot fun hcap => by
      refine hwhy.imp_right fun hbroken => ?_
      rw [hstream] at hcap ⊢
      exact hbroken.resolve_right fun htrue => Bool.false_ne_true (hcap.symm.trans htrue)
    refine hhandled.log [] rfl rfl (fun _ he => absurd he List.not_mem_nil) (fun hs => ?_) (fun _ => id)
      (fun _ => rfl) (fun _ => id) (fun _ => id) hhandled.waking
    have hnone : s'.signalled = true := hs
    rw [hplain.signalled] at hnone
    cases hnone
  have hmove : ∀ {c'' : Process T O}, c''.scanner.signalled = false → c''.futures = c.futures →
      c''.log = c.log → c''.callbacks = c.callbacks → c''.streams = c.streams → c''.Heard := by
    intro c'' hsignalled hfutures hlog hcallbacks hstreams
    refine h.log [] hfutures hlog (fun _ he => absurd he List.not_mem_nil) (fun hs => ?_)
      (fun j => by rw [hcallbacks]; exact id) (fun j => by rw [hcallbacks])
      (fun s => by rw [hstreams]; exact id) (fun s => by rw [hstreams]; exact id)
      fun s j => by rw [hstreams, hcallbacks]; exact h.waking s j
    rw [hsignalled] at hs
    cases hs
  cases hscan with
  | move table s' n token _ _ hsignalled => exact hmove hsignalled rfl rfl rfl rfl
  | clear => exact hmove rfl rfl rfl rfl rfl
  | take word bits bit landed pass hs s' hplain => exact hmove hplain.signalled rfl rfl rfl rfl
  | signal pass r woken hs hwoken =>
    have hcomplete : ∀ j, (c.callbacks j).complete = true →
        ((c.complete r.waker).callbacks j).complete = true := by
      intro j hj
      by_cases hji : j = r.waker
      · subst hji
        simp [complete, setCallback]
      · simpa [complete, setCallback, hji] using hj
    refine h.log [] rfl rfl (fun _ he => absurd he List.not_mem_nil) (fun _ r' hr' => ?_) hcomplete
      (fun j => ?_) (fun _ => id) (fun _ => id) fun s j hmem => hcomplete j (h.waking s j hmem)
    · have hhead : r' ∈ pass.woken.head? := hr'
      rw [hwoken, List.head?_cons, Option.mem_some_iff] at hhead
      subst hhead
      simp [complete, setCallback, setScanner]
    · by_cases hji : j = r.waker
      · subst hji
        simp [complete, setCallback, setScanner]
      · simp [complete, setCallback, setScanner, hji]
  | wake pass r s' n hs hplain hwoken hdead _ =>
    refine hdeliver ?_ hplain (.inl (h.signalled ?_ r ?_)) <;> rw [hs]
    · rw [Scanner.pass, hwoken]
      exact List.mem_cons_self
    · rfl
    · rw [Scanner.pass, hwoken]
      rfl
  | fault pass r s' hs hplain hwoken hdead _ =>
    have hmem : r ∈ c.scanner.pass.dead := by
      rw [hs, Scanner.pass, hdead]
      exact List.mem_cons_self
    exact hdeliver (List.mem_append_right _ hmem) hplain (.inr (hsound.told.2.dead r hmem).2)

theorem heard_create {g : DeviceFuture T O} (h : c.Heard) (hsound : c.Sound) (hplace : g.place = .rest)
    (hstate : g.state ≠ .executing) : (c.create g).Heard := by
  refine ⟨h.signalled, h.waking, ?_, ?_⟩
  · intro j f hj hcap hmem
    rcases futures_create hj with hj | ⟨rfl, rfl⟩
    · exact h.handled j f hj hcap hmem
    · exact absurd rfl (hsound.tracked.known _ hmem).ne
  · intro j f hj hcap
    rcases futures_create hj with hj | ⟨rfl, rfl⟩
    · exact h.expects j f hj hcap
    · simp only [Expects, hplace]
      exact fun hs => absurd hs hstate

theorem heard_setStream {stream : Stream} (h : c.Heard) (hqueue : stream.queue = (c.streams s).queue)
    (hfault : (c.streams s).fault.isSome → stream.fault.isSome)
    (hcaptured : (c.streams s).captured = true → stream.captured = true) :
    (c.setStream s stream).Heard := by
  refine h.log [] rfl rfl (fun _ he => absurd he List.not_mem_nil) h.signalled (fun _ => id)
    (fun _ => rfl) (fun r hr => ?_) (fun r hr => ?_) fun r j hmem => ?_
  · by_cases hrs : r = s
    · subst hrs
      simpa [setStream] using hfault hr
    · simpa [setStream, hrs] using hr
  · by_cases hrs : r = s
    · subst hrs
      simpa [setStream] using hcaptured hr
    · simpa [setStream, hrs] using hr
  · refine h.waking r j ?_
    by_cases hrs : r = s
    · subst hrs
      simpa [setStream, hqueue] using hmem
    · simpa [setStream, hrs] using hmem

theorem heard_step (h : c.Heard) (hsettled : c.Settled) (hsound : c.Sound) (hcarried : c.Carried)
    (x : Input T O) : (c.step x).Heard := by
  unfold step
  split
  · exact h
  · cases x with
    | new | scheduled | failed =>
      refine heard_create h hsound rfl ?_
      simp [DeviceFuture.new, DeviceFuture.scheduled, DeviceFuture.failed]
    | poll i w locked =>
      cases hi : c.futures[i]? with
      | none => simpa only [Process.poll, hi] using h
      | some f => exact heard_calls h hsound hi (calls_poll hi w locked)
    | drop i =>
      cases hi : c.futures[i]? with
      | none => simpa only [Process.drop, hi] using h
      | some f => exact heard_calls h hsound hi (calls_drop hi)
    | tick i a =>
      cases hi : c.futures[i]? with
      | none => simpa only [Process.tick, hi] using h
      | some f => exact heard_ticks h hsettled hsound hi (ticks hi)
    | device s => exact heard_device h hsettled hsound hcarried s
    | fault s code =>
      refine heard_setStream h rfl (fun hs => ?_) id
      cases hf : (c.streams s).fault with
      | none => simp [hf] at hs
      | some e => simp
    | capture s capturing =>
      exact heard_setStream h rfl id fun hs => Bool.or_eq_true_iff.mpr (.inl hs)
    | scan clock => exact heard_scan h hsettled hsound hcarried (scans clock)

theorem heard_init (numSlots : ℕ) : (init numSlots : Process T O).Heard := by
  refine ⟨?_, ?_, ?_, ?_⟩ <;> simp [init, Stream.new, Scanner.start, Scanner.signalled]

theorem heard_run (h : c.Heard) (hsettled : c.Settled) (hsound : c.Sound) (hcarried : c.Carried)
    (inputs : List (Input T O)) : (c.run inputs).Heard := by
  induction inputs generalizing c with
  | nil => exact h
  | cons x inputs ih =>
    exact ih (heard_step h hsettled hsound hcarried x) (settled_step hsettled hsound hcarried x)
      (sound_step hsound x) (carried_step hcarried hsound x)

end Process
end Gudra.Reactor
