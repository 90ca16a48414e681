import Gudra.Posted

/-! Every access keeps what the flags, the payloads and the scanner say. -/
namespace Gudra.Reactor.Process

variable {T O : Type} {c c' : Process T O} {f f' : DeviceFuture T O} {r : Registration}
  {i j s slot : ℕ}

def Told (c : Process T O) : Prop := c.Posted ∧ c.Judged

theorem complete_register (w : ℕ) :
    ((c.register i w).callbacks j).complete = (c.callbacks j).complete := by
  by_cases hj : j = i
  · subst hj
    simp [register, setCallback]
  · simp [register, setCallback, hj]

theorem complete_wake : ((c.wake i).callbacks j).complete = (c.callbacks j).complete := by
  obtain heq | ⟨w, -, heq⟩ := wake_cases (c := c) (i := i)
  · rw [heq]
  · rw [heq]
    by_cases hj : j = i
    · subst hj
      simp [record, setCallback]
    · simp [record, setCallback, hj]

theorem log_wake : c.log <:+ (c.wake i).log := by
  obtain heq | ⟨w, -, heq⟩ := wake_cases (c := c) (i := i)
  · rw [heq]
  · rw [heq]
    exact List.suffix_cons _ _

theorem wake_futures : (c.wake i).futures = c.futures := by
  unfold wake
  split <;> rfl

theorem wake_streams : (c.wake i).streams = c.streams := by
  unfold wake
  split <;> rfl

theorem wake_table : (c.wake i).table = c.table := by
  unfold wake
  split <;> rfl

theorem wake_scanner : (c.wake i).scanner = c.scanner := by
  unfold wake
  split <;> rfl

/-- The futures stay as they are. -/
theorem Told.congr (h : c.Told) (hfutures : c'.futures = c.futures) (htable : c.table.Same c'.table)
    (hscanner : c'.scanner = c.scanner) (hstreams : SameWrites c.streams c'.streams)
    (hlog : c.log <:+ c'.log)
    (hcomplete : ∀ j, (c'.callbacks j).complete = true →
      (c.callbacks j).complete = true ∨ (c'.Calm → .worked j ∈ c'.log)) : c'.Told := by
  have hcalls : ∀ (P : Place O → Prop) r, c'.Call P r ↔ c.Call P r :=
    fun P r => call_congr hfutures
  have hmem : ∀ e ∈ c.log, e ∈ c'.log := fun e he => hlog.mem he
  have hcalm : c'.Calm → c.Calm := Calm.of_futures hfutures hstreams.captured
  refine ⟨h.1.congr ⟨fun _ => hcalls _, fun _ r => (hcalls _ r).mp, fun _ r => (hcalls _ r).mp,
    fun r => (hcalls _ r).mpr, htable, congrArg Scanner.taken hscanner, hstreams, hcalm, hmem⟩,
    h.2.congr hscanner (fun r => (hcalls _ r).mpr) hmem hcalm (fun _ => hstreams.broken) hcomplete ?_⟩
  intro slot landed _
  exact ⟨fun hflag => htable.flags ▸ hflag, by rw [htable.payload]⟩

theorem told_abort (h : c.Told) : c.abort.Told :=
  h.congr rfl c.table.same_refl rfl (.refl _) (List.suffix_refl _) fun _ => .inl

/-- One future moves between places that hold no slot that was asked for. -/
theorem Told.set (h : c.Told) (hi : c.futures[i]? = some f)
    (hfutures : c'.futures = c.futures.set i f') (hcontext : f'.executionContext = f.executionContext)
    (hasked : f.place.asked = []) (hasked' : f'.place.asked = []) (hfresh' : f'.place.fresh = [])
    (htable : c.table.Same c'.table) (hscanner : c'.scanner = c.scanner)
    (hstreams : SameWrites c.streams c'.streams) (hlog : c.log <:+ c'.log)
    (hcomplete : ∀ j, (c'.callbacks j).complete = (c.callbacks j).complete) : c'.Told := by
  have hmem : ∀ e ∈ c.log, e ∈ c'.log := fun e he => hlog.mem he
  have hands := sameHands_set hi hfutures hcontext hasked hasked' hfresh' htable hscanner hstreams hmem
  refine ⟨h.1.congr hands,
    h.2.congr hscanner hands.calls hmem hands.calm (fun _ => hstreams.broken) ?_ ?_⟩
  · intro j hj
    exact .inl (hcomplete j ▸ hj)
  · intro slot landed _
    exact ⟨fun hflag => htable.flags ▸ hflag, by rw [htable.payload]⟩

/-- One future goes on, and of the shared state at most its held slot changes. -/
theorem Told.of_posted (h : c.Told) (slot : ℕ) (hp : c.Placed) (hi : c.futures[i]? = some f)
    (hslot : slot ∈ f.place.slots) (hfutures : c'.futures = c.futures.set i f')
    (hcontext : f'.executionContext = f.executionContext) (hscanner : c'.scanner = c.scanner)
    (hfault : ∀ s, (c.streams s).fault.isSome → (c'.streams s).fault.isSome)
    (hcaptured : ∀ s, (c.streams s).captured = true → (c'.streams s).captured = true)
    (hlog : c.log <:+ c'.log) (hcallbacks : c'.callbacks = c.callbacks)
    (hflags : ∀ slot', slot' ≠ slot → c'.table.flags slot' = c.table.flags slot')
    (hpayload : ∀ slot', slot' ≠ slot → c'.table.payload slot' = c.table.payload slot')
    (hposted : c'.Posted) : c'.Told := by
  refine ⟨hposted, h.2.congr hscanner (fun r => calls_set hi hfutures hcontext)
    (fun e he => hlog.mem he) (Calm.of_set hi hfutures hcontext hcaptured)
    (fun s => Or.imp (hfault s) (hcaptured s)) (fun j hj => .inl (hcallbacks ▸ hj))
    fun slot' landed hj => ?_⟩
  have hne := hp.judged_ne (r := ⟨i, f.stream⟩) (call_self hi hslot) hj
  exact ⟨fun hflag => (hflags slot' hne).trans hflag, hpayload slot' hne⟩

section Table

variable (h : c.Posted) (hi : c.futures[i]? = some f)
  (hfutures : c'.futures = c.futures.set i f') (hcontext : f'.executionContext = f.executionContext)
  (hscanner : c'.scanner = c.scanner) (hlog : c'.log = c.log)

include h hi hfutures hcontext hscanner hlog

theorem posted_reset (hplace : f.place = .reset slot) (hplace' : f'.place = .write slot)
    (htable : c'.table = c.table.resetFlag slot) (hstreams : c'.streams = c.streams) :
    c'.Posted := by
  have hasked : ∀ slot' r, c'.Call (slot' ∈ ·.asked) r ↔ c.Call (slot' ∈ ·.asked) r :=
    fun slot' r => call_set_iff hi hfutures hcontext (by rw [hplace, hplace']; exact Iff.rfl)
  have hcalls : ∀ r, c.Call (fun _ => True) r → c'.Call (fun _ => True) r :=
    fun r => calls_set hi hfutures hcontext
  refine ⟨fun hcalm => ?_, ?_, ?_⟩
  · have hmail := h.mail (hcalm.of_set hi hfutures hcontext fun s => by rw [hstreams]; exact id)
    rw [htable, hstreams, hlog]
    refine (hmail.reset slot ?_).congr (fun slot' r => ?_) (fun _ => id) (.refl _) fun _ => id
    · rintro slot' ⟨r, hr⟩
      rcases (call_set hi hfutures hcontext).mp hr with ⟨-, hfresh⟩ | ⟨-, hr⟩
      · rw [hplace'] at hfresh
        exact .inl (List.mem_singleton.mp hfresh)
      · exact .inr ⟨r, hr⟩
    · rw [Watches, Watches, hasked, hscanner, htable]
      exact Iff.rfl
  · intro slot' r hr
    rw [htable]
    rcases (call_set hi hfutures hcontext).mp hr with ⟨-, hstored⟩ | ⟨-, hr⟩
    · rw [hplace'] at hstored
      exact absurd hstored List.not_mem_nil
    · exact h.stored slot' r hr
  · intro slot' hslot'
    rw [htable, hscanner] at hslot'
    rw [htable]
    obtain ⟨r, hpayload, hregistered⟩ := h.kept slot' hslot'
    exact ⟨r, hpayload, hregistered.mono hcalls fun _ he => hlog ▸ he⟩

theorem posted_write (hp : c.Placed) (hsome : f.executionContext.isSome)
    (hplace : f.place = .write slot) (hplace' : f'.place = .payload slot)
    (htable : c'.table = c.table)
    (hstreams : c'.streams = (c.submit f.stream (.write slot i)).streams) : c'.Posted := by
  have hfresh : c.Fresh slot :=
    ⟨⟨i, f.stream⟩, call_self hi (by rw [hplace]; exact List.mem_singleton_self slot)⟩
  have hcalls : ∀ r, c.Call (fun _ => True) r → c'.Call (fun _ => True) r :=
    fun r => calls_set hi hfutures hcontext
  have hasked : ∀ slot' r, c'.Call (slot' ∈ ·.asked) r ↔
      slot' = slot ∧ r = ⟨i, f.stream⟩ ∨ c.Call (slot' ∈ ·.asked) r := by
    intro slot' r
    rw [call_set hi hfutures hcontext, hplace']
    constructor
    · rintro (⟨rfl, hasked⟩ | ⟨-, hr⟩)
      · exact .inl ⟨List.mem_singleton.mp hasked, rfl⟩
      · exact .inr hr
    · rintro (⟨rfl, rfl⟩ | hr)
      · exact .inl ⟨rfl, List.mem_singleton_self _⟩
      · refine .inr ⟨fun hwaker => ?_, hr⟩
        have hmem := (hr.self hi hwaker).2
        rw [hplace] at hmem
        exact List.not_mem_nil hmem
  have hback : c'.Calm → c.Calm := by
    refine Calm.of_set hi hfutures hcontext fun s => ?_
    rw [hstreams]
    exact (captured_submit (c := c) _ f.stream s).trans
  refine ⟨fun hcalm => ?_, ?_, ?_⟩
  · have hcaptured := hback hcalm f (List.mem_of_getElem? hi) _ (f.context_stream hsome)
    rw [htable, hlog]
    refine (h.mail (hback hcalm)).ask (i := i) (s := f.stream) hfresh
      (fun r hr => hp.fresh_unwatched hfresh hr) (fun slot' r => ?_) ?_ ?_ ?_
    · rw [Watches, Watches, hasked, or_assoc, hscanner, htable]
    · rintro slot' ⟨r, hr⟩
      rcases (call_set hi hfutures hcontext).mp hr with ⟨-, hfresh⟩ | ⟨-, hr⟩
      · rw [hplace'] at hfresh
        exact absurd hfresh List.not_mem_nil
      · exact ⟨r, hr⟩
    · rw [hstreams, submit_self, Stream.submit_of_captured _ _ hcaptured]
    · intro s hs
      rw [hstreams, submit_of_ne _ hs]
  · intro slot' r hr
    rw [htable]
    rcases (call_set hi hfutures hcontext).mp hr with ⟨-, hstored⟩ | ⟨-, hr⟩
    · rw [hplace'] at hstored
      exact absurd hstored List.not_mem_nil
    · exact h.stored slot' r hr
  · intro slot' hslot'
    rw [htable, hscanner] at hslot'
    rw [htable]
    obtain ⟨r, hpayload, hregistered⟩ := h.kept slot' hslot'
    exact ⟨r, hpayload, hregistered.mono hcalls fun _ he => hlog ▸ he⟩

theorem posted_payload (hp : c.Placed) (hplace : f.place = .payload slot) (hplace' : f'.place = .count slot)
    (htable : c'.table = c.table.putPayload slot ⟨i, f.stream⟩) (hstreams : c'.streams = c.streams) :
    c'.Posted := by
  have hcalls : ∀ r, c.Call (fun _ => True) r → c'.Call (fun _ => True) r :=
    fun r => calls_set hi hfutures hcontext
  have hasked : ∀ slot' r, c'.Call (slot' ∈ ·.asked) r ↔ c.Call (slot' ∈ ·.asked) r :=
    fun slot' r => call_set_iff hi hfutures hcontext (by rw [hplace, hplace']; exact Iff.rfl)
  have hheld : c.Call (slot ∈ ·.slots) ⟨i, f.stream⟩ :=
    call_self hi (by rw [hplace]; exact List.mem_singleton_self slot)
  have hkept : ∀ slot', slot' ∈ c'.table.armed ++ c'.scanner.taken ↔
      slot' ∈ c.table.armed ++ c.scanner.taken := by
    intro slot'
    rw [htable, hscanner]
    exact Iff.rfl
  have hpayload : ∀ slot' ∈ c.table.armed ++ c.scanner.taken,
      c'.table.payload slot' = c.table.payload slot' := by
    intro slot' hslot'
    rw [htable]
    refine Function.update_of_ne ?_ _ _
    rintro rfl
    exact hp.not_kept hheld hslot'
  refine ⟨fun hcalm => ?_, ?_, ?_⟩
  · have hmail := h.mail (hcalm.of_set hi hfutures hcontext fun s => by rw [hstreams]; exact id)
    rw [show c'.table.flags = c.table.flags by rw [htable]; rfl, hstreams, hlog]
    refine hmail.congr (fun slot' r => ?_) ?_ (.refl _) fun _ => id
    · rw [Watches, Watches, hasked, hkept]
      refine or_congr_right (and_congr_right fun hslot' => ?_)
      rw [hpayload slot' hslot']
    · rintro slot' ⟨r, hr⟩
      rcases (call_set hi hfutures hcontext).mp hr with ⟨-, hfresh⟩ | ⟨-, hr⟩
      · rw [hplace'] at hfresh
        exact absurd hfresh List.not_mem_nil
      · exact ⟨r, hr⟩
  · intro slot' r hr
    rw [htable]
    rcases (call_set hi hfutures hcontext).mp hr with ⟨rfl, hstored⟩ | ⟨hne, hr⟩
    · rw [hplace'] at hstored
      rw [List.mem_singleton.mp hstored]
      exact Function.update_self _ _ _
    · refine (Function.update_of_ne ?_ _ _).trans (h.stored slot' r hr)
      rintro rfl
      have hslots : c.Call (slot' ∈ ·.slots) r :=
        hr.mono fun _ hp => Place.mem_slots_of_asked (Place.mem_asked_of_stored hp)
      exact hne (congrArg Registration.waker (hp.call_unique hslots hheld))
  · intro slot' hslot'
    obtain ⟨r, hr, hregistered⟩ := h.kept slot' ((hkept slot').mp hslot')
    exact ⟨r, (hpayload slot' ((hkept slot').mp hslot')).trans hr,
      hregistered.mono hcalls fun _ he => hlog ▸ he⟩

theorem posted_count {wasIdle : Bool} (hplace : f.place = .count slot)
    (hplace' : f'.place = .arm slot wasIdle) (htable : c.table.Same c'.table)
    (hstreams : c'.streams = c.streams) : c'.Posted := by
  refine h.congr ⟨fun slot' r => ?_, fun slot' r => ?_, fun slot' r => ?_,
    fun r => calls_set hi hfutures hcontext, htable, congrArg Scanner.taken hscanner,
    hstreams ▸ .refl _, Calm.of_set hi hfutures hcontext fun s => by rw [hstreams]; exact id,
    fun _ he => hlog ▸ he⟩
  · exact call_set_iff hi hfutures hcontext (by rw [hplace, hplace']; exact Iff.rfl)
  · exact (call_set_iff hi hfutures hcontext (by rw [hplace, hplace']; exact Iff.rfl)).mp
  · exact (call_set_iff hi hfutures hcontext (by rw [hplace, hplace']; exact Iff.rfl)).mp

end Table

section Arm

variable (hp : c.Placed) (hi : c.futures[i]? = some f)

include hp hi

theorem mem_armed_setActive (hslot : slot ∈ f.place.slots) {slot' : ℕ} :
    slot' ∈ (c.table.setActive slot).armed ↔ slot' = slot ∨ slot' ∈ c.table.armed := by
  rw [(Slots.armed_set_perm hp (places_get hi) hslot).mem_iff, List.mem_cons]

theorem posted_arm {wasIdle : Bool} (h : c.Posted) (hplace : f.place = .arm slot wasIdle)
    (htable : c'.table = c.table.setActive slot) (hfutures : c'.futures = c.futures.set i f')
    (hcontext : f'.executionContext = f.executionContext) (hasked' : f'.place.asked = [])
    (hfresh' : f'.place.fresh = []) (hscanner : c'.scanner = c.scanner)
    (hstreams : c'.streams = c.streams) (hlog : c.log <:+ c'.log) (harmed : .armed i ∈ c'.log) :
    c'.Posted := by
  have hcalls : ∀ r, c.Call (fun _ => True) r → c'.Call (fun _ => True) r :=
    fun r => calls_set hi hfutures hcontext
  have hstored : c.table.payload slot = some ⟨i, f.stream⟩ :=
    h.stored slot _ (call_self hi (by rw [hplace]; exact List.mem_singleton_self slot))
  have hmem : ∀ slot', slot' ∈ c'.table.armed ++ c'.scanner.taken ↔
      slot' = slot ∨ slot' ∈ c.table.armed ++ c.scanner.taken := by
    intro slot'
    rw [htable, hscanner, List.mem_append, List.mem_append,
      mem_armed_setActive hp hi (by rw [hplace]; exact List.mem_singleton_self slot), or_assoc]
  have hpayload : c'.table.payload = c.table.payload := by rw [htable]; rfl
  refine ⟨fun hcalm => ?_, ?_, ?_⟩
  · have hmail := h.mail (hcalm.of_set hi hfutures hcontext fun s => by rw [hstreams]; exact id)
    rw [show c'.table.flags = c.table.flags by rw [htable]; rfl]
    refine hmail.congr (fun slot' r => ?_) ?_ (hstreams ▸ .refl _) fun _ hw => hlog.mem hw
    · rw [Watches, Watches, hmem, hpayload, call_set hi hfutures hcontext, hasked']
      constructor
      · rintro ((⟨-, hmem⟩ | ⟨-, hr⟩) | ⟨rfl | hslot', hr⟩)
        · exact absurd hmem List.not_mem_nil
        · exact .inl hr
        · obtain rfl := Option.some.inj (hstored.symm.trans hr)
          exact .inl (call_self hi (by rw [hplace]; exact List.mem_singleton_self _))
        · exact .inr ⟨hslot', hr⟩
      · rintro (hr | ⟨hslot', hr⟩)
        · by_cases hwaker : r.waker = i
          · obtain ⟨rfl, hslot'⟩ := hr.self hi hwaker
            rw [hplace] at hslot'
            obtain rfl := List.mem_singleton.mp hslot'
            exact .inr ⟨.inl rfl, hstored⟩
          · exact .inl (.inr ⟨hwaker, hr⟩)
        · exact .inr ⟨.inr hslot', hr⟩
    · rintro slot' ⟨r, hr⟩
      rcases (call_set hi hfutures hcontext).mp hr with ⟨-, hfresh⟩ | ⟨-, hr⟩
      · rw [hfresh'] at hfresh
        exact absurd hfresh List.not_mem_nil
      · exact ⟨r, hr⟩
  · intro slot' r hr
    rw [hpayload]
    rcases (call_set hi hfutures hcontext).mp hr with ⟨-, hmem⟩ | ⟨-, hr⟩
    · have hmem := Place.mem_asked_of_stored hmem
      rw [hasked'] at hmem
      exact absurd hmem List.not_mem_nil
    · exact h.stored slot' r hr
  · intro slot' hslot'
    rw [hpayload]
    rcases (hmem slot').mp hslot' with rfl | hslot'
    · exact ⟨_, hstored, hcalls _ (call_self hi trivial), harmed⟩
    · obtain ⟨r, hr, hregistered⟩ := h.kept slot' hslot'
      exact ⟨r, hr, hregistered.mono hcalls fun _ he => hlog.mem he⟩

end Arm

/-- A future that holds no slot ends its call and hands out what it kept. -/
theorem told_deliver (h : c.Told) (hi : c.futures[i]? = some f) (hasked : f.place.asked = []) :
    ((c.release i f).deliver i f).Told := by
  unfold deliver
  obtain heq | ⟨owners, -, heq⟩ := release_cases (c := c) (i := i) (f := f) <;> rw [heq] <;>
    dsimp only <;> split
  · exact h.set hi rfl rfl hasked rfl rfl c.table.same_refl rfl (.refl _) ⟨[_], rfl⟩ fun _ => rfl
  · exact h.set hi rfl rfl hasked rfl rfl c.table.same_refl rfl (.refl _) ⟨[_], rfl⟩ fun _ => rfl
  · exact h.set hi rfl rfl hasked rfl rfl c.table.same_refl rfl (.refl _) ⟨[_, _], rfl⟩ fun _ => rfl
  · exact h.set hi rfl rfl hasked rfl rfl c.table.same_refl rfl (.refl _) ⟨[_, _], rfl⟩ fun _ => rfl

theorem told_ticks (h : c.Told) (hp : c.Placed) (htracked : c.Tracked) (hi : c.futures[i]? = some f)
    (ht : Ticks c i f c') : c'.Told := by
  -- What most accesses do: the table stays, and the future is at places that hold no asked slot.
  have hplain : ∀ {c'' : Process T O} {f' : DeviceFuture T O} (es : List (Event T O)),
      c''.futures = c.futures.set i f' → f'.executionContext = f.executionContext →
      f.place.asked = [] → f'.place.asked = [] → f'.place.fresh = [] → c.table.Same c''.table →
      c''.scanner = c.scanner → SameWrites c.streams c''.streams → c''.log = es ++ c.log →
      (∀ j, (c''.callbacks j).complete = (c.callbacks j).complete) → c''.Told := by
    intro c'' f' es hfutures hcontext hasked hasked' hfresh' htable hscanner hstreams hlog
    exact h.set hi hfutures hcontext hasked hasked' hfresh' htable hscanner hstreams ⟨es, hlog.symm⟩
  have hsame := c.table.same_refl
  have hwork : ∀ j, SameWrites c.streams (c.submit f.stream (.work j)).streams :=
    fun j => sameWrites_submit c f.stream (by simp)
  cases ht with
  | wait => exact h
  | abort => exact told_abort h
  | register hplace | reregister hplace =>
    exact hplain [] rfl rfl (by rw [hplace]; rfl) rfl rfl hsame rfl (.refl _) rfl
      fun _ => complete_register _
  | reject e hplace =>
    exact hplain [_] rfl rfl (by rw [hplace]; rfl) rfl rfl hsame rfl (.refl _) rfl fun _ => rfl
  | execute v owners hplace =>
    exact hplain [_] rfl rfl (by rw [hplace]; rfl) rfl rfl hsame rfl (hwork i) rfl fun _ => rfl
  | executeSome e owners hplace =>
    exact hplain [_] rfl rfl (by rw [hplace]; rfl) rfl rfl hsame rfl (hwork i) rfl fun _ => rfl
  | executeNone e owners hplace =>
    exact hplain [] rfl rfl (by rw [hplace]; rfl) rfl rfl hsame rfl (.refl _) rfl fun _ => rfl
  | drained e owners hplace =>
    exact hplain [_, _] rfl rfl (by rw [hplace]; rfl) rfl rfl hsame rfl (.refl _) rfl fun _ => rfl
  | prove hplace | observe hplace =>
    refine told_deliver h hi ?_
    rcases hplace with hplace | hplace <;> rw [hplace] <;> rfl
  | refuse code hplace =>
    refine hplain [_] rfl rfl ?_ rfl rfl hsame rfl (.refl _) rfl fun _ => rfl
    rcases hplace with hplace | hplace | hplace | hplace <;> rw [hplace] <;> rfl
  | unclaimed hplace | busy hplace =>
    refine hplain [] rfl rfl ?_ rfl rfl hsame rfl (.refl _) rfl fun _ => rfl
    rcases hplace with hplace | hplace <;> rw [hplace] <;> rfl
  | react hplace | unwritten _ hplace | missed hplace | ask hplace | bind hplace | block hplace =>
    exact hplain [] rfl rfl (by rw [hplace]; rfl) rfl rfl hsame rfl (.refl _) rfl fun _ => rfl
  | claim slot table hplace htable =>
    have hclaim : c.table.Same table := by
      unfold SlotTable.claim at htable
      split at htable
      · cases htable
      · obtain ⟨-, rfl⟩ := Prod.mk.inj (Option.some.inj htable)
        exact ⟨rfl, rfl, rfl, rfl⟩
    exact hplain [] rfl rfl (by rw [hplace]; rfl) rfl rfl hclaim rfl (.refl _) rfl fun _ => rfl
  | release slot hplace =>
    exact hplain [] rfl rfl (by rw [hplace]; rfl) rfl rfl ⟨rfl, rfl, rfl, rfl⟩ rfl (.refl _) rfl
      fun _ => rfl
  | suspend hplace =>
    exact hplain [_] rfl rfl (by rw [hplace]; rfl) rfl rfl hsame rfl (.refl _) rfl fun _ => rfl
  | unpark hplace =>
    exact hplain [_] rfl rfl (by rw [hplace]; rfl) rfl rfl hsame rfl (.refl _) rfl fun _ => rfl
  | host hplace =>
    exact hplain [_, _] rfl rfl (by rw [hplace]; rfl) rfl rfl hsame rfl
      (sameWrites_submit c f.stream (by simp)) rfl fun _ => rfl
  | free hplace =>
    have hasked : f.place.asked = [] := by rcases hplace with hplace | hplace <;> rw [hplace] <;> rfl
    obtain heq | ⟨owners, -, heq⟩ := release_cases (c := c) (i := i) (f := f)
    · rw [free, heq]
      exact hplain [] rfl rfl hasked rfl rfl hsame rfl (.refl _) rfl fun _ => rfl
    · rw [free, heq]
      exact hplain [_] rfl rfl hasked rfl rfl hsame rfl (.refl _) rfl fun _ => rfl
  | reset slot hplace =>
    refine h.of_posted slot hp hi (by rw [hplace]; exact List.mem_singleton_self slot) rfl rfl rfl
      (fun _ => id) (fun _ => id) (List.suffix_refl _) rfl
      (fun slot' hne => Function.update_of_ne hne _ _) (fun _ _ => rfl) ?_
    exact posted_reset h.1 hi rfl rfl rfl rfl hplace rfl rfl rfl
  | write slot hplace =>
    have hsome := ((htracked.future i f hi).launched (by rw [hplace]; rfl)).2.1.context
    refine h.of_posted slot hp hi (by rw [hplace]; exact List.mem_singleton_self slot) rfl rfl rfl
      (fun s hs => ?_) (fun s => (captured_submit _ f.stream s).trans) (List.suffix_refl _) rfl
      (fun _ _ => rfl) (fun _ _ => rfl) ?_
    · exact (fault_submit (c := c) _ f.stream s).symm ▸ hs
    · exact posted_write h.1 hi rfl rfl rfl rfl hp hsome hplace rfl rfl rfl
  | payload slot hplace =>
    refine h.of_posted slot hp hi (by rw [hplace]; exact List.mem_singleton_self slot) rfl rfl rfl
      (fun _ => id) (fun _ => id) (List.suffix_refl _) rfl (fun _ _ => rfl)
      (fun slot' hne => Function.update_of_ne hne _ _) ?_
    exact posted_payload h.1 hi rfl rfl rfl rfl hp hplace rfl rfl rfl
  | count slot hplace =>
    refine h.of_posted slot hp hi (by rw [hplace]; exact List.mem_singleton_self slot) rfl rfl rfl
      (fun _ => id) (fun _ => id) (List.suffix_refl _) rfl (fun _ _ => rfl) (fun _ _ => rfl) ?_
    exact posted_count h.1 hi rfl rfl rfl rfl hplace rfl ⟨rfl, rfl, rfl, rfl⟩ rfl
  | armFirst slot hplace =>
    refine h.of_posted slot hp hi (by rw [hplace]; exact List.mem_singleton_self slot) rfl rfl rfl
      (fun _ => id) (fun _ => id) ⟨[_], rfl⟩ rfl (fun _ _ => rfl) (fun _ _ => rfl) ?_
    exact posted_arm hp hi h.1 hplace rfl rfl rfl rfl rfl rfl rfl ⟨[_], rfl⟩ List.mem_cons_self
  | arm slot hplace =>
    refine h.of_posted slot hp hi (by rw [hplace]; exact List.mem_singleton_self slot) rfl rfl rfl
      (fun _ => id) (fun _ => id) ⟨[_, _], rfl⟩ rfl (fun _ _ => rfl) (fun _ _ => rfl) ?_
    exact posted_arm hp hi h.1 hplace rfl rfl rfl rfl rfl rfl rfl ⟨[_, _], rfl⟩
      (List.mem_cons_of_mem _ List.mem_cons_self)

theorem told_calls (h : c.Told) (hi : c.futures[i]? = some f) (hc : Calls c i f c') : c'.Told := by
  have hplain : ∀ {c'' : Process T O} {f' : DeviceFuture T O} (es : List (Event T O)),
      c''.futures = c.futures.set i f' → f'.executionContext = f.executionContext →
      f.place.asked = [] → f'.place.asked = [] → f'.place.fresh = [] → c''.table = c.table →
      c''.scanner = c.scanner → c''.streams = c.streams → c''.log = es ++ c.log →
      c''.callbacks = c.callbacks → c''.Told := by
    intro c'' f' es hfutures hcontext hasked hasked' hfresh' htable hscanner hstreams hlog hcallbacks
    exact h.set hi hfutures hcontext hasked hasked' hfresh' (htable ▸ c.table.same_refl) hscanner
      (hstreams ▸ .refl _) ⟨es, hlog.symm⟩ fun j => by rw [hcallbacks]
  cases hc with
  | wait => exact h
  | abort => exact told_abort h
  | error w e hplace | locked w e hplace =>
    exact hplain [_, _] rfl rfl (by rw [hplace]; rfl) rfl rfl rfl rfl rfl rfl rfl
  | missing w hplace | late w hplace =>
    exact hplain [_, _] rfl rfl (by rw [hplace]; rfl) (by simp only [hplace]; rfl)
      (by simp only [hplace]; rfl) rfl rfl rfl rfl rfl
  | begin w hplace | again w hplace =>
    exact hplain [_] rfl rfl (by rw [hplace]; rfl) rfl rfl rfl rfl rfl rfl rfl
  | bind hplace | discard hplace =>
    exact hplain [] rfl rfl (by rw [hplace]; rfl) rfl rfl rfl rfl rfl rfl rfl

theorem setQueue_self {queue : List StreamOp} :
    ((c.setQueue s queue).streams s) = { c.streams s with queue } := by
  simp [setQueue, setStream]

theorem setQueue_of_ne {queue : List StreamOp} {s' : ℕ} (h : s' ≠ s) :
    (c.setQueue s queue).streams s' = c.streams s' := by
  simp [setQueue, setStream, h]

theorem captured_setQueue (queue : List StreamOp) (s' : ℕ) :
    ((c.setQueue s queue).streams s').captured = (c.streams s').captured := by
  by_cases hs : s' = s
  · subst hs
    rw [setQueue_self]
  · rw [setQueue_of_ne hs]

/-- The head of a stream is replaced, and neither is a write. -/
theorem sameWrites_setQueue {queue queue' : List StreamOp} (hq : (c.streams s).queue = queue)
    (hcount : ∀ slot i, queue'.count (.write slot i) = queue.count (.write slot i)) :
    SameWrites c.streams (c.setQueue s queue').streams := by
  refine ⟨fun r hr => ?_, fun r => (captured_setQueue _ r).trans, fun r slot i => ?_⟩
  · by_cases hrs : r = s
    · subst hrs
      rw [setQueue_self]
      exact hr
    · rw [setQueue_of_ne hrs]
      exact hr
  · by_cases hrs : r = s
    · subst hrs
      rw [setQueue_self, hq]
      exact hcount slot i
    · rw [setQueue_of_ne hrs]

theorem told_land (h : c.Told) (hp : c.Placed) (ht : c.Tracked) {queue : List StreamOp}
    (hf : (c.streams s).fault = none) (hq : (c.streams s).queue = .write slot i :: queue) :
    ((c.setQueue s queue).setTable (c.table.land slot)).Told := by
  have hsame : ∀ r, ((c.setQueue s queue).streams r).fault = (c.streams r).fault ∧
      ((c.setQueue s queue).streams r).captured = (c.streams r).captured := by
    intro r
    by_cases hrs : r = s
    · subst hrs
      rw [setQueue_self]
      exact ⟨rfl, rfl⟩
    · rw [setQueue_of_ne hrs]
      exact ⟨rfl, rfl⟩
  have hback : ((c.setQueue s queue).setTable (c.table.land slot)).Calm → c.Calm :=
    Calm.of_futures rfl fun r hr => (hsame r).2.trans hr
  refine ⟨⟨fun hcalm => ?_, h.1.stored, h.1.kept⟩, ?_⟩
  · have hcaptured := ht.uncaptured (hback hcalm) (hq ▸ List.mem_cons_self : .write slot i ∈ _)
    refine (h.1.mail (hback hcalm)).land ?_ hq (fun r r' => hp.watch_unique)
      (fun r hwatch hfresh => hp.fresh_unwatched hfresh hwatch)
      (ht.worked_of_head (hback hcalm) hq (by simp))
    rintro (hfault | htrue)
    · rw [hf] at hfault
      cases hfault
    · rw [hcaptured] at htrue
      cases htrue
  refine h.2.congr rfl (fun _ => id) (fun _ => id) hback (fun r => ?_) (fun _ => .inl) ?_
  · exact Or.imp (fun hr => (hsame r).1 ▸ hr) (hsame r).2.trans
  · intro slot' landed _
    refine ⟨fun hflag => ?_, rfl⟩
    show Function.update c.table.flags slot 1 slot' = 1
    by_cases heq : slot' = slot
    · rw [heq, Function.update_self]
    · rw [Function.update_of_ne heq, hflag]

theorem told_device (h : c.Told) (hp : c.Placed) (ht : c.Tracked) (s : ℕ) : (c.device s).Told := by
  unfold device
  split
  · rename_i hf hq
    exact h.congr rfl c.table.same_refl rfl (sameWrites_setQueue hq (by simp)) ⟨[_], rfl⟩ fun _ => .inl
  · rename_i hf hq
    exact told_land h hp ht hf hq
  · rename_i i queue hf hq
    have hwrites : SameWrites c.streams (c.setQueue s (.wake i :: queue)).streams :=
      sameWrites_setQueue hq (by simp)
    have hback : ((c.setQueue s (.wake i :: queue)).complete i).Calm → c.Calm :=
      Calm.of_futures rfl hwrites.captured
    refine h.congr rfl c.table.same_refl rfl hwrites (List.suffix_refl _) ?_
    intro j hj
    by_cases hji : j = i
    · subst hji
      exact .inr fun hcalm => ht.worked_of_head (hback hcalm) hq (by simp)
    · refine .inl ?_
      simpa [complete, setCallback, hji, setQueue, setStream] using hj
  · rename_i i queue hq
    refine h.congr ?_ ?_ ?_ ?_ ?_ fun j hj => .inl ?_
    · exact wake_futures
    · exact (wake_table (c := c.setQueue s queue)).symm ▸ c.table.same_refl
    · exact wake_scanner
    · exact (wake_streams (c := c.setQueue s queue)).symm ▸ sameWrites_setQueue hq (by simp)
    · exact (log_wake (c := c.setQueue s queue)).trans (List.suffix_cons _ _)
    · exact (complete_wake (c := c.setQueue s queue)).symm.trans hj
  · exact h

theorem told_move {table : SlotTable Registration} {s' : Scanner Registration} {n : ℕ} {token : Bool}
    (h : c.Told) (ht : c.table.Same table) (htaken : c.scanner.taken = [] ∧ s'.taken = [])
    (hwoken : ∀ r ∈ s'.pass.woken, r ∈ c.scanner.pass.woken)
    (hdead : ∀ r ∈ s'.pass.dead, r ∈ c.scanner.pass.dead)
    (hmemo : c.Remembers c.scanner.pass → c.Remembers s'.pass ∧
      ∀ slot landed, s'.judged = some (slot, landed) → c.Verdict slot landed) :
    ({ c with table, scanner := s', idlePasses := n, token } : Process T O).Told := by
  obtain ⟨hremembers, hjudged⟩ := hmemo h.2.remembers
  refine ⟨h.1.congr ⟨fun _ _ => Iff.rfl, fun _ _ => id, fun _ _ => id, fun _ => id, ht,
    htaken.2.trans htaken.1.symm, .refl _, id, fun _ => id⟩, ?_, hremembers, ?_, ?_, h.2.complete⟩
  · intro slot landed hj
    have hverdict := hjudged slot landed hj
    cases landed with
    | true => exact (congrFun ht.flags slot).trans hverdict
    | false => exact fun r hr => hverdict r ((congrFun ht.payload slot).symm.trans hr)
  · intro r hr
    exact h.2.woken r (hwoken r hr)
  · intro r hr
    exact h.2.dead r (hdead r hr)

theorem told_clear {word bit : ℕ} {bits : BitVec 64} {landed : Bool} {pass : Pass Registration}
    (h : c.Told) (hp : c.Placed) (hs : c.scanner = .clear word bits bit landed pass) :
    ((c.setTable (c.table.clearActive word bit)).setScanner (.take word bits bit landed pass)).Told := by
  have hslots : Slots c.table c.scanner c.token c.places := hp
  rw [hs] at hslots
  have hperm := Slots.armed_clear_perm hslots
  have hnone : c.scanner.taken = [] := by rw [hs]; rfl
  have hkept : ∀ slot, slot ∈ (c.table.clearActive word bit).armed ++ [word * 64 + bit] ↔
      slot ∈ c.table.armed ++ c.scanner.taken := by
    intro slot
    rw [hnone, List.append_nil, hperm.mem_iff, List.mem_append, List.mem_singleton, List.mem_cons,
      or_comm]
  refine ⟨⟨fun hcalm => ?_, h.1.stored, fun slot hslot => h.1.kept slot ((hkept slot).mp hslot)⟩, ?_⟩
  · refine (h.1.mail hcalm).congr (fun slot r => ?_) (fun _ => id) (.refl _) fun _ => id
    exact or_congr_right (and_congr_left fun _ => hkept slot)
  · refine ⟨?_, ?_, ?_, ?_, h.2.complete⟩
    · intro slot landed' hj
      exact h.2.judged slot landed' (hs ▸ hj)
    · have hremembers := h.2.remembers
      rw [hs] at hremembers
      exact hremembers
    · intro r hr
      exact h.2.woken r (hs ▸ hr)
    · intro r hr
      exact h.2.dead r (hs ▸ hr)

theorem told_take {word bit : ℕ} {bits : BitVec 64} {landed : Bool} {pass : Pass Registration}
    {s' : Scanner Registration} (h : c.Told) (hp : c.Placed)
    (hs : c.scanner = .take word bits bit landed pass) (hplain : s'.Plain)
    (hwoken : s'.pass.woken = pass.woken ++
      if landed then (c.table.payload (word * 64 + bit)).toList else [])
    (hdead : s'.pass.dead = pass.dead ++
      if landed then [] else (c.table.payload (word * 64 + bit)).toList)
    (hmemo : s'.pass.memo = pass.memo) :
    ((c.setTable (c.table.takePayload (word * 64 + bit))).setScanner s').Told := by
  have hslots : word * 64 + bit ∈ c.scanner.slots := by
    rw [hs]
    exact List.mem_cons_self
  have htaken : c.scanner.taken = [word * 64 + bit] := by rw [hs]; rfl
  have hverdict : c.Verdict (word * 64 + bit) landed := h.2.judged _ _ (by rw [hs]; rfl)
  have hkeeps : ∀ r, c.table.payload (word * 64 + bit) = some r → c.Watches (word * 64 + bit) r :=
    fun r hr => .inr ⟨by rw [htaken]; exact List.mem_append_right _ (List.mem_singleton_self _), hr⟩
  have hwatch : ∀ r, c.Watches (word * 64 + bit) r → c.table.payload (word * 64 + bit) = some r := by
    rintro r (hcall | ⟨-, hr⟩)
    · exact absurd hslots (hp.apart (hcall.mono fun _ => Place.mem_slots_of_asked)).2
    · exact hr
  have hnot := hp.not_armed hs
  have hpayload : ∀ slot, slot ≠ word * 64 + bit →
      (c.table.takePayload (word * 64 + bit)).payload slot = c.table.payload slot :=
    fun slot hne => Function.update_of_ne hne _ _
  have hremembers := h.2.remembers
  rw [hs] at hremembers
  refine ⟨⟨fun hcalm => ?_, ?_, ?_⟩, ?_, ?_, ?_, ?_, h.2.complete⟩
  · refine ((h.1.mail hcalm).retire (word * 64 + bit) ?_ fun slot r => Iff.rfl).congr
      (fun slot r => ?_) (fun _ => id) (.refl _) fun _ => id
    · cases landed with
      | true => exact .inl hverdict
      | false => exact .inr fun r hr => hverdict r (hwatch r hr)
    · constructor
      · rintro (hcall | ⟨hslot, hr⟩)
        · refine ⟨.inl hcall, ?_⟩
          rintro rfl
          exact (hp.apart (hcall.mono fun _ => Place.mem_slots_of_asked)).2 hslots
        · have harmed : slot ∈ c.table.armed := by
            have hslot' : slot ∈ c.table.armed ++ s'.taken := hslot
            rwa [hplain.taken, List.append_nil] at hslot'
          have hne : slot ≠ word * 64 + bit := by
            rintro rfl
            exact hnot harmed
          exact ⟨.inr ⟨List.mem_append_left _ harmed, hpayload slot hne ▸ hr⟩, hne⟩
      · rintro ⟨hcall | ⟨hslot, hr⟩, hne⟩
        · exact .inl hcall
        · rw [htaken, List.mem_append, List.mem_singleton] at hslot
          exact .inr ⟨List.mem_append_left _ (hslot.resolve_right hne), (hpayload slot hne).trans hr⟩
  · intro slot r hr
    refine (hpayload slot ?_).trans (h.1.stored slot r hr)
    rintro rfl
    exact (hp.apart (hr.mono fun _ hp => Place.mem_slots_of_asked (Place.mem_asked_of_stored hp))).2
      hslots
  · intro slot hslot
    have harmed : slot ∈ c.table.armed := by
      have hslot' : slot ∈ c.table.armed ++ s'.taken := hslot
      rwa [hplain.taken, List.append_nil] at hslot'
    obtain ⟨r, hr, hregistered⟩ := h.1.kept slot (List.mem_append_left _ harmed)
    refine ⟨r, (hpayload slot ?_).trans hr, hregistered⟩
    rintro rfl
    exact hnot harmed
  · intro slot landed' hj
    have hnone : s'.judged = some (slot, landed') := hj
    rw [hplain.judged] at hnone
    cases hnone
  · intro x hx
    exact hremembers x (hmemo ▸ hx)
  · intro r hr
    have hr' : r ∈ s'.pass.woken := hr
    rw [hwoken, List.mem_append] at hr'
    rcases hr' with hr' | hr'
    · exact h.2.woken r (by rw [hs]; exact hr')
    · cases landed with
      | false => exact absurd hr' List.not_mem_nil
      | true =>
        have hr' := Option.mem_toList.mp hr'
        obtain ⟨r', hpay, hregistered⟩ := h.1.kept (word * 64 + bit)
          (by rw [htaken]; exact List.mem_append_right _ (List.mem_singleton_self _))
        obtain rfl := Option.some.inj (hpay.symm.trans hr')
        exact ⟨hregistered, fun hcalm => (h.1.mail hcalm).landed _ _ (hkeeps _ hr') hverdict⟩
  · intro r hr
    have hr' : r ∈ s'.pass.dead := hr
    rw [hdead, List.mem_append] at hr'
    rcases hr' with hr' | hr'
    · exact h.2.dead r (by rw [hs]; exact hr')
    · cases landed with
      | true => exact absurd hr' List.not_mem_nil
      | false =>
        have hr' := Option.mem_toList.mp hr'
        obtain ⟨r', hpay, hregistered⟩ := h.1.kept (word * 64 + bit)
          (by rw [htaken]; exact List.mem_append_right _ (List.mem_singleton_self _))
        obtain rfl := Option.some.inj (hpay.symm.trans hr')
        exact ⟨hregistered, hverdict _ hr'⟩

theorem told_handled (h : c.Told) (i : ℕ) : ((c.wake i).record (.handled i)).Told := by
  refine h.congr wake_futures ?_ wake_scanner ?_ (log_wake.trans (List.suffix_cons _ _)) fun j hj => .inl ?_
  · exact (wake_table (c := c)).symm ▸ c.table.same_refl
  · exact (wake_streams (c := c)).symm ▸ .refl _
  · exact (complete_wake (c := c)).symm.trans hj

/-- The scanner wakes a registration and has one less to wake. -/
theorem told_handed {s' : Scanner Registration} {n : ℕ} (h : c.Told) (i : ℕ)
    (htaken : c.scanner.taken = []) (hplain : s'.Plain)
    (hwoken : ∀ r ∈ s'.pass.woken, r ∈ c.scanner.pass.woken)
    (hdead : ∀ r ∈ s'.pass.dead, r ∈ c.scanner.pass.dead)
    (hmemo : c.Remembers c.scanner.pass → c.Remembers s'.pass) :
    ({ ((c.wake i).record (.handled i)).setScanner s' with idlePasses := n } : Process T O).Told := by
  have hscanner : ((c.wake i).record (.handled i)).scanner = c.scanner := wake_scanner
  have hstreams : ((c.wake i).record (.handled i)).streams = c.streams := wake_streams
  refine told_move (c := (c.wake i).record (.handled i)) (told_handled h i) (SlotTable.same_refl _)
    ⟨?_, hplain.taken⟩ ?_ ?_ ?_
  · rw [hscanner, htaken]
  · rw [hscanner]
    exact hwoken
  · rw [hscanner]
    exact hdead
  · rw [Remembers, Remembers, hscanner, hstreams]
    refine fun hremembers => ⟨hmemo hremembers, fun slot landed hj => ?_⟩
    have hnone : s'.judged = some (slot, landed) := hj
    rw [hplain.judged] at hnone
    cases hnone

theorem told_scan (h : c.Told) (hp : c.Placed) (hscan : Scans c c') : c'.Told := by
  cases hscan with
  | move table s' n token ht htaken _ hwoken hdead hmemo =>
    exact told_move h ht htaken (fun r => hwoken ▸ id) (fun r => hdead ▸ id) hmemo
  | clear word bits bit landed pass hs => exact told_clear h hp hs
  | take word bits bit landed pass hs s' hplain hwoken hdead hmemo =>
    exact told_take h hp hs hplain hwoken hdead hmemo
  | signal pass r woken hs hwoken =>
    have hr : c.Calm → .worked r.waker ∈ c.log := by
      refine (h.2.woken r ?_).2
      rw [hs]
      exact hwoken ▸ List.mem_cons_self
    have hcomplete : (c.complete r.waker).Told := by
      refine h.congr rfl c.table.same_refl rfl (.refl _) (List.suffix_refl _) fun j hj => ?_
      by_cases hji : j = r.waker
      · exact .inr (hji ▸ hr)
      · refine .inl ?_
        simpa [complete, setCallback, hji] using hj
    have hpass : (c.complete r.waker).scanner = .signal pass := hs
    show ({ c.complete r.waker with
      table := c.table
      scanner := .wake pass
      idlePasses := c.idlePasses
      token := c.token } : Process T O).Told
    refine told_move hcomplete c.table.same_refl ⟨?_, rfl⟩ ?_ ?_ fun hmemo => ⟨?_, ?_⟩
    · rw [hpass]
      rfl
    · rw [hpass]
      exact fun _ => id
    · rw [hpass]
      exact fun _ => id
    · rw [hpass] at hmemo
      exact hmemo
    · rintro slot landed ⟨⟩
  | wake pass r s' n hs hplain hwoken hdead hmemo =>
    refine told_handed h r.waker ?_ hplain ?_ ?_ ?_ <;> rw [hs]
    · rfl
    · rw [Scanner.pass, hwoken]
      exact fun _ => List.mem_cons_of_mem _
    · rw [Scanner.pass, hdead]
      exact fun _ => id
    · exact hmemo
  | fault pass r s' hs hplain hwoken hdead hmemo =>
    refine told_handed h r.waker ?_ hplain ?_ ?_ ?_ <;> rw [hs]
    · rfl
    · rw [Scanner.pass, hwoken]
      exact fun _ => id
    · rw [Scanner.pass, hdead]
      exact fun _ => List.mem_cons_of_mem _
    · exact hmemo

theorem told_create {g : DeviceFuture T O} (h : c.Told) (hg : g.place = .rest) : (c.create g).Told := by
  have hcall : ∀ (P : Place O → Prop) r, ¬ P .rest → ((c.create g).Call P r ↔ c.Call P r) := by
    intro P r hP
    constructor
    · rintro ⟨f, hi, hs, hp⟩
      rcases futures_create hi with hi | ⟨-, rfl⟩
      · exact ⟨f, hi, hs, hp⟩
      · exact absurd (hg ▸ hp) hP
    · rintro ⟨f, hi, hs, hp⟩
      exact ⟨f, getElem?_create hi, hs, hp⟩
  have hcalls : ∀ r, c.Call (fun _ => True) r → (c.create g).Call (fun _ => True) r := by
    rintro r ⟨f, hi, hs, -⟩
    exact ⟨f, getElem?_create hi, hs, trivial⟩
  have hcalm : (c.create g).Calm → c.Calm :=
    fun h f hf => h f (List.mem_append_left _ hf)
  refine ⟨h.1.congr ⟨?_, ?_, ?_, hcalls, c.table.same_refl, rfl, .refl _, hcalm, fun _ => id⟩,
    h.2.congr rfl hcalls (fun _ => id) hcalm (fun _ => id) (fun _ => .inl) fun _ _ _ => ⟨id, rfl⟩⟩
  · exact fun slot r => hcall (slot ∈ ·.asked) r List.not_mem_nil
  · exact fun slot r => (hcall (slot ∈ ·.stored) r List.not_mem_nil).mp
  · exact fun slot r => (hcall (slot ∈ ·.fresh) r List.not_mem_nil).mp

theorem told_setStream {stream : Stream} (h : c.Told) (hqueue : stream.queue = (c.streams s).queue)
    (hfault : (c.streams s).fault.isSome → stream.fault.isSome)
    (hcaptured : (c.streams s).captured = true → stream.captured = true) :
    (c.setStream s stream).Told := by
  refine h.congr rfl c.table.same_refl rfl ⟨fun r hr => ?_, fun r hr => ?_, fun r slot i => ?_⟩
    (List.suffix_refl _) fun _ => .inl
  · by_cases hrs : r = s
    · subst hrs
      simpa [setStream] using hfault hr
    · simpa [setStream, hrs] using hr
  · by_cases hrs : r = s
    · subst hrs
      simpa [setStream] using hcaptured hr
    · simpa [setStream, hrs] using hr
  · by_cases hrs : r = s
    · subst hrs
      simp [setStream, hqueue]
    · simp [setStream, hrs]

theorem tracked_setStream {stream : Stream} (h : c.Tracked)
    (hqueue : stream.queue = (c.streams s).queue) (hgraph : stream.graph = (c.streams s).graph) :
    (c.setStream s stream).Tracked := by
  have hqueues : ∀ r, ((c.setStream s stream).streams r).queue = (c.streams r).queue := by
    intro r
    by_cases hrs : r = s
    · subst hrs
      simp [setStream, hqueue]
    · simp [setStream, hrs]
  have hops : ∀ r, ((c.setStream s stream).streams r).ops = (c.streams r).ops := by
    intro r
    by_cases hrs : r = s
    · subst hrs
      simp [setStream, Stream.ops, hqueue, hgraph]
    · simp [setStream, hrs]
  refine ⟨h.future, fun r op hop => ?_, fun j f hj hsubmitted => ?_, fun r => ?_, h.known⟩
  · rw [hops] at hop
    exact h.queued r op hop
  · rw [hops]
    exact h.working j f hj hsubmitted
  · rw [hqueues]
    exact h.ordered r

/-- What holds at every moment of the process. -/
structure Sound (c : Process T O) : Prop where
  placed : c.Placed
  tracked : c.Tracked
  told : c.Told

theorem Sound.poll (h : c.Sound) (hc : Calls c i f c') (hi : c.futures[i]? = some f) : c'.Sound :=
  ⟨placed_calls h.placed hi hc, tracked_calls h.tracked hi hc, told_calls h.told hi hc⟩

theorem Sound.tick (h : c.Sound) (ht : Ticks c i f c') (hi : c.futures[i]? = some f) : c'.Sound :=
  ⟨placed_ticks h.placed hi ht, tracked_ticks h.tracked hi ht, told_ticks h.told h.placed h.tracked hi ht⟩

theorem Registered.lt (h : c.Registered r) : r.waker < c.futures.length := by
  obtain ⟨⟨f, hi, -⟩, -⟩ := h
  exact (List.getElem?_eq_some_iff.mp hi).1

theorem Sound.scan (h : c.Sound) (clock : Clock) : (c.scan clock).Sound where
  placed := placed_scan h.placed
  tracked := tracked_scan h.tracked (fun r hr => (h.told.2.woken r hr).1.lt)
    (fun r hr => (h.told.2.dead r hr).1.lt) (scans clock)
  told := told_scan h.told h.placed (scans clock)

theorem Sound.create {g : DeviceFuture T O} (h : c.Sound)
    (hg : g.place = .rest ∧ g.completionPending = false ∧ g.result = none ∧ g.quarantined = none ∧
      (g.state = .idle ∨ g.state = .failed ∧ g.error.isSome)) : (c.create g).Sound :=
  ⟨placed_create h.placed hg.1, tracked_create h.tracked hg, told_create h.told hg.1⟩

theorem sound_step (h : c.Sound) (x : Input T O) : (c.step x).Sound := by
  unfold step
  split
  · exact h
  · cases x with
    | new => exact h.create ⟨rfl, rfl, rfl, rfl, .inl rfl⟩
    | scheduled s => exact h.create ⟨rfl, rfl, rfl, rfl, .inl rfl⟩
    | failed e => exact h.create ⟨rfl, rfl, rfl, rfl, .inr ⟨rfl, rfl⟩⟩
    | poll i w locked =>
      cases hi : c.futures[i]? with
      | none => simpa only [Process.poll, hi] using h
      | some f => exact h.poll (calls_poll hi w locked) hi
    | drop i =>
      cases hi : c.futures[i]? with
      | none => simpa only [Process.drop, hi] using h
      | some f => exact h.poll (calls_drop hi) hi
    | tick i a =>
      cases hi : c.futures[i]? with
      | none => simpa only [Process.tick, hi] using h
      | some f => exact h.tick (ticks hi) hi
    | device s =>
      exact ⟨placed_device h.placed s, tracked_device h.tracked s,
        told_device h.told h.placed h.tracked s⟩
    | fault s code =>
      refine ⟨h.placed, tracked_setStream h.tracked rfl rfl,
        told_setStream h.told rfl (fun hs => ?_) id⟩
      cases hf : (c.streams s).fault with
      | none => simp [hf] at hs
      | some e => simp
    | capture s capturing =>
      exact ⟨h.placed, tracked_setStream h.tracked rfl rfl,
        told_setStream h.told rfl id fun hs => Bool.or_eq_true_iff.mpr (.inl hs)⟩
    | scan clock => exact h.scan clock

theorem sound_init (numSlots : ℕ) : (init numSlots : Process T O).Sound where
  placed := placed_init numSlots
  tracked := by
    refine ⟨?_, ?_, ?_, fun _ => List.Pairwise.nil, ?_⟩ <;> simp [init, Stream.new, Stream.ops]
  told := by
    have hcall : ∀ (P : Place O → Prop) r, ¬ (init numSlots : Process T O).Call P r := by
      rintro P r ⟨f, hi, -⟩
      simp [init] at hi
    have hkept : ∀ slot, slot ∉ (init numSlots : Process T O).table.armed ++
        (init numSlots : Process T O).scanner.taken := by
      intro slot hslot
      rw [show (init numSlots : Process T O).table.armed = [] from armed_new numSlots] at hslot
      exact List.not_mem_nil hslot
    refine ⟨⟨fun _ => ⟨?_, ?_, ?_, ?_⟩, ?_, ?_⟩, ?_, ?_, ?_, ?_, ?_⟩
    · intro s slot i _ hmem
      exact absurd hmem List.not_mem_nil
    · intro s slot i _
      exact Nat.zero_le 1
    · rintro slot ⟨r, hr⟩
      exact absurd hr (hcall _ r)
    · rintro slot r (hr | ⟨hslot, -⟩)
      · exact absurd hr (hcall _ r)
      · exact absurd hslot (hkept slot)
    · intro slot r hr
      exact absurd hr (hcall _ r)
    · intro slot hslot
      exact absurd hslot (hkept slot)
    · rintro slot landed ⟨⟩
    · intro x hx
      exact absurd hx List.not_mem_nil
    · intro r hr
      exact absurd hr List.not_mem_nil
    · intro r hr
      exact absurd hr List.not_mem_nil
    · intro i hi
      cases hi

theorem sound_run (h : c.Sound) (inputs : List (Input T O)) : (c.run inputs).Sound := by
  induction inputs generalizing c with
  | nil => exact h
  | cons x inputs ih => exact ih (sound_step h x)

end Gudra.Reactor.Process
